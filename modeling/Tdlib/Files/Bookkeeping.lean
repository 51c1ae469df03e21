import Tdlib.Files.Transfer
import Tdlib.Lib.Blocks

/-!
# The bookkeeping of parts

Three things hold of a transfer, and they look at different parts of it.

* `Book`: the counters and cursors fit the states of the parts.
* `Sized`: what was reported for a part that is ready is its share of the file, by the size of the
  file as far as it is known. This is where the two bounds of an unknown size come in: the first
  part that is short ends the file, and a later part with bytes would be an error.
* `Counted`: `readySize` is the sum of what was reported.

When the sum is the size of the file, no part can be missing.
-/

namespace Tdlib.Files

open Tdlib.Lib List Function PartsManager

/-! ## States and cursors -/

/-- The counters and cursors fit the states of the parts. -/
structure Book (d : PartsManager) : Prop where
  length : d.partStatus.length = d.partCount
  pendingCount : d.pendingCount = d.partStatus.countP fun status => status = .pending
  /-- No empty part is before the cursor. -/
  firstEmpty : ∀ i : Nat, d.partStatus[i]? = some .empty → d.firstEmptyPart ≤ i
  firstEmpty_le : d.firstEmptyPart ≤ d.partCount
  /-- All parts before this cursor are ready. -/
  firstNotReady : ∀ (i : Nat) (status : PartStatus), d.partStatus[i]? = some status →
    status ≠ .ready → d.firstNotReadyPart ≤ i
  firstNotReady_le : d.firstNotReadyPart ≤ d.partCount
  streamingEmpty_le : d.firstStreamingEmptyPart ≤ d.partCount

section Status

variable {l : List PartStatus} {i j : Nat} {old new status : PartStatus}

theorem status_set_self (hi : l[i]? = some old) : (l.set i new)[i]? = some new :=
  getElem?_set_self (List.getElem?_eq_some_iff.mp hi).1

theorem status_grow_or {n : Nat} (hj : (l ++ replicate n PartStatus.empty)[j]? = some status) :
    l[j]? = some status ∨ l.length ≤ j ∧ status = .empty := by
  rw [getElem?_append] at hj
  split at hj
  · exact .inl hj
  · rw [getElem?_replicate] at hj
    split at hj
    · exact .inr ⟨by omega, (Option.some.inj hj).symm⟩
    · cases hj

theorem status_of_grow {n : Nat} (hj : (l ++ replicate n PartStatus.empty)[j]? = some status)
    (hne : status ≠ .empty) : l[j]? = some status :=
  (status_grow_or hj).resolve_right fun h => hne h.2

theorem status_grow {n : Nat} (hj : l[j]? = some status) :
    (l ++ replicate n PartStatus.empty)[j]? = some status := by
  rw [getElem?_append_left (List.getElem?_eq_some_iff.mp hj).1]
  exact hj

theorem ready_set_other (hi : l[i]? = some old) (hold : old ≠ .ready) (hnew : new ≠ .ready) :
    (l.set i new)[j]? = some .ready ↔ l[j]? = some .ready := by
  constructor
  · intro hj
    rcases getElem?_set_or hi hj with ⟨-, hs⟩ | ⟨-, hj⟩
    · exact absurd hs.symm hnew
    · exact hj
  · exact fun hj => getElem?_set_other hi hj hold

theorem ready_grow {n : Nat} :
    (l ++ replicate n PartStatus.empty)[j]? = some .ready ↔ l[j]? = some .ready :=
  ⟨fun hj => status_of_grow hj (by decide), status_grow⟩

end Status

/-- Parts are appended. -/
def PartsManager.grow (d : PartsManager) (n : Nat) : PartsManager :=
  { d with
    partCount := d.partCount + n
    partStatus := d.partStatus ++ replicate n .empty }

namespace Book

variable {d : PartsManager} {i : Nat}

section

variable (h : Book d)
include h

theorem skip_le (p : PartStatus → Bool) (hi : i ≤ d.partCount) :
    skipWhile p d.partStatus i ≤ d.partCount := by
  rw [← h.length] at hi ⊢
  exact skipWhile_le hi

theorem updateFirstEmptyPart : Book d.updateFirstEmptyPart :=
  { h with
    firstEmpty := by
      intro i hi
      exact skipWhile_le_of (h.firstEmpty i hi) hi (by simp)
    firstEmpty_le := h.skip_le _ h.firstEmpty_le
    streamingEmpty_le := by
      show (if d.streamingOffset = 0 then _ else _) ≤ d.partCount
      split
      · exact h.skip_le _ h.firstEmpty_le
      · exact h.skip_le _ h.streamingEmpty_le }

theorem updateFirstNotReadyPart : Book d.updateFirstNotReadyPart :=
  { h with
    firstNotReady := by
      intro i status hi hne
      exact skipWhile_le_of (h.firstNotReady i status hi hne) hi (by simpa using hne)
    firstNotReady_le := h.skip_le _ h.firstNotReady_le }

theorem grow (n : Nat) : Book (d.grow n) where
  length := by
    show (d.partStatus ++ replicate n PartStatus.empty).length = d.partCount + n
    rw [length_append, length_replicate, h.length]
  pendingCount := by
    show d.pendingCount = ((d.partStatus ++ replicate n PartStatus.empty).countP _ : Nat)
    rw [h.pendingCount, countP_append, countP_replicate]
    simp
  firstEmpty := by
    intro i hi
    rcases status_grow_or hi with hi | ⟨hi, -⟩
    · exact h.firstEmpty i hi
    · rw [h.length] at hi
      exact h.firstEmpty_le.trans hi
  firstEmpty_le := Nat.le_add_right_of_le h.firstEmpty_le
  firstNotReady := by
    intro i status hi hne
    rcases status_grow_or hi with hi | ⟨hi, -⟩
    · exact h.firstNotReady i status hi hne
    · rw [h.length] at hi
      exact h.firstNotReady_le.trans hi
  firstNotReady_le := Nat.le_add_right_of_le h.firstNotReady_le
  streamingEmpty_le := Nat.le_add_right_of_le h.streamingEmpty_le

/-- The state of a part changes, and with it the counter and the cursors. -/
theorem set {old new : PartStatus} (hi : d.partStatus[i]? = some old) {pending : Int}
    {empty streaming : Nat}
    (hpending : pending + (if old = .pending then 1 else 0) =
      d.pendingCount + (if new = .pending then 1 else 0))
    (hle : empty ≤ d.firstEmptyPart) (hempty : new = .empty → empty ≤ i)
    (hready : old = .ready → new = .ready) (hstreaming : streaming ≤ d.partCount) :
    Book { d with
      pendingCount := pending
      partStatus := d.partStatus.set i new
      firstEmptyPart := empty
      firstStreamingEmptyPart := streaming } where
  length := length_set.trans h.length
  pendingCount := by
    have hcount := countP_set_add (y := new) (fun status => status = .pending) hi
    simp only [decide_eq_true_eq] at hcount
    have := h.pendingCount
    show pending = ((d.partStatus.set i new).countP _ : Nat)
    split_ifs at hcount hpending <;> omega
  firstEmpty := by
    intro j hj
    rcases getElem?_set_or hi hj with ⟨rfl, hs⟩ | ⟨-, hj⟩
    · exact hempty hs.symm
    · exact hle.trans (h.firstEmpty j hj)
  firstEmpty_le := hle.trans h.firstEmpty_le
  firstNotReady := by
    intro j status hj hne
    rcases getElem?_set_or hi hj with ⟨rfl, rfl⟩ | ⟨-, hj⟩
    · exact h.firstNotReady j old hi fun hold => hne (hready hold)
    · exact h.firstNotReady j status hj hne
  firstNotReady_le := h.firstNotReady_le
  streamingEmpty_le := hstreaming

theorem onPartStart (hi : d.partStatus[i]? = some .empty) : Book (d.onPartStart i) :=
  h.set hi (by simp) le_rfl nofun nofun h.streamingEmpty_le

/-- A part is ready. What else changes are sizes. -/
theorem setReady (hi : d.partStatus[i]? = some .pending) :
    Book { d with
      pendingCount := d.pendingCount - 1
      partStatus := d.partStatus.set i .ready } :=
  h.set hi (by simp) le_rfl nofun (fun _ => rfl) h.streamingEmpty_le

/-- A part failed. -/
theorem setFailed (hi : d.partStatus[i]? = some .pending) {first : Nat}
    (hfirst : first ≤ d.partCount) :
    Book { d with
      pendingCount := d.pendingCount - 1
      partStatus := d.partStatus.set i .empty
      firstEmptyPart := min i d.firstEmptyPart
      firstStreamingEmptyPart := first } :=
  h.set hi (by simp) (min_le_right _ _) (fun _ => min_le_left _ _) nofun hfirst

theorem finishStreaming (limit : Int) : Book (d.finishStreaming limit).1 :=
  (show Book (d.setStreamingLimit limit) from { h with }).updateFirstNotReadyPart

end

end Book

/-! ## What the operations do -/

namespace PartsManager

variable {d d' : PartsManager} {i : Nat}

theorem grow_zero (d : PartsManager) : d.grow 0 = d := by
  unfold grow
  rw [replicate_zero, append_nil, add_zero]

/-- The part is none, or one that was empty and is wanted. -/
def Started (d d' : PartsManager) (part : Part) : Prop :=
  part = getEmptyPart ∧ d' = d ∨
    ∃ i, d.partStatus[i]? = some .empty ∧ d.isPartInStreamingLimit i ∧ part = d.getPart i ∧
      d' = d.onPartStart i

theorem startPartAt_cases {r : Except Error Part} (h : d.startPartAt i = some (d', r)) :
    ∃ part, r = .ok part ∧ d.Started d' part := by
  unfold startPartAt at h
  split at h
  · cases h
  split at h
  · cases h
    exact ⟨_, rfl, .inl ⟨rfl, rfl⟩⟩
  rename_i hlimit
  split at h
  · cases h
  · rename_i hempty
    cases h
    exact ⟨_, rfl, .inr ⟨i, not_not.mp hempty, not_not.mp hlimit, rfl, rfl⟩⟩

theorem startPartAt_ne_error {error : Error} : d.startPartAt i ≠ some (d', .error error) := by
  intro h
  obtain ⟨_, hr, -⟩ := startPartAt_cases h
  cases hr

/-- A part that is wanted is expected. -/
theorem expected_of_wanted (h : d.isPartInStreamingLimit i = true) :
    i * d.partSize < d.getExpectedSize := by
  unfold isPartInStreamingLimit at h
  dsimp only at h
  split at h
  · cases h
  · omega

theorem startNewPart_ok {part : Part} (h : d.startNewPart i = some (d', .ok part)) :
    (d.grow 1).startPartAt i = some (d', .ok part) := by
  unfold startNewPart at h
  by_cases hmany : maxPartCount + (if d.usePartCountLimit then 0 else 64) < d.partCount + 1
  · rw [if_pos hmany] at h
    split at h <;> cases h
  · rw [if_neg hmany] at h
    exact h

/-- **What `start_part` does**, unless it fails: the cursors move on, a part may be appended if none
is empty, and one that is empty may be started. -/
theorem startPart_cases {part : Part} (h : d.startPart = some (d', .ok part)) :
    ∃ n, (n = 0 ∨ n = 1 ∧ d.updateFirstEmptyPart.firstStreamingEmptyPart = d.partCount) ∧
      (d.updateFirstEmptyPart.grow n).Started d' part := by
  have hat : ∀ n i, (d.updateFirstEmptyPart.grow n).startPartAt i = some (d', .ok part) →
      (d.updateFirstEmptyPart.grow n).Started d' part := by
    intro n i h
    obtain ⟨_, hr, hstarted⟩ := startPartAt_cases h
    cases hr
    exact hstarted
  unfold startPart at h
  dsimp only at h
  split at h
  · cases h
  split at h
  · rename_i hend
    split at h
    · -- the size is not known, so there may be one more part
      exact ⟨1, .inr ⟨rfl, hend⟩, hat 1 _ (startNewPart_ok h)⟩
    refine ⟨0, .inl rfl, ?_⟩
    split at h
    · refine hat 0 d.updateFirstEmptyPart.firstEmptyPart ?_
      rw [grow_zero]
      exact h
    · cases h
      exact .inl ⟨rfl, (grow_zero _).symm⟩
  · refine ⟨0, .inl rfl, hat 0 d.updateFirstEmptyPart.firstStreamingEmptyPart ?_⟩
    rw [grow_zero]
    exact h

/-- The error 1 changes nothing but the cursors. -/
theorem startPart_error {error : Error} (h : d.startPart = some (d', .error error))
    (hcode : error.code = 1) : d' = d.updateFirstEmptyPart := by
  unfold startPart at h
  dsimp only at h
  split at h
  · cases h
    rfl
  split at h
  · split at h
    · unfold startNewPart at h
      by_cases hmany : maxPartCount +
          (if d.updateFirstEmptyPart.usePartCountLimit then 0 else 64) <
          d.updateFirstEmptyPart.partCount + 1
      · rw [if_pos hmany] at h
        split at h <;> cases h <;> cases hcode
      · rw [if_neg hmany] at h
        exact absurd h startPartAt_ne_error
    · split at h
      · exact absurd h startPartAt_ne_error
      · cases h
  · exact absurd h startPartAt_ne_error

/-- What a failed part does. -/
theorem onPartFailed_cases (h : d.onPartFailed i = some d') :
    d.partStatus[i]? = some .pending ∧
      ∃ first, (first = i ∨ first = d.firstStreamingEmptyPart) ∧
        d' = { d with
          pendingCount := d.pendingCount - 1
          partStatus := d.partStatus.set i .empty
          firstEmptyPart := min i d.firstEmptyPart
          firstStreamingEmptyPart := first } := by
  unfold onPartFailed at h
  split at h
  · cases h
  rename_i hpending
  cases h
  refine ⟨not_not.mp hpending, _, ?_, rfl⟩
  split
  · exact .inl rfl
  · split
    · exact .inl rfl
    · exact .inr rfl

variable {size actualSize : Nat}

section

variable (h : d.onPartOk i size actualSize = some (d', .ok ()))
include h

/-- **What a part that came back does** if the size is not known, unless it is an error. The size
is known when the bounds meet. -/
theorem onPartOk_unknown (hunknown : d.unknownSizeFlag = true) :
    d.partStatus[i]? = some .pending ∧ size = d.partSize ∧ ∃ minSize maxSize,
      minSize = (if actualSize ≠ 0 then max d.minSize (d.partSize * i + actualSize)
        else d.minSize) ∧
      maxSize = (if actualSize < d.partSize then min d.maxSize (d.partSize * i + actualSize)
        else d.maxSize) ∧
      minSize ≤ maxSize ∧
      d' = { d.onPartReady i actualSize with
        minSize := minSize
        maxSize := maxSize
        unknownSizeFlag := decide (minSize ≠ maxSize)
        size := if minSize = maxSize then minSize else d.size } := by
  unfold onPartOk at h
  split at h
  · cases h
  rename_i hpending
  dsimp only at h
  rw [if_pos (show (d.onPartReady i actualSize).unknownSizeFlag = true from hunknown)] at h
  split at h
  · cases h
  rename_i hsize
  split at h
  · cases h
  rename_i hbounds
  refine ⟨not_not.mp hpending, not_not.mp hsize, _, _, rfl, rfl, not_lt.mp hbounds, ?_⟩
  have hmin : ((d.onPartReady i actualSize).updateBounds
      ((d.onPartReady i actualSize).partSize * i + actualSize) actualSize).minSize =
      if actualSize ≠ 0 then max d.minSize (d.partSize * i + actualSize) else d.minSize := rfl
  have hmax : ((d.onPartReady i actualSize).updateBounds
      ((d.onPartReady i actualSize).partSize * i + actualSize) actualSize).maxSize =
      if actualSize < d.partSize then min d.maxSize (d.partSize * i + actualSize)
        else d.maxSize := rfl
  split at h
  · rename_i heq
    rw [hmin, hmax] at heq
    cases h
    rw [decide_eq_false (not_not.mpr heq), if_pos heq]
    rfl
  · rename_i hne
    rw [hmin, hmax] at hne
    cases h
    rw [decide_eq_true hne, if_neg hne, ← hunknown]
    rfl

/-- **What a part that came back does** if the size is known, unless it is an error. -/
theorem onPartOk_known (hknown : d.unknownSizeFlag = false) :
    d.partStatus[i]? = some .pending ∧ (d.partSize * i < d.size → size ≤ actualSize) ∧
      (d.size ≤ d.partSize * i → actualSize = 0) ∧ d' = d.onPartReady i actualSize := by
  unfold onPartOk at h
  split at h
  · cases h
  rename_i hpending
  rw [if_neg (show ¬(d.onPartReady i actualSize).unknownSizeFlag = true by
    show ¬d.unknownSizeFlag = true
    rw [hknown]
    decide)] at h
  split at h
  · cases h
  rename_i hok
  cases h
  refine ⟨not_not.mp hpending, ?_, ?_, rfl⟩
  · intro hlt
    by_contra hless
    exact hok (.inl ⟨not_le.mp hless, hlt⟩)
  · intro hle
    by_contra hpos
    exact hok (.inr ⟨hle, pos_of_ne_zero hpos⟩)

/-- In any case the part is ready, and what else changes are sizes. -/
theorem onPartOk_ready :
    d.partStatus[i]? = some .pending ∧ ∃ minSize maxSize unknownSizeFlag size,
      d' = { d.onPartReady i actualSize with minSize, maxSize, unknownSizeFlag, size } ∧
      (d.unknownSizeFlag = false → unknownSizeFlag = false ∧ size = d.size) := by
  cases hflag : d.unknownSizeFlag with
  | true =>
    obtain ⟨hi, -, minSize, maxSize, -, -, -, rfl⟩ := onPartOk_unknown h hflag
    exact ⟨hi, _, _, _, _, rfl, nofun⟩
  | false =>
    obtain ⟨hi, -, -, rfl⟩ := onPartOk_known h hflag
    exact ⟨hi, _, _, _, _, rfl, fun _ => ⟨hflag, rfl⟩⟩

end

/-- What a new streaming offset does. It is 0 if it is ignored. -/
theorem setStreamingOffset_cases {offset limit : Int} {r : Nat}
    (h : d.setStreamingOffset offset limit = some (d', r)) :
    ∃ n off first notReady : Nat, d' = ({ d.grow n with
        streamingOffset := off
        firstStreamingEmptyPart := first
        firstStreamingNotReadyPart := notReady }.finishStreaming limit).1 ∧
      (off = 0 ∧ n = 0 ∧ first = d.firstStreamingEmptyPart ∨
        offset = off ∧ first = off / d.partSize ∧ n = first - d.partCount ∧
          (d.unknownSizeFlag = false → off ≤ d.size)) := by
  have hzero : some ({ d with streamingOffset := 0 }.finishStreaming limit) = some (d', r) →
      d' = ({ d.grow 0 with
        streamingOffset := 0
        firstStreamingNotReadyPart := d.firstStreamingNotReadyPart }.finishStreaming limit).1 := by
    intro h
    rw [grow_zero]
    exact (congrArg Prod.fst (Option.some.inj h)).symm
  unfold setStreamingOffset at h
  split at h
  · split at h
    · cases h
    · exact ⟨0, 0, _, _, hzero h, .inl ⟨rfl, rfl, rfl⟩⟩
  rename_i hused
  dsimp only at h
  split at h
  · exact ⟨0, 0, _, _, hzero h, .inl ⟨rfl, rfl, rfl⟩⟩
  split at h
  · cases h
  have hmax : max d.partCount (offset.toNat / d.partSize) =
      d.partCount + (offset.toNat / d.partSize - d.partCount) := by omega
  rw [hmax] at h
  refine ⟨_, offset.toNat, _, _, (congrArg Prod.fst (Option.some.inj h)).symm,
    .inr ⟨?_, rfl, rfl, ?_⟩⟩
  · by_contra hne
    exact hused (.inl (by omega))
  · intro hknown
    by_contra hgt
    refine hused (.inr (.inr ⟨?_, by omega⟩))
    rw [hknown]
    decide

theorem totalSize_unknown (h : d.unknownSizeFlag = true) : d.totalSize = d.maxSize :=
  if_pos h

theorem totalSize_known (h : d.unknownSizeFlag = false) : d.totalSize = d.size := by
  unfold totalSize
  rw [h]
  rfl

theorem getPart_size (d : PartsManager) (i : Nat) :
    (d.getPart i).size = blockSize d.partSize d.totalSize i := by
  unfold getPart blockSize
  dsimp only
  rw [mul_comm i]
  split <;> omega

end PartsManager

/-! ## Sizes -/

/-- The upper bound of a size that is not known is the end of a part that was short. -/
def Bounded (status : List PartStatus) (partSize maxSize : Nat) : Prop :=
  maxSize = int64Max ∨ ∃ k a : Nat, status[k]? = some .ready ∧ a < partSize ∧
    maxSize = k * partSize + a

theorem Bounded.mono {status status' : List PartStatus} {partSize maxSize : Nat}
    (h : Bounded status partSize maxSize)
    (hready : ∀ k : Nat, status[k]? = some .ready → status'[k]? = some .ready) :
    Bounded status' partSize maxSize :=
  h.imp_right fun ⟨k, a, hk, hmax⟩ => ⟨k, a, hready k hk, hmax⟩

/-- A part before the bound is full, unless it is the one that set the bound. -/
theorem Bounded.full {status : List PartStatus} {partSize maxSize i : Nat}
    (h : Bounded status partSize maxSize) (hle : maxSize ≤ int64Max)
    (hi : status[i]? ≠ some .ready) (hlt : i * partSize < maxSize) :
    blockSize partSize maxSize i = blockSize partSize int64Max i := by
  rcases h with hmax | ⟨k, a, hk, ha, hmax⟩
  · rw [hmax]
  have hik : i < k := by
    have hle : i ≤ k := by
      by_contra hgt
      have := Nat.mul_le_mul_right partSize (Nat.succ_le_of_lt (not_le.mp hgt))
      rw [Nat.succ_mul] at this
      omega
    rcases lt_or_eq_of_le hle with hik | rfl
    · exact hik
    · exact absurd hk hi
  have hkmax : k * partSize ≤ maxSize := by omega
  rw [blockSize_of_lt hik hkmax]
  exact (blockSize_of_lt hik (hkmax.trans hle)).symm

/-- What was reported for a part is its share of the file. The parts that were `restored` were
ready at the beginning. -/
structure Sized (restored : Nat → Prop) (d : PartsManager) (partMap : List (Nat × Nat))
    (reported : Nat → Nat) : Prop where
  partSize_pos : 0 < d.partSize
  /-- A ready part has all of its bytes. -/
  share : ∀ i : Nat, d.partStatus[i]? = some .ready →
    reported i = blockSize d.partSize d.totalSize i
  restored_ready : ∀ i : Nat, restored i → d.partStatus[i]? = some .ready
  nodup : (partMap.map Prod.fst).Nodup
  /-- What was asked for is pending and not empty. -/
  asked : ∀ i size : Nat, (i, size) ∈ partMap → d.partStatus[i]? = some .pending ∧ size ≠ 0
  asked_unknown : d.unknownSizeFlag = true → ∀ i size : Nat, (i, size) ∈ partMap →
    size = blockSize d.partSize int64Max i
  /-- Once the size is known, a part that was asked for in full turns out to be full. -/
  asked_known : d.unknownSizeFlag = false → ∀ i size : Nat, (i, size) ∈ partMap →
    i * d.partSize < d.size → size = blockSize d.partSize d.size i
  bounds : d.unknownSizeFlag = true → d.minSize < d.maxSize ∧ d.maxSize ≤ int64Max
  /-- A part with bytes raises the lower bound. -/
  min : d.unknownSizeFlag = true → ∀ i : Nat, d.partStatus[i]? = some .ready → ¬restored i →
    reported i ≠ 0 → i * d.partSize + reported i ≤ d.minSize
  max : d.unknownSizeFlag = true → Bounded d.partStatus d.partSize d.maxSize

namespace Sized

variable {restored : Nat → Prop} {d : PartsManager} {partMap : List (Nat × Nat)}
  {reported : Nat → Nat} {i : Nat}

section

variable (h : Sized restored d partMap reported)
include h

/-- The same parts are ready, and those that are asked for still wait. -/
theorem other {l : List PartStatus} {count first first' : Nat} {pendingCount : Int}
    {asked : List (Nat × Nat)} (hsub : asked.Sublist partMap)
    (hready : ∀ j : Nat, l[j]? = some .ready ↔ d.partStatus[j]? = some .ready)
    (hasked : ∀ j size, (j, size) ∈ asked → d.partStatus[j]? = some .pending →
      l[j]? = some .pending) :
    Sized restored { d with
        partCount := count
        pendingCount := pendingCount
        partStatus := l
        firstEmptyPart := first
        firstStreamingEmptyPart := first' } asked reported where
  partSize_pos := h.partSize_pos
  share j hj := h.share j ((hready j).mp hj)
  restored_ready j hj := (hready j).mpr (h.restored_ready j hj)
  nodup := h.nodup.sublist (hsub.map _)
  asked j size hmem := by
    obtain ⟨hj, hsize⟩ := h.asked j size (hsub.subset hmem)
    exact ⟨hasked j size hmem hj, hsize⟩
  asked_unknown hunknown j size hmem := h.asked_unknown hunknown j size (hsub.subset hmem)
  asked_known hknown j size hmem := h.asked_known hknown j size (hsub.subset hmem)
  bounds := h.bounds
  min hunknown j hj := h.min hunknown j ((hready j).mp hj)
  max hunknown := (h.max hunknown).mono fun k => (hready k).mpr

/-- A part begins to wait. -/
theorem onPartStart (hi : d.partStatus[i]? = some .empty) :
    Sized restored (d.onPartStart i) partMap reported := by
  refine h.other (Sublist.refl _) (fun j => ready_set_other hi (by decide) (by decide)) ?_
  exact fun j size _ hj => getElem?_set_other hi hj (by decide)

/-- A part that waits is asked for. -/
theorem ask (hi : d.partStatus[i]? = some .pending) (hnew : ∀ size, (i, size) ∉ partMap)
    (hsize : blockSize d.partSize d.totalSize i ≠ 0) :
    Sized restored d (partMap ++ [(i, blockSize d.partSize d.totalSize i)]) reported := by
  have hnew' : ∀ {P : Nat → Nat → Prop}, (∀ j size, (j, size) ∈ partMap → P j size) →
      P i (blockSize d.partSize d.totalSize i) → ∀ j size,
      (j, size) ∈ partMap ++ [(i, blockSize d.partSize d.totalSize i)] → P j size := by
    intro P hP hPi j size hmem
    rcases mem_append.mp hmem with hmem | hmem
    · exact hP j size hmem
    · rw [mem_singleton] at hmem
      obtain ⟨rfl, rfl⟩ := hmem
      exact hPi
  refine { h with
    nodup := ?_
    asked := hnew' h.asked ⟨hi, hsize⟩
    asked_unknown := fun hunknown => hnew' (h.asked_unknown hunknown) ?_
    asked_known := fun hknown => hnew' (h.asked_known hknown) fun _ => by
      rw [totalSize_known hknown] }
  · rw [map_append, nodup_append']
    refine ⟨h.nodup, nodup_singleton _, ?_⟩
    intro j hj hj'
    obtain ⟨⟨j', size⟩, hmem, rfl⟩ := mem_map.mp hj
    rw [map_singleton, mem_singleton] at hj'
    subst hj'
    exact hnew size hmem
  · rw [totalSize_unknown hunknown] at hsize ⊢
    refine (h.max hunknown).full (h.bounds hunknown).2 ?_
      ((blockSize_pos h.partSize_pos).mp (pos_of_ne_zero hsize))
    rw [hi]
    decide

end

variable {size actualSize : Nat}

/-- The parts that are asked for, without one. -/
theorem mem_without {j : Nat} :
    (j, size) ∈ (partMap.filter fun part => part.1 ≠ i) ↔ (j, size) ∈ partMap ∧ j ≠ i := by
  rw [mem_filter, decide_eq_true_eq]

section

variable (h : Sized restored d partMap reported)
include h

theorem nodup_without : ((partMap.filter fun part => part.1 ≠ i).map Prod.fst).Nodup :=
  h.nodup.sublist (filter_sublist.map _)

/-- The other parts stay what they are when one becomes ready. -/
theorem stays (hi : d.partStatus[i]? = some .pending) :
    (∀ j, restored j → (d.partStatus.set i .ready)[j]? = some .ready) ∧
      ∀ j size, (j, size) ∈ (partMap.filter fun part => part.1 ≠ i) →
        (d.partStatus.set i .ready)[j]? = some .pending ∧ size ≠ 0 := by
  constructor
  · exact fun j hj => getElem?_set_other hi (h.restored_ready j hj) (by decide)
  · intro j size hmem
    obtain ⟨hmem, hne⟩ := mem_without.mp hmem
    rw [getElem?_set_ne (Ne.symm hne)]
    exact h.asked j size hmem

/-- **A part comes back and the size is not known.** A part that is short is the last one: no part
that is ready is behind it, neither one that came with bytes, for that would be an error, nor one
that was restored. -/
theorem ok_unknown {d' : PartsManager} (hunknown : d.unknownSizeFlag = true)
    (hasked : (i, size) ∈ partMap) (hle : actualSize ≤ size)
    (hok : d.onPartOk i size actualSize = some (d', .ok ()))
    (hrestored : actualSize < d.partSize → ∀ j, restored j → j < i) :
    Sized restored d' (partMap.filter fun part => part.1 ≠ i)
      (update reported i actualSize) := by
  obtain ⟨hi, rfl, minSize, maxSize, hmin, hmax, hbounds, rfl⟩ :=
    onPartOk_unknown hok hunknown
  have hpos := h.partSize_pos
  have hold := h.bounds hunknown
  rw [mul_comm] at hmin hmax
  -- the part itself has as many bytes as the new upper bound leaves it
  have hself : blockSize d.partSize maxSize i = actualSize := by
    unfold blockSize
    split at hmin <;> split at hmax <;> omega
  -- and the others have as many as before
  have hother : ∀ j, j ≠ i → d.partStatus[j]? = some .ready →
      blockSize d.partSize maxSize j = reported j := by
    intro j hj hready
    have hshare := h.share j hready
    rw [totalSize_unknown hunknown] at hshare
    rcases lt_or_gt_of_ne hj with hlt | hgt
    · have hmul := Nat.mul_le_mul_right d.partSize (Nat.succ_le_of_lt hlt)
      rw [Nat.succ_mul] at hmul
      rw [hshare]
      unfold blockSize
      split at hmin <;> split at hmax <;> omega
    have hmul := Nat.mul_le_mul_right d.partSize (Nat.succ_le_of_lt hgt)
    rw [Nat.succ_mul] at hmul
    by_cases hshort : actualSize < d.partSize
    · have hnot : ¬restored j := by
        intro hrest
        have := hrestored hshort j hrest
        omega
      have hzero : reported j = 0 := by
        by_contra hne
        have := h.min hunknown j hready hnot hne
        rw [if_pos hshort] at hmax
        split at hmin <;> omega
      rw [hzero]
      rw [if_pos hshort] at hmax
      exact blockSize_eq_zero (by omega)
    · rw [if_neg hshort] at hmax
      rw [hshare, hmax]
  have htotal : ∀ m : PartsManager, m.unknownSizeFlag = decide (minSize ≠ maxSize) →
      m.maxSize = maxSize → (m.size = if minSize = maxSize then minSize else d.size) →
      m.totalSize = maxSize := by
    intro m hflag hmmax hmsize
    by_cases heq : minSize = maxSize
    · rw [decide_eq_false (not_not.mpr heq)] at hflag
      rw [totalSize_known hflag, hmsize, if_pos heq, heq]
    · rw [decide_eq_true heq] at hflag
      rw [totalSize_unknown hflag, hmmax]
  have hready : ∀ j : Nat, (d.partStatus.set i .ready)[j]? = some .ready →
      j = i ∨ j ≠ i ∧ d.partStatus[j]? = some .ready := by
    intro j hj
    exact (getElem?_set_or hi hj).imp And.left id
  have hmaxle : maxSize ≤ int64Max := by
    split at hmax <;> omega
  have hbounded : Bounded (d.partStatus.set i .ready) d.partSize maxSize := by
    have hkeep : Bounded (d.partStatus.set i .ready) d.partSize d.maxSize :=
      (h.max hunknown).mono fun k hk => getElem?_set_other hi hk (by decide)
    by_cases hshort : actualSize < d.partSize
    · rw [if_pos hshort] at hmax
      rcases le_total d.maxSize (i * d.partSize + actualSize) with hle | hle
      · rw [hmax, min_eq_left hle]
        exact hkeep
      · rw [hmax, min_eq_right hle]
        exact .inr ⟨i, actualSize, status_set_self hi, hshort, rfl⟩
    · rw [if_neg hshort] at hmax
      rw [hmax]
      exact hkeep
  constructor
  · exact hpos
  · intro j hj
    rw [htotal _ rfl rfl rfl]
    rcases hready j hj with rfl | ⟨hne, hj⟩
    · rw [update_self]
      exact hself.symm
    · rw [update_of_ne hne]
      exact (hother j hne hj).symm
  · exact (h.stays hi).1
  · exact h.nodup_without
  · exact (h.stays hi).2
  · intro _ j size hmem
    exact h.asked_unknown hunknown j size (mem_without.mp hmem).1
  · -- the size has become known
    intro hflag j size hmem hlt
    have heq : minSize = maxSize := not_not.mp (of_decide_eq_false hflag)
    have hsize : (if minSize = maxSize then minSize else d.size) = maxSize := by
      rw [if_pos heq, heq]
    rw [hsize] at hlt ⊢
    rw [h.asked_unknown hunknown j size (mem_without.mp hmem).1]
    refine (hbounded.full hmaxle ?_ hlt).symm
    rw [((h.stays hi).2 j size hmem).1]
    decide
  · intro hflag
    have hne : minSize ≠ maxSize := of_decide_eq_true hflag
    exact ⟨lt_of_le_of_ne hbounds hne, hmaxle⟩
  · intro _ j hj hrest hne
    rcases hready j hj with rfl | ⟨hji, hj⟩
    · rw [update_self] at hne ⊢
      rw [if_pos hne] at hmin
      rw [hmin]
      exact le_max_right _ _
    · rw [update_of_ne hji] at hne ⊢
      have := h.min hunknown j hj hrest hne
      show j * d.partSize + reported j ≤ minSize
      split at hmin <;> omega
  · intro _
    exact hbounded

/-- A part comes back and the size is known, so it has all its bytes. -/
theorem ok_known {d' : PartsManager} (hknown : d.unknownSizeFlag = false)
    (hasked : (i, size) ∈ partMap) (hle : actualSize ≤ size)
    (hok : d.onPartOk i size actualSize = some (d', .ok ())) :
    Sized restored d' (partMap.filter fun part => part.1 ≠ i)
      (update reported i actualSize) := by
  obtain ⟨hi, hfull, hnone, rfl⟩ := onPartOk_known hok hknown
  rw [mul_comm] at hfull hnone
  have hflag : ∀ P : Prop, d.unknownSizeFlag = true → P := by
    intro P hunknown
    rw [hknown] at hunknown
    cases hunknown
  constructor
  · exact h.partSize_pos
  · intro j hj
    have htotal := totalSize_known hknown
    show update reported i actualSize j = blockSize d.partSize d.totalSize j
    rcases getElem?_set_or hi hj with ⟨rfl, -⟩ | ⟨hne, hj⟩
    · rw [update_self, htotal]
      rcases lt_or_ge (j * d.partSize) d.size with hlt | hge
      · rw [← h.asked_known hknown j size hasked hlt]
        exact le_antisymm hle (hfull hlt)
      · rw [hnone hge, blockSize_eq_zero hge]
    · rw [update_of_ne hne]
      exact h.share j hj
  · exact (h.stays hi).1
  · exact h.nodup_without
  · exact (h.stays hi).2
  · exact hflag _
  · intro _ j size hmem
    exact h.asked_known hknown j size (mem_without.mp hmem).1
  · exact hflag _
  · exact hflag _
  · exact hflag _

/-- A part failed, and can be asked for again. -/
theorem failed {first first' : Nat} {pendingCount : Int} (hi : d.partStatus[i]? = some .pending) :
    Sized restored { d with
        pendingCount := pendingCount
        partStatus := d.partStatus.set i .empty
        firstEmptyPart := first
        firstStreamingEmptyPart := first' }
      (partMap.filter fun part => part.1 ≠ i) reported := by
  refine h.other filter_sublist (fun j => ready_set_other hi (by decide) (by decide)) ?_
  intro j size hmem hj
  rw [getElem?_set_ne (Ne.symm (mem_without.mp hmem).2)]
  exact hj

/-- Parts are appended. -/
theorem grow (n : Nat) : Sized restored (d.grow n) partMap reported :=
  h.other (Sublist.refl _) (fun _ => ready_grow) fun _ _ _ => status_grow

end

end Sized

/-! ## The sum -/

/-- The parts that are ready. -/
def readyParts (status : List PartStatus) : Finset Nat :=
  (Finset.range status.length).filter fun i => status[i]? = some .ready

section ReadyParts

variable {l : List PartStatus} {i : Nat} {old new : PartStatus}

theorem mem_readyParts : i ∈ readyParts l ↔ l[i]? = some .ready := by
  unfold readyParts
  rw [Finset.mem_filter, Finset.mem_range]
  constructor
  · exact And.right
  · intro hi
    exact ⟨(List.getElem?_eq_some_iff.mp hi).1, hi⟩

theorem readyParts_set_ready (hi : l[i]? = some old) :
    readyParts (l.set i .ready) = insert i (readyParts l) := by
  ext j
  rw [Finset.mem_insert, mem_readyParts, mem_readyParts]
  constructor
  · intro hj
    rcases getElem?_set_or hi hj with ⟨rfl, -⟩ | ⟨-, hj⟩
    · exact .inl rfl
    · exact .inr hj
  intro hj
  by_cases hji : j = i
  · rw [hji]
    exact status_set_self hi
  · rw [getElem?_set_ne (Ne.symm hji)]
    exact hj.resolve_left hji

theorem readyParts_set_other (hi : l[i]? = some old) (hold : old ≠ .ready) (hnew : new ≠ .ready) :
    readyParts (l.set i new) = readyParts l := by
  ext j
  rw [mem_readyParts, mem_readyParts, ready_set_other hi hold hnew]

theorem readyParts_grow {n : Nat} :
    readyParts (l ++ replicate n PartStatus.empty) = readyParts l := by
  ext j
  rw [mem_readyParts, mem_readyParts, ready_grow]

/-- A part that becomes ready adds what was reported for it. -/
theorem sum_set_ready (hi : l[i]? = some old) (hold : old ≠ .ready) (reported : Nat → Nat)
    (actualSize : Nat) :
    ∑ j ∈ readyParts (l.set i .ready), update reported i actualSize j =
      ∑ j ∈ readyParts l, reported j + actualSize := by
  have hnot : i ∉ readyParts l := by
    rw [mem_readyParts, hi]
    intro heq
    exact hold (Option.some.inj heq)
  rw [readyParts_set_ready hi, Finset.sum_insert hnot, update_self, add_comm]
  refine congrArg (· + actualSize) (Finset.sum_congr rfl ?_)
  intro j hj
  rw [update_of_ne]
  rintro rfl
  exact hnot hj

theorem Book.readyParts_subset {d : PartsManager} (h : Book d) :
    readyParts d.partStatus ⊆ Finset.range d.partCount := by
  intro i hi
  rw [Finset.mem_range, ← h.length]
  exact (List.getElem?_eq_some_iff.mp (mem_readyParts.mp hi)).1

end ReadyParts

theorem Transfer.step_setNeedCheck {t t' : Transfer} (h : t.step .setNeedCheck = some t') :
    ∃ d r, { t.parts with needCheck := true }.setStreamingOffset 0 0 = some (d, r) ∧
      { t with parts := d } = t' := by
  obtain ⟨d, hcheck, ht⟩ : ∃ d, t.parts.setNeedCheck = some d ∧ { t with parts := d } = t' :=
    Option.map_eq_some_iff.mp h
  obtain ⟨⟨d, r⟩, hset, rfl⟩ := Option.map_eq_some_iff.mp hcheck
  exact ⟨d, r, hset, ht⟩

/-- What holds of a transfer. -/
structure Kept (restored : Nat → Prop) (t : Transfer) : Prop where
  book : Book t.parts
  sized : Sized restored t.parts t.partMap t.reported
  counted : t.parts.readySize = ∑ i ∈ readyParts t.parts.partStatus, t.reported i

namespace Kept

variable {restored : Nat → Prop} {t t' : Transfer} {d : PartsManager}

/-- Only cursors and the streaming change. -/
theorem cursors (h : Kept restored t) (hbook : Book d)
    (hsized : Sized restored d t.partMap t.reported) (hready : d.readySize = t.parts.readySize)
    (hstatus : readyParts d.partStatus = readyParts t.parts.partStatus) :
    Kept restored { t with parts := d } where
  book := hbook
  sized := hsized
  counted := by
    rw [hready, hstatus]
    exact h.counted

theorem askedSize_eq (h : Kept restored t) {i size : Nat} (hmem : (i, size) ∈ t.partMap) :
    t.askedSize i = size := by
  unfold Transfer.askedSize
  have hfind : t.partMap.find? (fun part => part.1 = i) = some (i, size) := by
    have hnodup := h.sized.nodup
    generalize t.partMap = partMap at hmem hnodup
    induction partMap with
    | nil => cases hmem
    | cons part partMap ih =>
      rw [map_cons, nodup_cons] at hnodup
      rcases mem_cons.mp hmem with rfl | hmem
      · exact find?_cons_of_pos (decide_eq_true rfl)
      rw [find?_cons_of_neg]
      · exact ih hmem hnodup.2
      · intro heq
        rw [decide_eq_true_eq] at heq
        exact hnodup.1 (heq ▸ mem_map_of_mem hmem)
  rw [hfind]
  rfl

theorem onStarted_getPart (t : Transfer) (d m : PartsManager) (i : Nat) :
    t.onStarted d (.ok (m.getPart i)) =
      if (m.getPart i).size = 0 then { t with parts := d }
      else { t with parts := d, partMap := t.partMap ++ [(i, (m.getPart i).size)] } := rfl

section

variable (h : Kept restored t)
include h

theorem startPart {part : Part} (hstart : t.parts.startPart = some (d, .ok part)) :
    Kept restored (t.onStarted d (.ok part)) := by
  have hbook := h.book.updateFirstEmptyPart
  have hsized : Sized restored t.parts.updateFirstEmptyPart t.partMap t.reported :=
    { h.sized with }
  obtain ⟨n, -, ⟨rfl, rfl⟩ | ⟨i, hempty, -, rfl, rfl⟩⟩ := startPart_cases hstart
  · exact h.cursors (hbook.grow n) (hsized.grow n) rfl readyParts_grow
  have hstatus : readyParts
      ((t.parts.updateFirstEmptyPart.grow n).onPartStart i).partStatus =
      readyParts t.parts.partStatus :=
    (readyParts_set_other hempty (by decide) (by decide)).trans readyParts_grow
  have hkept := h.cursors ((hbook.grow n).onPartStart hempty)
    ((hsized.grow n).onPartStart hempty) rfl hstatus
  rw [onStarted_getPart, getPart_size]
  split
  · exact hkept
  rename_i hsize
  refine ⟨hkept.book, hkept.sized.ask ?_ ?_ hsize, hkept.counted⟩
  · exact status_set_self hempty
  · intro size hmem
    have := ((hsized.grow n).asked i size hmem).1
    rw [hempty] at this
    cases this

theorem partOk {i size actualSize : Nat} (hasked : (i, size) ∈ t.partMap) (hle : actualSize ≤ size)
    (hlast : t.parts.unknownSizeFlag = true → actualSize < t.parts.partSize →
      ∀ j, restored j → j < i)
    (hok : t.parts.onPartOk i size actualSize = some (d, .ok ())) :
    Kept restored (t.onOk d i actualSize (.ok ())) := by
  have hsized : Sized restored d (t.partMap.filter fun part => part.1 ≠ i)
      (update t.reported i actualSize) := by
    cases hflag : t.parts.unknownSizeFlag with
    | true => exact h.sized.ok_unknown hflag hasked hle hok (hlast hflag)
    | false => exact h.sized.ok_known hflag hasked hle hok
  obtain ⟨hi, minSize, maxSize, flag, size', rfl, -⟩ := onPartOk_ready hok
  refine ⟨{ h.book.setReady hi with }, hsized, ?_⟩
  show t.parts.readySize + actualSize = _
  rw [h.counted]
  exact (sum_set_ready hi (by decide) _ _).symm

theorem partFailed {i : Nat} (hfailed : t.parts.onPartFailed i = some d) :
    Kept restored { t with parts := d, partMap := t.partMap.filter fun part => part.1 ≠ i } := by
  obtain ⟨hi, first, hfirst, rfl⟩ := onPartFailed_cases hfailed
  refine ⟨h.book.setFailed hi ?_, h.sized.failed hi, ?_⟩
  · rcases hfirst with rfl | rfl
    · rw [← h.book.length]
      exact (List.getElem?_eq_some_iff.mp hi).1.le
    · exact h.book.streamingEmpty_le
  · rw [readyParts_set_other hi (by decide) (by decide)]
    exact h.counted

theorem setStreamingOffset {offset limit : Int} {r : Nat}
    (hset : t.parts.setStreamingOffset offset limit = some (d, r)) :
    Kept restored { t with parts := d } := by
  obtain ⟨n, off, first, notReady, rfl, hcases⟩ := setStreamingOffset_cases hset
  have hfirst : first ≤ t.parts.partCount + n := by
    rcases hcases with ⟨-, rfl, rfl⟩ | ⟨-, -, rfl, -⟩
    · exact h.book.streamingEmpty_le
    · omega
  have hbook : Book { t.parts.grow n with
      streamingOffset := off
      firstStreamingEmptyPart := first
      firstStreamingNotReadyPart := notReady } :=
    { h.book.grow n with streamingEmpty_le := hfirst }
  exact h.cursors (hbook.finishStreaming limit) { h.sized.grow n with } rfl readyParts_grow

/-- **Every step keeps what holds**, unless it stops the transfer. If the size is not known, a part
that is short must be behind those that were restored. -/
theorem step {event : Event} (hallowed : t.Allowed event)
    (hlast : t.parts.unknownSizeFlag = true → ∀ i actualSize, event = .partOk i actualSize →
      actualSize < t.parts.partSize → ∀ j, restored j → j < i)
    (hstep : t.step event = some t') (hstop : t'.stopFlag = false) : Kept restored t' := by
  cases event with
  | startPart =>
    obtain ⟨⟨d, r⟩, hstart, rfl⟩ := Option.map_eq_some_iff.mp hstep
    cases r with
    | ok part => exact h.startPart hstart
    | error error =>
      have hcode : error.code = 1 := not_not.mp (of_decide_eq_false hstop)
      have hd := startPart_error hstart hcode
      subst hd
      have hkept := h.cursors h.book.updateFirstEmptyPart { h.sized with } rfl rfl
      exact { hkept with }
  | partOk i actualSize =>
    obtain ⟨-, size, hasked, hle⟩ := hallowed
    obtain ⟨⟨d, r⟩, hok, rfl⟩ := Option.map_eq_some_iff.mp hstep
    rw [h.askedSize_eq hasked] at hok
    cases r with
    | ok =>
      exact h.partOk hasked hle (fun hunknown => hlast hunknown i actualSize rfl) hok
    | error error => cases hstop
  | partFailed i =>
    obtain ⟨d, hfailed, rfl⟩ := Option.map_eq_some_iff.mp hstep
    exact h.partFailed hfailed
  | setStreamingOffset offset limit =>
    obtain ⟨⟨d, r⟩, hset, rfl⟩ := Option.map_eq_some_iff.mp hstep
    exact h.setStreamingOffset hset
  | setStreamingLimit limit | setCheckedPrefixSize size =>
    cases hstep
    exact h.cursors { h.book with } { h.sized with } rfl rfl
  | setNeedCheck =>
    obtain ⟨d, r, hset, rfl⟩ := Transfer.step_setNeedCheck hstep
    have hkept : Kept restored { t with parts := { t.parts with needCheck := true } } :=
      h.cursors { h.book with } { h.sized with } rfl rfl
    exact hkept.setStreamingOffset hset

end

end Kept

end Tdlib.Files
