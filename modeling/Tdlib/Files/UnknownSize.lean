import Tdlib.Files.Complete

/-!
# Files of unknown size

The server knows the size of a file and answers every part with its share, but the client has to
find the size out. The part with the number `n / partSize` is the first that is short. When it has
come back the upper bound is `n`. The lower bound is `n` when the last part that has bytes has come
back.

These are two different parts if `partSize` divides `n`, and then the last part that has bytes may
be one that was restored. A restored part does not raise the lower bound, so the size is never
known, although all of the file is there.
-/

namespace Tdlib.Files

open List Tdlib.Lib PartsManager

/-- What happens when a file of `n` bytes is downloaded without streaming. -/
def Honest (n : Nat) (t : Transfer) : Event → Prop
  | .startPart => True
  | .partOk id actualSize => actualSize = blockSize t.parts.partSize n id
  | .partFailed _ => True
  | _ => False

/-- No part with bytes is under way, and none is offered. -/
def Idle (t : Transfer) : Prop :=
  t.partMap = [] ∧ ∀ (d : PartsManager) (part : Part), t.parts.startPart = some (d, .ok part) →
    part.size = 0

/-- A part can be started, or it is known that there is none. -/
def CanStart (t : Transfer) : Prop :=
  ∀ (d : PartsManager) (error : Error), t.parts.startPart ≠ some (d, .error error)

/-- What holds of a download of `n` bytes. -/
structure Download (n : Nat) (restored : Nat → Prop) (t : Transfer) : Prop where
  kept : Kept restored t
  fits : n + t.parts.partSize ≤ int64Max
  /-- What was restored is in the file. -/
  inside : ∀ i, restored i → (i + 1) * t.parts.partSize ≤ n
  streamingOffset : t.parts.streamingOffset = 0
  streamingLimit : t.parts.streamingLimit = 0
  knownPrefixFlag : t.parts.knownPrefixFlag = false
  needCheck : t.parts.needCheck = false
  answered : ∀ i : Nat, t.parts.partStatus[i]? = some .ready →
    t.reported i = blockSize t.parts.partSize n i
  /-- The bounds enclose the size. -/
  unknown : t.parts.unknownSizeFlag = true → t.parts.minSize ≤ n ∧ n ≤ t.parts.maxSize
  /-- The size becomes known when the part with the end is there. -/
  known : t.parts.unknownSizeFlag = false →
    t.parts.size = n ∧ t.parts.partStatus[n / t.parts.partSize]? = some .ready
  /-- A part that waits although nothing was asked is behind the end. -/
  behind : ∀ i : Nat, t.parts.partStatus[i]? = some .pending →
    (∃ size, (i, size) ∈ t.partMap) ∨ n / t.parts.partSize < i

section Arithmetic

variable {b n i k a : Nat}

/-- A block before the one in which the file ends is full. -/
theorem blockSize_of_lt_div (h : i < n / b) : blockSize b n i = b :=
  blockSize_of_lt h (Nat.div_mul_le_self n b)

/-- The block in which the file ends is short. -/
theorem div_le_of_short (h : blockSize b n i < b) : n / b ≤ i := by
  by_contra hlt
  rw [blockSize_of_lt_div (not_le.mp hlt)] at h
  exact lt_irrefl _ h

theorem eq_div_of_end (ha : a < b) (h : k * b + a = n) : k = n / b := by
  rw [← h, mul_comm, Nat.mul_add_div (Nat.zero_lt_of_lt ha), Nat.div_eq_of_lt ha, add_zero]

theorem div_le_of_le (hb : 0 < b) (h : n ≤ i * b) : n / b ≤ i :=
  (Nat.div_le_div_right h).trans_eq (Nat.mul_div_cancel i hb)

end Arithmetic

namespace Download

variable {n : Nat} {restored : Nat → Prop} {t t' : Transfer} {i : Nat}

theorem not_ready_of_grown {m : Nat}
    (hempty : (t.parts.updateFirstEmptyPart.grow m).partStatus[i]? = some .empty) :
    t.parts.partStatus[i]? ≠ some .ready := by
  intro hready
  have hgrown : (t.parts.updateFirstEmptyPart.grow m).partStatus[i]? = some .ready :=
    status_grow hready
  rw [hempty] at hgrown
  cases hgrown

/-- What the server sends raises the lower bound at most to the size of the file, and lowers the
upper bound at most to it. -/
theorem bounds_ok {b minSize maxSize : Nat} (hmin : minSize ≤ n) (hmax : n ≤ maxSize) :
    (if blockSize b n i ≠ 0 then max minSize (b * i + blockSize b n i) else minSize) ≤ n ∧
      n ≤ if blockSize b n i < b then min maxSize (b * i + blockSize b n i) else maxSize := by
  rw [mul_comm]
  unfold blockSize
  constructor
  · split <;> omega
  · split <;> omega

section

variable (h : Download n restored t)
include h

theorem size_pos : 0 < t.parts.partSize :=
  h.kept.sized.partSize_pos

/-- An upper bound that is the size was set by the part in which the file ends. -/
theorem last_ready (hunknown : t.parts.unknownSizeFlag = true) (hmax : t.parts.maxSize = n) :
    t.parts.partStatus[n / t.parts.partSize]? = some .ready := by
  have hpos := h.size_pos
  have hfits := h.fits
  rcases h.kept.sized.max hunknown with heq | ⟨k, a, hk, ha, heq⟩
  · omega
  · rw [← eq_div_of_end ha (heq.symm.trans hmax)]
    exact hk

/-- A part that is empty and has no bytes is behind the end. -/
theorem behind_of_empty (hi : t.parts.partStatus[i]? ≠ some .ready)
    (hzero : blockSize t.parts.partSize t.parts.totalSize i = 0) : n / t.parts.partSize < i := by
  have hpos := h.size_pos
  have hfits := h.fits
  have hle : t.parts.totalSize ≤ i * t.parts.partSize := by
    by_contra hlt
    have := (blockSize_pos hpos).mpr (not_le.mp hlt)
    omega
  cases hflag : t.parts.unknownSizeFlag with
  | true =>
    rw [totalSize_unknown hflag] at hle
    have hn := (h.unknown hflag).2
    refine lt_of_le_of_ne (div_le_of_le hpos (hn.trans hle)) ?_
    intro heq
    -- otherwise the upper bound is the size, and the part is the one that set it
    have hmul := Nat.div_mul_le_self n t.parts.partSize
    rw [heq] at hmul
    have hmax : t.parts.maxSize = n := by omega
    have := h.last_ready hflag hmax
    rw [heq] at this
    exact hi this
  | false =>
    obtain ⟨hsize, hready⟩ := h.known hflag
    rw [totalSize_known hflag, hsize] at hle
    refine lt_of_le_of_ne (div_le_of_le hpos hle) ?_
    intro heq
    rw [heq] at hready
    exact hi hready

/-- A part that is short is behind those that were restored. -/
theorem last_of_short (hshort : blockSize t.parts.partSize n i < t.parts.partSize) {j : Nat}
    (hj : restored j) : j < i := by
  have hle := div_le_of_short hshort
  have hlt : j + 1 ≤ n / t.parts.partSize := (Nat.le_div_iff_mul_le h.size_pos).mpr (h.inside j hj)
  omega

/-- The same parts are ready, and one that waits was asked for or is behind the end. -/
theorem other {l : List PartStatus} {count empty streaming : Nat} {pending : Int}
    {partMap : List (Nat × Nat)}
    (ht' : { t with
      parts := { t.parts with
        partCount := count
        pendingCount := pending
        partStatus := l
        firstEmptyPart := empty
        firstStreamingEmptyPart := streaming }
      partMap := partMap } = t')
    (hkept : Kept restored t')
    (hready : ∀ j : Nat, l[j]? = some .ready ↔ t.parts.partStatus[j]? = some .ready)
    (hbehind : ∀ j : Nat, l[j]? = some .pending →
      (∃ size, (j, size) ∈ partMap) ∨ n / t.parts.partSize < j) :
    Download n restored t' := by
  subst ht'
  exact { h with
    kept := hkept
    answered := fun j hj => h.answered j ((hready j).mp hj)
    known := fun hknown => ⟨(h.known hknown).1, (hready _).mpr (h.known hknown).2⟩
    behind := hbehind }

/-- A part waits no longer. -/
theorem behind_set {s u : PartStatus} (hi : t.parts.partStatus[i]? = some s) (hu : u ≠ .pending)
    (j : Nat) (hj : (t.parts.partStatus.set i u)[j]? = some .pending) :
    (∃ size, (j, size) ∈ t.partMap.filter fun part => part.1 ≠ i) ∨ n / t.parts.partSize < j := by
  rcases getElem?_set_or hi hj with ⟨-, hs⟩ | ⟨hne, hj⟩
  · exact absurd hs.symm hu
  · refine (h.behind j hj).imp ?_ id
    rintro ⟨size, hmem⟩
    exact ⟨size, Sized.mem_without.mpr ⟨hmem, hne⟩⟩

/-- A part begins to wait. It was asked for, or it is behind the end. -/
theorem started {m : Nat} {partMap : List (Nat × Nat)}
    (hempty : (t.parts.updateFirstEmptyPart.grow m).partStatus[i]? = some .empty)
    (ht' : { t with
      parts := (t.parts.updateFirstEmptyPart.grow m).onPartStart i
      partMap := partMap } = t')
    (hkept : Kept restored t') (hmap : ∀ part ∈ t.partMap, part ∈ partMap)
    (hi : (∃ size, (i, size) ∈ partMap) ∨ n / t.parts.partSize < i) : Download n restored t' := by
  refine h.other ht' hkept
    (fun _ => (ready_set_other hempty (by decide) (by decide)).trans ready_grow) fun j hj => ?_
  rcases getElem?_set_or hempty hj with ⟨rfl, -⟩ | ⟨-, hj⟩
  · exact hi
  refine (h.behind j (status_of_grow hj (by decide))).imp ?_ id
  rintro ⟨size, hmem⟩
  exact ⟨size, hmap _ hmem⟩

variable {d : PartsManager}

theorem startPart {part : Part}
    (hstart : t.parts.startPart = some (d, .ok part)) :
    Download n restored (t.onStarted d (.ok part)) := by
  have hkept := h.kept.startPart hstart
  obtain ⟨m, -, ⟨rfl, rfl⟩ | ⟨i, hempty, -, rfl, rfl⟩⟩ := startPart_cases hstart
  · refine h.other rfl hkept (fun _ => ready_grow) fun i hi => ?_
    exact h.behind i (status_of_grow hi (by decide))
  rw [Kept.onStarted_getPart] at hkept ⊢
  split at hkept
  · rename_i hzero
    rw [if_pos hzero]
    rw [getPart_size] at hzero
    exact h.started hempty rfl hkept (fun _ hmem => hmem)
      (.inr (h.behind_of_empty (not_ready_of_grown hempty) hzero))
  · rename_i hsize
    rw [if_neg hsize]
    refine h.started hempty rfl hkept (fun _ hmem => mem_append_left _ hmem) (.inl ?_)
    exact ⟨_, mem_append_right _ (mem_singleton_self _)⟩

theorem partOk {size : Nat} (hasked : (i, size) ∈ t.partMap)
    (hle : blockSize t.parts.partSize n i ≤ size)
    (hok : t.parts.onPartOk i size (blockSize t.parts.partSize n i) = some (d, .ok ())) :
    Download n restored (t.onOk d i (blockSize t.parts.partSize n i) (.ok ())) := by
  have hkept := h.kept.partOk hasked hle
    (fun _ hshort j hj => h.last_of_short hshort hj) hok
  have hi := (h.kept.sized.asked i size hasked).1
  have hanswered : ∀ j : Nat, (t.parts.partStatus.set i .ready)[j]? = some .ready →
      Function.update t.reported i (blockSize t.parts.partSize n i) j =
        blockSize t.parts.partSize n j := by
    intro j hj
    rcases getElem?_set_or hi hj with ⟨rfl, -⟩ | ⟨hne, hj⟩
    · exact Function.update_self _ _ _
    · rw [Function.update_of_ne hne]
      exact h.answered j hj
  have hstay : ∀ j : Nat, t.parts.partStatus[j]? = some .ready →
      (t.parts.partStatus.set i .ready)[j]? = some .ready := by
    intro j hj
    by_cases hji : j = i
    · rw [hji]
      exact status_set_self hi
    · rw [getElem?_set_ne (Ne.symm hji)]
      exact hj
  have hbehind := h.behind_set hi (u := .ready) (by decide)
  cases hflag : t.parts.unknownSizeFlag with
  | true =>
    obtain ⟨-, -, minSize, maxSize, hmin, hmax, -, rfl⟩ :=
      onPartOk_unknown hok hflag
    obtain ⟨hlow, hhigh⟩ := h.unknown hflag
    have hbounds := bounds_ok (i := i) (b := t.parts.partSize) hlow hhigh
    rw [← hmin, ← hmax] at hbounds
    refine ⟨hkept, h.fits, h.inside, h.streamingOffset, h.streamingLimit, h.knownPrefixFlag,
      h.needCheck, hanswered, fun _ => hbounds, ?_, hbehind⟩
    -- the bounds have met
    intro hknown
    have heq : minSize = maxSize := not_not.mp (of_decide_eq_false hknown)
    refine ⟨?_, ?_⟩
    · show (if minSize = maxSize then minSize else _) = n
      rw [if_pos heq]
      omega
    show (t.parts.partStatus.set i .ready)[n / t.parts.partSize]? = some .ready
    have hfits := h.fits
    have hpos := h.size_pos
    by_cases hold : t.parts.maxSize = n
    · exact hstay _ (h.last_ready hflag hold)
    -- it is this part that has set the upper bound
    split at hmax
    · rename_i hshort
      have hend : i * t.parts.partSize + blockSize t.parts.partSize n i = n := by
        rw [mul_comm] at hmax
        omega
      rw [← eq_div_of_end hshort hend]
      exact status_set_self hi
    · omega
  | false =>
    obtain ⟨-, -, -, rfl⟩ := onPartOk_known hok hflag
    obtain ⟨hsize, hready⟩ := h.known hflag
    exact { h with
      kept := hkept
      answered := hanswered
      known := fun _ => ⟨hsize, hstay _ hready⟩
      behind := hbehind }

theorem partFailed (hfailed : t.parts.onPartFailed i = some d) :
    Download n restored
      { t with parts := d, partMap := t.partMap.filter fun part => part.1 ≠ i } := by
  have hkept := h.kept.partFailed hfailed
  obtain ⟨hi, first, -, rfl⟩ := onPartFailed_cases hfailed
  exact h.other rfl hkept (fun _ => ready_set_other hi (by decide) (by decide))
    (h.behind_set hi (by decide))

/-- **Every step of a download keeps what holds.** -/
theorem step {event : Event} (hallowed : t.Allowed event) (hhonest : Honest n t event)
    (hstep : t.step event = some t') (hstop : t'.stopFlag = false) :
    Download n restored t' := by
  cases event with
  | startPart =>
    obtain ⟨⟨d, r⟩, hstart, rfl⟩ := Option.map_eq_some_iff.mp hstep
    cases r with
    | ok part => exact h.startPart hstart
    | error error =>
      have hcode : error.code = 1 := not_not.mp (of_decide_eq_false hstop)
      have hkept := h.kept.step hallowed nofun hstep hstop
      obtain rfl := startPart_error hstart hcode
      exact { h with kept := hkept }
  | partOk i actualSize =>
    cases hhonest
    obtain ⟨-, size, hasked, hle⟩ := hallowed
    obtain ⟨⟨d, r⟩, hok, rfl⟩ := Option.map_eq_some_iff.mp hstep
    rw [h.kept.askedSize_eq hasked] at hok
    cases r with
    | ok => exact h.partOk hasked hle hok
    | error error => cases hstop
  | partFailed i =>
    obtain ⟨d, hfailed, rfl⟩ := Option.map_eq_some_iff.mp hstep
    exact h.partFailed hfailed
  | setStreamingOffset offset limit | setStreamingLimit limit | setNeedCheck
  | setCheckedPrefixSize size => cases hhonest

end

end Download

/-! ## What is offered -/

namespace PartsManager

variable {d d' : PartsManager} {part : Part}

/-- The first part that is empty, or the one behind the last. -/
def firstEmpty (d : PartsManager) : Nat :=
  skipWhile (fun status => status ≠ .empty) d.partStatus d.firstEmptyPart

/-- Without a limit all parts up to the expected size are wanted. -/
theorem isPartInStreamingLimit_plain (hlimit : d.streamingLimit = 0) {i : Nat}
    (hi : i * d.partSize < d.getExpectedSize) : d.isPartInStreamingLimit i = true := by
  unfold isPartInStreamingLimit
  rw [if_neg, if_pos hlimit]
  rw [not_le]
  exact_mod_cast hi

theorem startPartAt_offers {i : Nat} (h : d.startPartAt i = some (d', .ok part))
    (hlimit : d.isPartInStreamingLimit i = true) :
    d.partStatus[i]? = some .empty ∧ part = d.getPart i ∧ d' = d.onPartStart i := by
  unfold startPartAt at h
  split at h
  · cases h
  split at h
  · cases h
  rename_i hempty
  cases h
  exact ⟨not_not.mp hempty, rfl, rfl⟩

/-- **`start_part` offers the first part that is empty**, if it is before the expected size. -/
theorem startPart_offers (h : d.startPart = some (d', .ok part)) (hoffset : d.streamingOffset = 0)
    (hlimit : d.streamingLimit = 0)
    (hmore : d.firstEmpty < d.partCount ∨ d.unknownSizeFlag = true)
    (hi : d.firstEmpty * d.partSize < d.getExpectedSize) :
    ∃ m, (d.updateFirstEmptyPart.grow m).partStatus[d.firstEmpty]? = some .empty ∧
      part = (d.updateFirstEmptyPart.grow m).getPart d.firstEmpty ∧
      d' = (d.updateFirstEmptyPart.grow m).onPartStart d.firstEmpty := by
  have hfirst : d.updateFirstEmptyPart.firstStreamingEmptyPart = d.firstEmpty := by
    rw [firstStreamingEmptyPart_eq, if_pos hoffset]
    rfl
  have hlimit : ∀ m, (d.updateFirstEmptyPart.grow m).isPartInStreamingLimit d.firstEmpty = true :=
    fun m => isPartInStreamingLimit_plain hlimit hi
  unfold startPart at h
  dsimp only at h
  rw [hfirst] at h
  split at h
  · cases h
  split at h
  · rename_i hend
    have hunknown : d.unknownSizeFlag = true := hmore.resolve_left (by
      have hend : d.firstEmpty = d.partCount := hend
      omega)
    rw [if_pos (show d.updateFirstEmptyPart.unknownSizeFlag = true from hunknown)] at h
    exact ⟨1, startPartAt_offers (startNewPart_ok h) (hlimit 1)⟩
  · refine ⟨0, startPartAt_offers ?_ (hlimit 0)⟩
    rw [grow_zero]
    exact h

theorem firstEmpty_le (h : Book d) : d.firstEmpty ≤ d.partCount :=
  h.updateFirstEmptyPart.firstEmpty_le

/-- A part before the first that is empty is pending or ready. -/
theorem of_lt_firstEmpty (h : Book d) {i : Nat} (hi : i < d.firstEmpty) :
    d.partStatus[i]? = some .pending ∨ d.partStatus[i]? = some .ready := by
  have hlt : i < d.partStatus.length := by
    rw [h.length]
    exact lt_of_lt_of_le hi (firstEmpty_le h)
  rw [getElem?_eq_getElem hlt]
  cases hs : d.partStatus[i] with
  | empty =>
    have hget : d.partStatus[i]? = some .empty := by rw [getElem?_eq_getElem hlt, hs]
    have hle : d.firstEmpty ≤ i := h.updateFirstEmptyPart.firstEmpty i hget
    omega
  | pending => exact .inl rfl
  | ready => exact .inr rfl

end PartsManager

namespace Download

variable {n : Nat} {restored : Nat → Prop} {t t' : Transfer} {i : Nat}

section

variable (h : Download n restored t)
include h

/-- If nothing is under way, a part before the first that is empty is ready. -/
theorem ready_of_lt (hmap : t.partMap = []) (hi : i < t.parts.firstEmpty)
    (hle : i ≤ n / t.parts.partSize) : t.parts.partStatus[i]? = some .ready := by
  rcases of_lt_firstEmpty h.kept.book hi with hpending | hready
  · rcases h.behind i hpending with ⟨size, hmem⟩ | hlt
    · rw [hmap] at hmem
      cases hmem
    · omega
  · exact hready

/-- The parts that are ready before the end add up. -/
theorem mul_le_readySize {k : Nat} (hk : k ≤ n / t.parts.partSize)
    (hready : ∀ j < k, t.parts.partStatus[j]? = some .ready) :
    k * t.parts.partSize ≤ t.parts.readySize := by
  have hsub : Finset.range k ⊆ readyParts t.parts.partStatus := by
    intro j hj
    exact mem_readyParts.mpr (hready j (mem_range.mp hj))
  calc k * t.parts.partSize
      = ∑ _j ∈ Finset.range k, t.parts.partSize := by
        rw [Finset.sum_const_nat (fun _ _ => rfl), Finset.card_range]
    _ = ∑ j ∈ Finset.range k, t.reported j := by
        refine Finset.sum_congr rfl ?_
        intro j hj
        rw [Finset.mem_range] at hj
        rw [h.answered j (hready j hj), blockSize_of_lt_div (lt_of_lt_of_le hj hk)]
    _ ≤ ∑ j ∈ readyParts t.parts.partStatus, t.reported j := Finset.sum_le_sum_of_subset hsub
    _ = t.parts.readySize := h.kept.counted.symm

/-- A part before the end that is the first empty one is before the expected size. -/
theorem in_window (hunknown : t.parts.unknownSizeFlag = true) (hmap : t.partMap = [])
    (hle : t.parts.firstEmpty ≤ n / t.parts.partSize) :
    t.parts.firstEmpty * t.parts.partSize < t.parts.getExpectedSize := by
  have hsum := h.mul_le_readySize hle
    (fun j hj => h.ready_of_lt hmap hj (hj.le.trans hle))
  unfold getExpectedSize
  rw [if_pos hunknown]
  omega

/-- **An idle download has all parts up to the last.** -/
theorem idle_lt (hidle : Idle t) (herror : CanStart t) (hi : i ≤ n / t.parts.partSize)
    (hbytes : t.parts.unknownSizeFlag = true ∨ i * t.parts.partSize < n) :
    t.parts.partStatus[i]? = some .ready := by
  by_contra hnot
  obtain ⟨hmap, hnone⟩ := hidle
  have hle : t.parts.firstEmpty ≤ i := by
    by_contra hlt
    exact hnot (h.ready_of_lt hmap (not_le.mp hlt) hi)
  obtain ⟨⟨d, r⟩, hstart⟩ := startPart_some h.kept.book
  cases r with
  | error error => exact herror d error hstart
  | ok part =>
    -- the first empty part is offered, and it has bytes
    have hmore : t.parts.firstEmpty < t.parts.partCount ∨ t.parts.unknownSizeFlag = true := by
      cases hflag : t.parts.unknownSizeFlag with
      | true => exact .inr rfl
      | false =>
        have hready := (h.known hflag).2
        have hlt := (List.getElem?_eq_some_iff.mp hready).1
        rw [h.kept.book.length] at hlt
        exact .inl (lt_of_le_of_lt (hle.trans hi) hlt)
    have hwindow : t.parts.firstEmpty * t.parts.partSize < t.parts.getExpectedSize := by
      cases hflag : t.parts.unknownSizeFlag with
      | true => exact h.in_window hflag hmap (hle.trans hi)
      | false =>
        unfold getExpectedSize
        rw [hflag, (h.known hflag).1]
        have hlt := hbytes.resolve_left (by rw [hflag]; decide)
        exact lt_of_le_of_lt (Nat.mul_le_mul_right _ hle) hlt
    obtain ⟨m, hempty, rfl, -⟩ := startPart_offers hstart h.streamingOffset
      h.streamingLimit hmore hwindow
    have hzero := hnone _ _ hstart
    rw [getPart_size] at hzero
    have := h.behind_of_empty (not_ready_of_grown hempty) hzero
    omega

/-- The upper bound of an idle download is the size of the file. -/
theorem max_eq (hunknown : t.parts.unknownSizeFlag = true)
    (hready : t.parts.partStatus[n / t.parts.partSize]? = some .ready) : t.parts.maxSize = n := by
  have hpos := h.size_pos
  have hshare := h.kept.sized.share _ hready
  rw [h.answered _ hready, totalSize_unknown hunknown] at hshare
  have hmax := (h.unknown hunknown).2
  have hle := Nat.div_mul_le_self n t.parts.partSize
  have hlt := Nat.lt_div_mul_add (a := n) hpos
  unfold blockSize at hshare
  omega

/-- **An idle download knows the size**, unless the last part that has bytes was restored. -/
theorem idle_known (hn : 0 < n) (hidle : Idle t) (herror : CanStart t)
    (hlast : t.parts.partSize ∣ n → ¬restored (n / t.parts.partSize - 1)) :
    t.parts.unknownSizeFlag = false := by
  by_contra hflag
  rw [Bool.not_eq_false] at hflag
  have hpos := h.size_pos
  have hready : ∀ i ≤ n / t.parts.partSize, t.parts.partStatus[i]? = some .ready :=
    fun i hi => h.idle_lt hidle herror hi (.inl hflag)
  have hmax := h.max_eq hflag (hready _ le_rfl)
  have hbounds := (h.kept.sized.bounds hflag).1
  have hmul := Nat.div_mul_le_self n t.parts.partSize
  -- the last part that has bytes raises the lower bound to the size
  have hraise : ∀ i ≤ n / t.parts.partSize, ¬restored i → blockSize t.parts.partSize n i ≠ 0 →
      i * t.parts.partSize + blockSize t.parts.partSize n i < n := by
    intro i hi hrest hne
    have hmin := h.kept.sized.min hflag i (hready i hi) hrest
    rw [h.answered i (hready i hi)] at hmin
    exact lt_of_le_of_lt (hmin hne) (by omega)
  by_cases hdvd : t.parts.partSize ∣ n
  · have hdiv := Nat.div_mul_cancel hdvd
    have hdivpos : 0 < n / t.parts.partSize := Nat.div_pos (Nat.le_of_dvd hn hdvd) hpos
    have hfull : blockSize t.parts.partSize n (n / t.parts.partSize - 1) = t.parts.partSize :=
      blockSize_of_lt_div (by omega)
    have := hraise (n / t.parts.partSize - 1) (by omega) (hlast hdvd) (by omega)
    rw [hfull, ← Nat.succ_mul, Nat.succ_eq_add_one, Nat.sub_add_cancel hdivpos, hdiv] at this
    exact lt_irrefl _ this
  have hlt := Nat.lt_div_mul_add (a := n) hpos
  have hne : n / t.parts.partSize * t.parts.partSize ≠ n := fun heq =>
    hdvd ⟨n / t.parts.partSize, by rw [mul_comm]; exact heq.symm⟩
  have hrest : ¬restored (n / t.parts.partSize) := by
    intro hrest
    have := h.inside _ hrest
    rw [Nat.succ_mul] at this
    omega
  have := hraise (n / t.parts.partSize) le_rfl hrest (by unfold blockSize; omega)
  unfold blockSize at this
  omega

/-- The parts that are ready add up. -/
theorem readySize_eq : t.parts.readySize
    = ∑ i ∈ readyParts t.parts.partStatus, blockSize t.parts.partSize n i := by
  rw [h.kept.counted]
  refine Finset.sum_congr rfl ?_
  intro i hi
  exact h.answered i (mem_readyParts.mp hi)

/-- An idle download that knows the size is ready. -/
theorem idle_ready (hidle : Idle t) (herror : CanStart t)
    (hknown : t.parts.unknownSizeFlag = false) :
    t.parts.ready = true ∧ t.parts.getSize = some n := by
  have hpos := h.size_pos
  obtain ⟨hsize, hlast⟩ := h.known hknown
  have hready : ∀ i : Nat, i * t.parts.partSize < n → t.parts.partStatus[i]? = some .ready := by
    intro i hi
    exact h.idle_lt hidle herror ((Nat.le_div_iff_mul_le hpos).mpr hi.le) (.inr hi)
  have hsum : t.parts.readySize = n := by
    have hcount : n ≤ t.parts.partCount * t.parts.partSize := by
      have hlt := (List.getElem?_eq_some_iff.mp hlast).1
      rw [h.kept.book.length] at hlt
      have hmul := Nat.mul_le_mul_right t.parts.partSize (Nat.succ_le_of_lt hlt)
      rw [Nat.succ_mul] at hmul
      have := Nat.lt_div_mul_add (a := n) hpos
      omega
    calc t.parts.readySize
        = ∑ i ∈ readyParts t.parts.partStatus, blockSize t.parts.partSize n i := h.readySize_eq
      _ = ∑ i ∈ Finset.range t.parts.partCount, blockSize t.parts.partSize n i := by
          refine Finset.sum_subset h.kept.book.readyParts_subset ?_
          intro i _ hi
          refine blockSize_eq_zero (not_lt.mp ?_)
          intro hlt
          exact hi (mem_readyParts.mpr (hready i hlt))
      _ = n := by
          rw [sum_blockSize]
          exact min_eq_left hcount
  constructor
  · unfold ready uncheckedReady
    rw [hknown, hsum, hsize, h.needCheck]
    simp
  · unfold getSize
    rw [hknown, hsize]
    rfl

end

end Download

/-! ## When the size is never known -/

namespace PartsManager

variable {d d' : PartsManager} {i size actualSize : Nat}

/-- A part that came back is no error if the bounds still fit. -/
theorem onPartOk_some (hi : d.partStatus[i]? = some .pending) (hunknown : d.unknownSizeFlag = true)
    (hsize : size = d.partSize)
    (hbounds : (if actualSize ≠ 0 then max d.minSize (d.partSize * i + actualSize) else d.minSize) ≤
      if actualSize < d.partSize then min d.maxSize (d.partSize * i + actualSize)
      else d.maxSize) :
    ∃ d', d.onPartOk i size actualSize = some (d', .ok ()) := by
  unfold onPartOk
  rw [if_neg (fun hne => hne hi)]
  dsimp only
  rw [if_pos (show (d.onPartReady i actualSize).unknownSizeFlag = true from hunknown),
    if_neg (show ¬size ≠ (d.onPartReady i actualSize).partSize from not_not.mpr hsize)]
  split
  · rename_i hlt
    exact absurd hlt (not_lt.mpr hbounds)
  · split
    · exact ⟨_, rfl⟩
    · exact ⟨_, rfl⟩

/-- A part that came back with the bytes it was asked for is no error if the size is known. -/
theorem onPartOk_some_known (hi : d.partStatus[i]? = some .pending)
    (hknown : d.unknownSizeFlag = false) (hfull : d.partSize * i < d.size → size ≤ actualSize)
    (hnone : d.size ≤ d.partSize * i → actualSize = 0) :
    ∃ d', d.onPartOk i size actualSize = some (d', .ok ()) := by
  unfold onPartOk
  rw [if_neg (fun hne => hne hi)]
  rw [if_neg (show ¬(d.onPartReady i actualSize).unknownSizeFlag = true by
    show ¬d.unknownSizeFlag = true
    rw [hknown]
    decide)]
  refine ⟨_, if_neg ?_⟩
  rintro (⟨hless, hlt⟩ | ⟨hle, hpos⟩)
  · exact absurd (hfull hlt) (not_le.mpr hless)
  · exact absurd (hnone hle) (ne_of_gt hpos)

end PartsManager

namespace Download

variable {n : Nat} {restored : Nat → Prop} {t t' : Transfer} {i : Nat}

/-- **What an honest server sends is no error.** -/
theorem partOk_some (h : Download n restored t) {size : Nat} (hasked : (i, size) ∈ t.partMap)
    (hsize : t.parts.unknownSizeFlag = true → size = t.parts.partSize) :
    ∃ d, t.parts.onPartOk i size (blockSize t.parts.partSize n i) = some (d, .ok ()) := by
  have hi := (h.kept.sized.asked i size hasked).1
  cases hflag : t.parts.unknownSizeFlag with
  | true =>
    obtain ⟨hlow, hhigh⟩ := h.unknown hflag
    obtain ⟨hmin, hmax⟩ := bounds_ok (i := i) (b := t.parts.partSize) hlow hhigh
    exact onPartOk_some hi hflag (hsize hflag) (hmin.trans hmax)
  | false =>
    obtain ⟨hn, -⟩ := h.known hflag
    refine onPartOk_some_known hi hflag ?_ ?_
    · intro hlt
      rw [hn, mul_comm] at hlt
      have := h.kept.sized.asked_known hflag i size hasked
      rw [hn] at this
      exact (this hlt).le
    · intro hle
      rw [hn, mul_comm] at hle
      exact blockSize_eq_zero hle

/-- A download whose lower bound stays a part behind the size. -/
structure Lost (n : Nat) (restored : Nat → Prop) (t : Transfer) : Prop where
  download : Download n restored t
  unknown : t.parts.unknownSizeFlag = true
  low : t.parts.minSize + t.parts.partSize ≤ n
  divides : t.parts.partSize ∣ n
  restored : restored (n / t.parts.partSize - 1)
  partMap : t.partMap = []
  running : t.stopFlag = false

/-- The first part that is not ready is the first that is empty. -/
theorem firstEmpty_eq (h : Download n restored t) (hmap : t.partMap = []) {k : Nat}
    (hk : k ≤ n / t.parts.partSize) (hready : ∀ j < k, t.parts.partStatus[j]? = some .ready)
    (hnot : t.parts.partStatus[k]? ≠ some .ready) : t.parts.firstEmpty = k := by
  refine le_antisymm ?_ ?_
  · by_contra hlt
    exact hnot (h.ready_of_lt hmap (not_le.mp hlt) hk)
  by_contra hlt
  have hr := hready _ (not_le.mp hlt)
  have hcount := (List.getElem?_eq_some_iff.mp hr).1
  rw [h.kept.book.length] at hcount
  have hempty : t.parts.partStatus[t.parts.firstEmpty]? = some .empty :=
    empty_of_skip h.kept.book.length hcount
  rw [hempty] at hr
  cases hr

section

variable {t0 : Transfer} (h : Lost n restored t) (hrun : Transfer.Run (Honest n) t0 t)
include h hrun

section

variable (herror : CanStart t) {k : Nat} (hk : k ≤ n / t.parts.partSize)
  (hready : ∀ j < k, t.parts.partStatus[j]? = some .ready)
  (hnot : t.parts.partStatus[k]? ≠ some .ready)
include herror hk hready hnot

/-- The next part is started. -/
theorem Lost.starts :
    ∃ t1, Transfer.Run (Honest n) t0 t1 ∧ Download n restored t1 ∧
      t1.partMap = [(k, t.parts.partSize)] ∧ t1.parts.partSize = t.parts.partSize ∧
      t1.parts.minSize = t.parts.minSize ∧ t1.parts.unknownSizeFlag = true ∧
      t1.stopFlag = false ∧ ∀ j : Nat, t.parts.partStatus[j]? = some .ready →
        t1.parts.partStatus[j]? = some .ready := by
  have hd := h.download
  have hfirst := hd.firstEmpty_eq h.partMap hk hready hnot
  obtain ⟨⟨d1, r⟩, hstart⟩ := startPart_some hd.kept.book
  cases r with
  | error error => exact absurd hstart (herror d1 error)
  | ok part =>
  obtain ⟨m, hempty, rfl, rfl⟩ := startPart_offers hstart hd.streamingOffset
    hd.streamingLimit (.inr h.unknown)
    (hd.in_window h.unknown h.partMap (hfirst.trans_le hk))
  rw [hfirst] at hstart
  let grown := t.parts.updateFirstEmptyPart.grow m
  -- the part has bytes, and all of them are asked for
  have hsize : (grown.getPart k).size ≠ 0 := by
    intro hzero
    rw [getPart_size] at hzero
    have := hd.behind_of_empty hnot hzero
    omega
  have hstep : t.step .startPart = some { t with
      parts := grown.onPartStart k
      partMap := t.partMap ++ [(k, (grown.getPart k).size)] } := by
    rw [Transfer.step_startPart hstart, Kept.onStarted_getPart, if_neg hsize]
  have hallowed : t.Allowed .startPart := h.running
  have hd1 := hd.step hallowed trivial hstep h.running
  have hfull : (grown.getPart k).size = t.parts.partSize := by
    have hasked := hd1.kept.sized.asked_unknown h.unknown k _
      (mem_append_right _ (mem_singleton_self _))
    rw [hasked]
    refine blockSize_full ?_
    show (k + 1) * t.parts.partSize ≤ int64Max
    have hfits := hd.fits
    have hmul := Nat.mul_le_mul_right t.parts.partSize hk
    have hle := Nat.div_mul_le_self n t.parts.partSize
    rw [Nat.succ_mul]
    omega
  refine ⟨_, .step .startPart hrun h.running trivial hstep, hd1, ?_, rfl, rfl, h.unknown, h.running,
    ?_⟩
  · rw [h.partMap, hfull]
    rfl
  intro j hj
  show (grown.partStatus.set k .pending)[j]? = some .ready
  rw [getElem?_set_ne]
  · exact status_grow hj
  · rintro rfl
    exact hnot hj

/-- The next part is started and comes back. -/
theorem Lost.next :
    ∃ t', Transfer.Run (Honest n) t0 t' ∧ Lost n restored t' ∧
      t'.parts.partSize = t.parts.partSize ∧
      ∀ j < k + 1, t'.parts.partStatus[j]? = some .ready := by
  obtain ⟨t1, hrun1, hd1, hmap1, hps, hmin1, hunknown1, hrunning1, hready1⟩ :=
    h.starts hrun herror hk hready hnot
  have hasked : (k, t.parts.partSize) ∈ t1.partMap := by
    rw [hmap1]
    exact mem_singleton_self _
  have hle : blockSize t1.parts.partSize n k ≤ t.parts.partSize := by
    rw [← hps]
    exact blockSize_le
  obtain ⟨d2, hok⟩ := hd1.partOk_some hasked (fun _ => hps.symm)
  have hd2 := hd1.partOk hasked hle hok
  have hstep : t1.step (.partOk k (blockSize t1.parts.partSize n k)) =
      some (t1.onOk d2 k (blockSize t1.parts.partSize n k) (.ok ())) := by
    refine Transfer.step_partOk ?_
    rw [hd1.kept.askedSize_eq hasked, hok]
  have hrun2 := hrun1.step (.partOk k _) ⟨hrunning1, _, hasked, hle⟩ rfl hstep
  obtain ⟨hk1, -, minSize, maxSize, hmin, hmax, -, rfl⟩ :=
    onPartOk_unknown hok hunknown1
  obtain ⟨hlow, hhigh⟩ := hd1.unknown hunknown1
  have hbound := (bounds_ok (i := k) (b := t1.parts.partSize) hlow hhigh).2
  have hpos := h.download.size_pos
  -- the last part with bytes was restored, so this one ends before it
  have hminle : minSize + t.parts.partSize ≤ n := by
    rw [hps] at hmin
    have hlow := h.low
    split at hmin
    · rename_i hne
      have hlt := (blockSize_pos hpos).mp (pos_of_ne_zero hne)
      have hdiv := Nat.div_mul_cancel h.divides
      have hkdiv : k < n / t.parts.partSize := by
        refine Nat.lt_of_mul_lt_mul_right (a := t.parts.partSize) ?_
        rw [hdiv]
        exact hlt
      have hkne : k ≠ n / t.parts.partSize - 1 := by
        rintro rfl
        exact hnot (h.download.kept.sized.restored_ready _ h.restored)
      have hmul : (k + 2) * t.parts.partSize ≤ n / t.parts.partSize * t.parts.partSize :=
        Nat.mul_le_mul_right _ (by omega)
      have hshare : blockSize t.parts.partSize n k ≤ t.parts.partSize := blockSize_le
      rw [add_mul, mul_comm k] at hmul
      omega
    · omega
  refine ⟨_, hrun2, ⟨hd2, ?_, ?_, ?_, ?_, ?_, ?_⟩, hps, ?_⟩
  · show decide (minSize ≠ maxSize) = true
    rw [decide_eq_true_eq]
    omega
  · show minSize + t1.parts.partSize ≤ n
    rw [hps]
    exact hminle
  · show t1.parts.partSize ∣ n
    rw [hps]
    exact h.divides
  · show restored (n / t1.parts.partSize - 1)
    rw [hps]
    exact h.restored
  · show (t1.partMap.filter fun part => part.1 ≠ k) = []
    rw [hmap1]
    exact filter_cons_of_neg (by simp)
  · exact hrunning1
  · intro j hj
    show (t1.parts.partStatus.set k .ready)[j]? = some .ready
    rcases lt_or_eq_of_le (Nat.le_of_lt_succ hj) with hlt | rfl
    · rw [getElem?_set_ne (ne_of_gt hlt)]
      exact hready1 j (hready j hlt)
    · exact status_set_self hk1

end

/-- **A download whose last part with bytes was restored comes to an end without knowing the
size.** -/
theorem Lost.idle (herror : ∀ t, Transfer.Run (Honest n) t0 t → CanStart t) :
    ∃ t', Transfer.Run (Honest n) t0 t' ∧ Idle t' ∧ t'.parts.unknownSizeFlag = true := by
  -- one part after another, up to the one in which the file ends
  have hall : ∀ k ≤ n / t.parts.partSize + 1, ∃ t', Transfer.Run (Honest n) t0 t' ∧
      Lost n restored t' ∧ t'.parts.partSize = t.parts.partSize ∧
      ∀ j < k, t'.parts.partStatus[j]? = some .ready := by
    intro k
    induction k with
    | zero =>
      intro _
      exact ⟨t, hrun, h, rfl, fun j hj => absurd hj (Nat.not_lt_zero j)⟩
    | succ k ih =>
      intro hk
      obtain ⟨t1, hrun1, hlost1, hps, hready⟩ := ih (Nat.le_of_succ_le hk)
      by_cases hnot : t1.parts.partStatus[k]? = some .ready
      · refine ⟨t1, hrun1, hlost1, hps, ?_⟩
        intro j hj
        rcases lt_or_eq_of_le (Nat.le_of_lt_succ hj) with hlt | rfl
        · exact hready j hlt
        · exact hnot
      have hkle : k ≤ n / t1.parts.partSize := by
        rw [hps]
        omega
      obtain ⟨t2, hrun2, hlost2, hps2, hready2⟩ :=
        hlost1.next hrun1 (herror t1 hrun1) hkle hready hnot
      exact ⟨t2, hrun2, hlost2, hps2.trans hps, hready2⟩
  obtain ⟨t', hrun', hlost, hps, hready⟩ := hall _ le_rfl
  rw [← hps] at hready
  refine ⟨t', hrun', ⟨hlost.partMap, ?_⟩, hlost.unknown⟩
  -- what is still offered is behind the end
  intro d part hstart
  have hmax := hlost.download.max_eq hlost.unknown (hready _ (Nat.lt_succ_self _))
  obtain ⟨m, -, ⟨rfl, -⟩ | ⟨i, hempty, -, rfl, -⟩⟩ := startPart_cases hstart
  · rfl
  rw [getPart_size]
  show blockSize t'.parts.partSize t'.parts.totalSize i = 0
  rw [totalSize_unknown hlost.unknown]
  refine blockSize_eq_zero ?_
  have hi : n / t'.parts.partSize + 1 ≤ i := by
    by_contra hlt
    exact not_ready_of_grown hempty (hready i (not_le.mp hlt))
  have hmul := Nat.mul_le_mul_right t'.parts.partSize hi
  rw [Nat.succ_mul] at hmul
  have := Nat.lt_div_mul_add (a := n) hlost.download.size_pos
  omega

end

end Download

end Tdlib.Files
