import Tdlib.Files.Bookkeeping

/-!
# The beginning of a transfer

What `init` makes of its arguments if the size is final: the parts that are ready are marked and
add up to `readySize`, and everything else is at its beginning.
-/

namespace Tdlib.Files

open List Tdlib.Lib

/-- A manager that `init` returned for a file of the size, where 0 stands for a size that is not
known. -/
structure Fresh (size expectedSize : Nat) (readyParts : List Nat) (d : PartsManager) : Prop where
  partSize_pos : 0 < d.partSize
  unknown : d.unknownSizeFlag = decide (size = 0)
  size_eq : d.size = size
  expectedSize_eq : d.expectedSize = expectedSize
  minSize : size = 0 → d.minSize = 0
  maxSize : size = 0 → d.maxSize = int64Max
  partCount : d.partCount = if size = 0 then readyParts.foldl (fun a b => max a (b + 1)) 0
    else calcPartCount size d.partSize
  length : d.partStatus.length = d.partCount
  status : ∀ i : Nat, i < d.partCount →
    d.partStatus[i]? = some (if i ∈ readyParts then .ready else .empty)
  ready_lt : ∀ i ∈ readyParts, i < d.partCount
  readySize : d.readySize = (readyParts.map fun i => (d.getPart i).size).sum
  pendingCount : d.pendingCount = 0
  firstEmptyPart : d.firstEmptyPart = 0
  firstNotReadyPart : d.firstNotReadyPart = skipWhile (fun status => status = .ready) d.partStatus 0
  firstStreamingEmptyPart : d.firstStreamingEmptyPart = 0
  streamingOffset : d.streamingOffset = 0
  streamingLimit : d.streamingLimit = 0
  knownPrefixFlag : d.knownPrefixFlag = false
  needCheck : d.needCheck = false

namespace PartsManager

variable {d d' : PartsManager}

variable {readyParts : List Nat} {size expectedSize partSize : Nat}

/-- What the loop over the parts that are ready does. -/
theorem initReadyParts_ok (h : initReadyParts readyParts d = some (.ok d')) :
    (∀ i ∈ readyParts, i < d.partCount) ∧
      d' = { d with
        partStatus := readyParts.foldl (fun status i => status.set i .ready) d.partStatus
        readySize := d.readySize + (readyParts.map fun i => (d.getPart i).size).sum } := by
  induction readyParts generalizing d with
  | nil =>
    cases h
    exact ⟨forall_mem_nil _, rfl⟩
  | cons i readyParts ih =>
    unfold initReadyParts at h
    split at h
    · split at h <;> cases h
    split at h
    · cases h
    split at h
    · cases h
    rename_i hlt
    obtain ⟨hrest, hd⟩ := ih h
    refine ⟨?_, ?_⟩
    · intro j hj
      rcases mem_cons.mp hj with rfl | hj
      · exact not_le.mp hlt
      · exact hrest j hj
    · rw [hd, map_cons, sum_cons, ← add_assoc]
      rfl

theorem foldl_set_ready (readyParts : List Nat) (status : List PartStatus) :
    (readyParts.foldl (fun status i => status.set i .ready) status).length = status.length ∧
      ∀ i < status.length, (readyParts.foldl (fun status i => status.set i .ready) status)[i]? =
          if i ∈ readyParts then some .ready else status[i]? := by
  induction readyParts generalizing status with
  | nil =>
    refine ⟨rfl, ?_⟩
    intro i _
    rfl
  | cons k readyParts ih =>
    obtain ⟨hlen, hget⟩ := ih (status.set k .ready)
    rw [length_set] at hlen hget
    refine ⟨hlen, ?_⟩
    intro i hi
    rw [foldl_cons, hget i hi]
    by_cases hmem : i ∈ readyParts
    · rw [if_pos hmem, if_pos (mem_cons_of_mem _ hmem)]
    rw [if_neg hmem]
    by_cases hik : i = k
    · subst hik
      rw [if_pos mem_cons_self, getElem?_set_self hi]
    rw [if_neg, getElem?_set_ne (Ne.symm hik)]
    intro hmem'
    rcases mem_cons.mp hmem' with heq | hmem'
    · exact hik heq
    · exact hmem hmem'

/-- What `init_common` makes of a manager whose other fields are at their beginning. -/
theorem initCommon_fresh (h : d.initCommon readyParts = some (.ok d')) (hpos : 0 < d.partSize)
    (hunknown : d.unknownSizeFlag = decide (size = 0)) (hsize : d.size = size)
    (hmin : size = 0 → d.minSize = 0) (hmax : size = 0 → d.maxSize = int64Max)
    (hcount : d.partCount = if size = 0 then readyParts.foldl (fun a b => max a (b + 1)) 0
      else calcPartCount size d.partSize)
    (hfirst : d.firstStreamingEmptyPart = 0) (hoffset : d.streamingOffset = 0)
    (hlimit : d.streamingLimit = 0) (hknown : d.knownPrefixFlag = false)
    (hcheck : d.needCheck = false) : Fresh size d.expectedSize readyParts d' := by
  obtain ⟨r, hr, hd⟩ := Option.map_eq_some_iff.mp h
  cases r with
  | error error => cases hd
  | ok m =>
    cases hd
    obtain ⟨hlt, rfl⟩ := initReadyParts_ok hr
    obtain ⟨hlen, hget⟩ := foldl_set_ready readyParts (replicate d.partCount .empty)
    rw [length_replicate] at hlen hget
    refine ⟨hpos, hunknown, hsize, rfl, hmin, hmax, hcount, hlen, ?_, hlt, zero_add _, rfl, rfl,
      rfl, hfirst, hoffset, hlimit, hknown, hcheck⟩
    intro i hi
    have hi : i < d.partCount := hi
    refine (hget i hi).trans ?_
    rw [getElem?_replicate]
    split <;> rfl

theorem growPartSize_pos {n result : Nat} (hpos : 0 < partSize)
    (h : growPartSize expectedSize n partSize = some result) : 0 < result := by
  induction n generalizing partSize with
  | zero => cases h
  | succ n ih =>
    unfold growPartSize at h
    split at h
    · split at h
      · cases h
      · exact ih (Nat.mul_pos hpos (by decide)) h
    · cases h
      exact hpos

/-- **What a successful `init` returns** if the size is final. -/
theorem init_fresh {usePartCountLimit isUpload : Bool}
    (h : init size expectedSize true partSize readyParts usePartCountLimit isUpload = some
      (.ok d)) :
    Fresh size expectedSize readyParts d := by
  unfold init at h
  split at h
  · cases h
  split at h
  · cases h
  rw [if_neg (by decide)] at h
  split at h
  · rename_i hzero
    subst hzero
    obtain ⟨chosen, hchosen, h⟩ := Option.bind_eq_some_iff.mp h
    refine initCommon_fresh h ?_ rfl rfl (fun _ => rfl) (fun _ => rfl) rfl rfl rfl rfl rfl rfl
    split at hchosen
    · rename_i hne
      cases hchosen
      exact pos_of_ne_zero hne
    · obtain ⟨grown, hgrown, rfl⟩ := Option.map_eq_some_iff.mp hchosen
      have := growPartSize_pos (by decide) hgrown
      split
      · exact Nat.mul_pos this (by decide)
      · exact this
  rename_i hne
  have hinit : ∀ partSize, 0 < partSize →
      ({ ({ isUpload, usePartCountLimit, expectedSize } : PartsManager) with
        size := size
        partSize := partSize
        partCount := calcPartCount size partSize } : PartsManager).initCommon readyParts =
        some (.ok d) → Fresh size expectedSize readyParts d := by
    intro partSize hpos h
    refine initCommon_fresh h hpos (decide_eq_false hne).symm rfl (fun hz => absurd hz hne)
      (fun hz => absurd hz hne) ?_ rfl rfl rfl rfl rfl
    exact (if_neg hne).symm
  unfold initKnownSize at h
  dsimp only at h
  split at h
  · rename_i hpartSize
    split at h
    · split at h <;> cases h
    · exact hinit partSize (pos_of_ne_zero hpartSize) h
  · obtain ⟨grown, hgrown, h⟩ := Option.bind_eq_some_iff.mp h
    split at h
    · cases h
    · exact hinit grown (growPartSize_pos (by decide) hgrown) h

end PartsManager

namespace Fresh

variable {size expectedSize : Nat} {readyParts : List Nat} {d : PartsManager}

section

variable (h : Fresh size expectedSize readyParts d)
include h

theorem status_or {i : Nat} {status : PartStatus} (hi : d.partStatus[i]? = some status) :
    i ∈ readyParts ∧ status = .ready ∨ i ∉ readyParts ∧ status = .empty := by
  have hlt : i < d.partCount := by
    rw [← h.length]
    exact (List.getElem?_eq_some_iff.mp hi).1
  rw [h.status i hlt] at hi
  cases hi
  by_cases hmem : i ∈ readyParts
  · rw [if_pos hmem]
    exact .inl ⟨hmem, rfl⟩
  · rw [if_neg hmem]
    exact .inr ⟨hmem, rfl⟩

theorem ready_iff {i : Nat} : d.partStatus[i]? = some .ready ↔ i ∈ readyParts := by
  constructor
  · intro hi
    rcases h.status_or hi with ⟨hmem, -⟩ | ⟨-, hs⟩
    · exact hmem
    · cases hs
  · intro hmem
    rw [h.status i (h.ready_lt i hmem), if_pos hmem]

theorem book : Book d where
  length := h.length
  pendingCount := by
    rw [h.pendingCount, eq_comm, Int.natCast_eq_zero, countP_eq_zero]
    intro status hs hpending
    obtain ⟨i, hi⟩ := getElem?_of_mem hs
    rcases h.status_or hi with ⟨-, rfl⟩ | ⟨-, rfl⟩ <;> cases hpending
  firstEmpty := by
    intro i _
    rw [h.firstEmptyPart]
    exact Nat.zero_le i
  firstEmpty_le := by
    rw [h.firstEmptyPart]
    exact Nat.zero_le _
  firstNotReady := by
    intro i status hi hne
    rw [h.firstNotReadyPart]
    exact skipWhile_le_of (Nat.zero_le i) hi (by simpa using hne)
  firstNotReady_le := by
    rw [h.firstNotReadyPart, ← h.length]
    exact skipWhile_le (Nat.zero_le _)
  streamingEmpty_le := by
    rw [h.firstStreamingEmptyPart]
    exact Nat.zero_le _

theorem sized : Sized (fun i => i ∈ readyParts) d [] (Transfer.start d).reported := by
  have hzero : d.unknownSizeFlag = true → size = 0 := by
    rw [h.unknown]
    exact of_decide_eq_true
  constructor
  · exact h.partSize_pos
  · intro i _
    exact PartsManager.getPart_size d i
  · intro i hi
    exact h.ready_iff.mpr hi
  · exact nodup_nil
  · intro i size hmem
    cases hmem
  · intro _ i size hmem
    cases hmem
  · intro _ i size hmem
    cases hmem
  · intro hunknown
    rw [h.minSize (hzero hunknown), h.maxSize (hzero hunknown)]
    decide
  · intro _ i hi hnot
    exact absurd (h.ready_iff.mp hi) hnot
  · intro hunknown
    exact .inl (h.maxSize (hzero hunknown))

theorem counted (hnodup : readyParts.Nodup) :
    d.readySize = ∑ i ∈ Tdlib.Files.readyParts d.partStatus, (d.getPart i).size := by
  have heq : Tdlib.Files.readyParts d.partStatus = readyParts.toFinset := by
    ext i
    rw [mem_readyParts, h.ready_iff, mem_toFinset]
  rw [h.readySize, heq, sum_toFinset _ hnodup]

theorem kept (hnodup : readyParts.Nodup) : Kept (fun i => i ∈ readyParts) (Transfer.start d) :=
  ⟨h.book, h.sized, h.counted hnodup⟩

end

end Fresh

/-- A file of unknown size whose first part was restored. -/
def firstRestored : PartsManager :=
  { unknownSizeFlag := true, maxSize := int64Max, partSize := 0x8000, partCount := 1,
    readySize := 0x8000, partStatus := [.ready], firstNotReadyPart := 1,
    firstStreamingNotReadyPart := 1, checkedPrefixSize := 0x8000 }

theorem init_firstRestored :
    PartsManager.init 0 0 true 0x8000 [0] false false = some (.ok firstRestored) := by
  decide +kernel

end Tdlib.Files
