import Tdlib.Files.Complete

/-!
# Streaming

While a streaming limit is set, the manager keeps the number of ready bytes that are wanted, and
`get_estimated_extra` compares it with the sum over all parts. The counter is only touched when a
part becomes ready, but which parts are wanted also changes when the size of the file becomes known
and when the expected size of a file of unknown size grows.

The two agree if the size was known from the beginning: then the wanted parts are the same from one
request to the next. They also agree if the streaming offset is 0, for then the wanted parts with
bytes are those before the limit, whatever is known about the size.
-/

namespace Tdlib.Files

open Tdlib.Lib

namespace PartsManager

variable {d d' : PartsManager} {i : Nat}

/-! ## The wanted parts -/

/-- The bytes of a part, if it is wanted. -/
def wanted (d : PartsManager) (i : Nat) : Nat :=
  if d.isPartInStreamingLimit i then (d.getPart i).size else 0

theorem readyInStreamingLimit_eq (hlength : d.partStatus.length = d.partCount) :
    d.readyInStreamingLimit = ∑ i ∈ readyParts d.partStatus, d.wanted i := by
  unfold readyInStreamingLimit readyParts
  rw [Finset.sum_filter, hlength]
  refine Finset.sum_congr rfl ?_
  intro i _
  unfold wanted
  by_cases hready : d.partStatus[i]? = some .ready
  · rw [if_pos hready]
    by_cases hmem : d.isPartInStreamingLimit i = true
    · rw [if_pos ⟨hmem, hready⟩, if_pos hmem]
    · rw [if_neg (fun h => hmem h.1), if_neg hmem]
  · rw [if_neg hready, if_neg (fun h => hready h.2)]

/-- Which parts are wanted if there is a limit. -/
theorem isPartInStreamingLimit_iff (hlimit : 0 < d.streamingLimit) :
    d.isPartInStreamingLimit i = true ↔
      i * d.partSize < d.getExpectedSize ∧ 0 < (d.getPart i).size ∧
        ((i * d.partSize : Int) < d.streamingOffset + d.streamingLimit ∧
            d.streamingOffset < i * d.partSize + (d.getPart i).size ∨
          d.unknownSizeFlag = false ∧
            (i * d.partSize + d.size : Int) < d.streamingOffset + d.streamingLimit) := by
  unfold isPartInStreamingLimit
  by_cases hend : (d.getExpectedSize : Int) ≤ i * d.partSize
  · rw [if_pos hend]
    simp only [Bool.false_eq_true, false_iff]
    omega
  rw [if_neg hend, if_neg (by omega)]
  cases hflag : d.unknownSizeFlag with
  | true =>
    simp only [Bool.not_true, Bool.false_and, Bool.or_false, decide_eq_true_eq, Bool.true_eq_false,
      false_and, or_false]
    omega
  | false =>
    simp only [Bool.not_false, Bool.or_eq_true, Bool.and_eq_true,
      decide_eq_true_eq, true_and]
    omega

theorem getExpectedSize_known (h : d.unknownSizeFlag = false) : d.getExpectedSize = d.size := by
  unfold getExpectedSize
  rw [h]
  rfl

theorem getExpectedSize_unknown (h : d.unknownSizeFlag = true) :
    d.getExpectedSize = max 0x80000 (d.readySize * 2) :=
  if_pos h

/-- Managers that agree on which parts are wanted. -/
structure SameWindow (d d' : PartsManager) : Prop where
  partSize : d'.partSize = d.partSize
  unknown : d'.unknownSizeFlag = d.unknownSizeFlag
  maxSize : d'.maxSize = d.maxSize
  size : d'.size = d.size
  expected : d'.getExpectedSize = d.getExpectedSize
  offset : d'.streamingOffset = d.streamingOffset
  limit : d'.streamingLimit = d.streamingLimit

theorem SameWindow.of_readySize (hpartSize : d'.partSize = d.partSize)
    (hunknown : d'.unknownSizeFlag = d.unknownSizeFlag) (hmaxSize : d'.maxSize = d.maxSize)
    (hsize : d'.size = d.size) (hready : d'.readySize = d.readySize)
    (hoffset : d'.streamingOffset = d.streamingOffset)
    (hlimit : d'.streamingLimit = d.streamingLimit) : SameWindow d d' := by
  refine ⟨hpartSize, hunknown, hmaxSize, hsize, ?_, hoffset, hlimit⟩
  unfold getExpectedSize
  rw [hunknown, hready, hsize]

theorem SameWindow.onPartStart (d : PartsManager) (i : Nat) : SameWindow d (d.onPartStart i) :=
  .of_readySize rfl rfl rfl rfl rfl rfl rfl

theorem SameWindow.trans {d'' : PartsManager} (h : SameWindow d d') (h' : SameWindow d' d'') :
    SameWindow d d'' :=
  ⟨h'.partSize.trans h.partSize, h'.unknown.trans h.unknown, h'.maxSize.trans h.maxSize,
    h'.size.trans h.size, h'.expected.trans h.expected, h'.offset.trans h.offset,
    h'.limit.trans h.limit⟩

theorem SameWindow.getPart (h : SameWindow d d') (i : Nat) : d'.getPart i = d.getPart i := by
  unfold PartsManager.getPart totalSize
  rw [h.partSize, h.unknown, h.maxSize, h.size]

theorem SameWindow.isPartInStreamingLimit (h : SameWindow d d') (i : Nat) :
    d'.isPartInStreamingLimit i = d.isPartInStreamingLimit i := by
  unfold PartsManager.isPartInStreamingLimit
  rw [h.getPart, h.partSize, h.unknown, h.size, h.expected, h.offset, h.limit]

theorem SameWindow.wanted (h : SameWindow d d') (i : Nat) : d'.wanted i = d.wanted i := by
  unfold PartsManager.wanted
  rw [h.isPartInStreamingLimit, h.getPart]

/-- How the counter moves when a part becomes ready. -/
theorem onPartReady_streamingReadySize (d : PartsManager) (i actualSize : Nat) :
    (d.onPartReady i actualSize).streamingReadySize =
      if 0 < d.streamingLimit ∧ (d.onPartReady i actualSize).isPartInStreamingLimit i
      then d.streamingReadySize + actualSize else d.streamingReadySize := by
  have hsame : SameWindow { d with
      pendingCount := d.pendingCount - 1
      partStatus := d.partStatus.set i .ready
      readySize := d.readySize + actualSize } (d.onPartReady i actualSize) :=
    .of_readySize rfl rfl rfl rfl rfl rfl rfl
  rw [hsame.isPartInStreamingLimit]
  rfl

/-- If the offset is 0, the wanted parts are those before the limit. -/
theorem isPartInStreamingLimit_zero (hoffset : d.streamingOffset = 0)
    (hlimit : 0 < d.streamingLimit) (hpos : 0 < d.partSize) (hlt : i * d.partSize < d.totalSize)
    (hexpected : i * d.partSize < d.getExpectedSize) :
    d.isPartInStreamingLimit i = true ↔ (i * d.partSize : Int) < d.streamingLimit := by
  have hsize : 0 < (d.getPart i).size := by
    rw [getPart_size]
    exact (blockSize_pos hpos).mpr hlt
  rw [isPartInStreamingLimit_iff hlimit, hoffset]
  constructor
  · intro h
    rcases h.2.2 with ⟨hbefore, -⟩ | ⟨-, hbefore⟩ <;> omega
  · intro hbefore
    exact ⟨hexpected, hsize, .inl ⟨by omega, by omega⟩⟩

theorem wanted_zero (hoffset : d.streamingOffset = 0) (hlimit : 0 < d.streamingLimit)
    (hpos : 0 < d.partSize)
    (hexpected : i * d.partSize < d.totalSize → i * d.partSize < d.getExpectedSize) :
    d.wanted i = if (i * d.partSize : Int) < d.streamingLimit
      then blockSize d.partSize d.totalSize i else 0 := by
  unfold wanted
  rw [getPart_size]
  by_cases hlt : i * d.partSize < d.totalSize
  · exact if_congr (isPartInStreamingLimit_zero hoffset hlimit hpos hlt (hexpected hlt)) rfl rfl
  · rw [blockSize_eq_zero (not_lt.mp hlt), ite_self, ite_self]

/-! ## How many bytes are wanted -/

/-- A number of bytes in whole parts. -/
theorem roundUp_spec {x : Int} (hpos : 0 < d.partSize) (hlow : -(d.partSize : Int) < x)
    (hhigh : x + d.partSize < 0x8000000000000000) :
    ∃ c : Nat, d.roundUp x = c * d.partSize ∧ x ≤ c * d.partSize ∧
      (c * d.partSize : Int) < x + d.partSize := by
  have hps : (0 : Int) < d.partSize := by omega
  obtain ⟨c, hc⟩ := Int.eq_ofNat_of_zero_le
    (Int.ediv_nonneg (show 0 ≤ x + d.partSize - 1 by omega) hps.le)
  have hle := Int.ediv_mul_le (x + d.partSize - 1) hps.ne'
  have hgt := Int.lt_ediv_add_one_mul_self (x + d.partSize - 1) hps
  rw [hc, Int.add_mul, Int.one_mul] at hgt
  rw [hc] at hle
  have hnonneg : (0 : Int) ≤ c * d.partSize := Int.mul_nonneg (Int.natCast_nonneg c) hps.le
  refine ⟨c, ?_, by omega, by omega⟩
  unfold roundUp
  rw [Int.emod_eq_of_lt (by omega) (by omega), hc]
  exact Int.bmod_eq_of_le_mul_two (by omega) (by omega)

/-- A part that begins before a number of bytes ends before that many bytes in whole parts. -/
theorem block_before {x : Int} {c total : Nat} (hx : x ≤ c * d.partSize)
    (hlt : (i * d.partSize : Int) < x) :
    i * d.partSize + blockSize d.partSize total i ≤ c * d.partSize := by
  have hic : i * d.partSize < c * d.partSize := by
    omega
  have hmul := Nat.mul_le_mul_right d.partSize (Nat.succ_le_of_lt (Nat.lt_of_mul_lt_mul_right hic))
  have hle : blockSize d.partSize total i ≤ d.partSize := blockSize_le
  rw [Nat.succ_mul] at hmul
  omega

/-- The ready bytes that are wanted are in the wanted parts. -/
theorem readyInStreamingLimit_le (hlength : d.partStatus.length = d.partCount) (s : Finset Nat)
    (hs : ∀ i ∈ readyParts d.partStatus, d.isPartInStreamingLimit i = true → i ∈ s) :
    d.readyInStreamingLimit ≤ ∑ i ∈ s, blockSize d.partSize d.totalSize i := by
  rw [readyInStreamingLimit_eq hlength]
  have hle : ∀ i, d.wanted i ≤ blockSize d.partSize d.totalSize i := by
    intro i
    unfold wanted
    rw [getPart_size]
    split
    · exact le_rfl
    · exact Nat.zero_le _
  refine le_trans ?_ (Finset.sum_le_sum fun i _ => hle i)
  refine Finset.sum_le_sum_of_ne_zero ?_
  intro i hi hne
  refine hs i hi ?_
  by_contra hmem
  exact hne (if_neg hmem)

/-- No more is ready than the file has. -/
theorem readyInStreamingLimit_le_total (hlength : d.partStatus.length = d.partCount) :
    d.readyInStreamingLimit ≤ d.totalSize := by
  refine (readyInStreamingLimit_le hlength (Finset.range d.partCount) ?_).trans ?_
  · intro i hi _
    rw [Finset.mem_range, ← hlength]
    exact (getElem?_eq_some_iff.mp (mem_readyParts.mp hi)).1
  · rw [sum_blockSize]
    exact min_le_left _ _

/-- The parts that begin before a number of bytes. -/
theorem sum_before {x : Int} {c : Nat} (hx : x ≤ c * d.partSize) (s : Finset Nat)
    (hs : ∀ i ∈ s, (i * d.partSize : Int) < x) :
    ∑ i ∈ s, blockSize d.partSize d.totalSize i ≤ c * d.partSize := by
  have hle : ∑ i ∈ s, blockSize d.partSize d.totalSize i ≤ c * d.partSize - 0 :=
    sum_blockSize_le s fun i hi _ => ⟨Nat.zero_le _, block_before hx (hs i hi)⟩
  omega

/-- A part that ends behind the offset begins with the offset's part or behind it. -/
theorem begin_le {offset total : Nat}
    (hlt : offset < i * d.partSize + blockSize d.partSize total i) :
    offset / d.partSize * d.partSize ≤ i * d.partSize := by
  have hle : blockSize d.partSize total i ≤ d.partSize := blockSize_le
  have hdiv : offset / d.partSize ≤ i := by
    refine Nat.le_of_lt_succ (Nat.div_lt_of_lt_mul ?_)
    rw [mul_comm, Nat.succ_mul]
    omega
  exact Nat.mul_le_mul_right _ hdiv

/-- **As many bytes are wanted as are ready**, if the size was known from the beginning. -/
theorem le_streamingSize_known (hlength : d.partStatus.length = d.partCount) (hpos : 0 < d.partSize)
    (hknown : d.unknownSizeFlag = false) (hexpected : d.expectedSize = d.size)
    (hoffset : d.streamingOffset ≤ d.size) (hlimit : 0 < d.streamingLimit)
    (hsmall : d.streamingOffset + d.streamingLimit + d.partSize < 0x8000000000000000) :
    (d.readyInStreamingLimit : Int) ≤ d.streamingSize := by
  have htotal := totalSize_known hknown
  have hall := readyInStreamingLimit_le_total hlength
  have hget := getExpectedSize_known hknown
  have hfloor := Nat.div_mul_le_self d.streamingOffset d.partSize
  have hbegin : (d.streamingOffset : Int) / d.partSize * d.partSize =
      (d.streamingOffset / d.partSize * d.partSize : Nat) := by
    rfl
  obtain ⟨c, hc, hle, hlt⟩ := roundUp_spec (d := d) hpos (by omega) hsmall
  -- the wanted parts are of two kinds: behind the offset, and at the beginning of the file
  let behind := (readyParts d.partStatus).filter fun i =>
    d.streamingOffset < i * d.partSize + blockSize d.partSize d.size i ∧
      (i * d.partSize : Int) < d.streamingOffset + d.streamingLimit
  let wrapped := (readyParts d.partStatus).filter fun i : Nat =>
    (i * d.partSize + d.size : Int) < d.streamingOffset + d.streamingLimit
  have hmem : ∀ i ∈ readyParts d.partStatus, d.isPartInStreamingLimit i = true →
      i ∈ behind ∨ i ∈ wrapped := by
    intro i hi hin
    rw [isPartInStreamingLimit_iff hlimit, getPart_size, htotal] at hin
    rcases hin.2.2 with ⟨hbefore, hbehind⟩ | ⟨-, hwrap⟩
    · exact .inl (Finset.mem_filter.mpr ⟨hi, hbehind, hbefore⟩)
    · exact .inr (Finset.mem_filter.mpr ⟨hi, hwrap⟩)
  have hbehind : ∀ i ∈ behind, blockSize d.partSize d.totalSize i ≠ 0 →
      d.streamingOffset / d.partSize * d.partSize ≤ i * d.partSize ∧
        i * d.partSize + blockSize d.partSize d.totalSize i ≤ d.size := by
    intro i hi hne
    rw [htotal] at hne ⊢
    have hlt := (blockSize_pos hpos).mp (pos_of_ne_zero hne)
    exact ⟨begin_le (Finset.mem_filter.mp hi).2.1, blockSize_end hlt.le⟩
  unfold streamingSize
  rw [if_neg (by rw [hknown]; decide), hexpected]
  split
  · split
    · refine le_min (by omega) ?_
      obtain ⟨p, hp, hple, -⟩ := roundUp_spec (d := d)
        (x := d.streamingLimit - (d.size - d.streamingOffset)) hpos (by omega) (by omega)
      have hsum := readyInStreamingLimit_le hlength (behind ∪ wrapped)
        (fun i hi hin => Finset.mem_union.mpr (hmem i hi hin))
      have hunion : ∑ i ∈ behind ∪ wrapped, blockSize d.partSize d.totalSize i +
          ∑ i ∈ behind ∩ wrapped, blockSize d.partSize d.totalSize i =
          ∑ i ∈ behind, blockSize d.partSize d.totalSize i +
          ∑ i ∈ wrapped, blockSize d.partSize d.totalSize i := Finset.sum_union_inter
      have hfirst := sum_blockSize_le behind hbehind
      have hsecond := sum_before hple wrapped (by
        intro i hi
        have := (Finset.mem_filter.mp hi).2
        omega)
      omega
    -- the offset is the end of the file
    obtain ⟨p, hp, hple, -⟩ := roundUp_spec (d := d) (x := d.streamingLimit) hpos (by omega)
      (by omega)
    have hsum := readyInStreamingLimit_le hlength wrapped (by
      intro i hi hin
      refine (hmem i hi hin).resolve_left ?_
      intro hi
      have hbytes := (Finset.mem_filter.mp hi).2.1
      by_cases hzero : d.size ≤ i * d.partSize
      · have hlast := (isPartInStreamingLimit_iff hlimit).mp hin
        omega
      · have := blockSize_end (b := d.partSize) (not_le.mp hzero).le
        omega)
    have hsecond := sum_before hple wrapped (by
      intro i hi
      have := (Finset.mem_filter.mp hi).2
      omega)
    omega
  · have hsum := readyInStreamingLimit_le hlength behind (by
      intro i hi hin
      refine (hmem i hi hin).resolve_right ?_
      intro hi
      have := (Finset.mem_filter.mp hi).2
      have : (0 : Int) ≤ i * d.partSize := Int.mul_nonneg (by omega) (by omega)
      omega)
    have hfirst : ∑ i ∈ behind, blockSize d.partSize d.totalSize i ≤
        c * d.partSize - d.streamingOffset / d.partSize * d.partSize := by
      refine sum_blockSize_le behind ?_
      intro i hi hne
      exact ⟨(hbehind i hi hne).1, block_before hle (Finset.mem_filter.mp hi).2.2⟩
    omega

/-- **As many bytes are wanted as are ready**, if the offset is 0. -/
theorem le_streamingSize_zero (hlength : d.partStatus.length = d.partCount) (hpos : 0 < d.partSize)
    (hexpected : d.expectedSize = 0) (hoffset : d.streamingOffset = 0)
    (hlimit : 0 < d.streamingLimit) (hsmall : d.streamingLimit + d.partSize < 0x8000000000000000)
    (hready : d.readyInStreamingLimit ≤ d.readySize) :
    (d.readyInStreamingLimit : Int) ≤ d.streamingSize := by
  obtain ⟨c, hc, hle, -⟩ := roundUp_spec (d := d) hpos (by omega) hsmall
  have hbefore : d.readyInStreamingLimit ≤ c * d.partSize := by
    refine (readyInStreamingLimit_le hlength ((readyParts d.partStatus).filter
      fun i => (i * d.partSize : Int) < d.streamingLimit) ?_).trans (sum_before hle _ ?_)
    · intro i hi hin
      rw [isPartInStreamingLimit_iff hlimit, hoffset] at hin
      refine Finset.mem_filter.mpr ⟨hi, ?_⟩
      rcases hin.2.2 with ⟨hlt, -⟩ | ⟨-, hlt⟩ <;> omega
    · intro i hi
      exact (Finset.mem_filter.mp hi).2
  unfold streamingSize getExpectedSize
  dsimp only
  rw [hoffset, hexpected, Int.natCast_zero, Int.zero_ediv, Int.zero_mul, zero_add, hc]
  have hround : (d.readyInStreamingLimit : Int) ≤ c * d.partSize := by
    exact_mod_cast hbefore
  split
  · rw [if_pos (by omega)]
    exact le_min (by omega) (by omega)
  rename_i hknown
  have hall := readyInStreamingLimit_le_total hlength
  rw [totalSize_known (by simpa using hknown)] at hall
  split
  · exact le_min (by omega) hround
  · omega

end PartsManager

end Tdlib.Files
