import Mathlib

/-!
# A range in blocks

The range `[0, total)` is cut into blocks of `b` bytes. The last block is shorter if `b` does not
divide `total`, and a block behind the end is empty. The blocks are disjoint, so the sizes of some
of them that lie in an interval add up to at most its length.
-/

namespace Tdlib.Lib

/-- The size of the block with the number `i`. -/
def blockSize (b total i : Nat) : Nat := min b (total - i * b)

variable {b total i : Nat}

theorem blockSize_le : blockSize b total i ≤ b := Nat.min_le_left _ _

theorem blockSize_pos (hb : 0 < b) : 0 < blockSize b total i ↔ i * b < total := by
  unfold blockSize
  omega

theorem blockSize_eq_zero (h : total ≤ i * b) : blockSize b total i = 0 := by
  unfold blockSize
  omega

theorem blockSize_full (h : (i + 1) * b ≤ total) : blockSize b total i = b := by
  rw [Nat.succ_mul] at h
  unfold blockSize
  omega

/-- A block before one that begins in the range is full. -/
theorem blockSize_of_lt {j : Nat} (hij : i < j) (hj : j * b ≤ total) : blockSize b total i = b :=
  blockSize_full ((Nat.mul_le_mul_right b hij).trans hj)

theorem blockSize_end (h : i * b ≤ total) : i * b + blockSize b total i ≤ total := by
  unfold blockSize
  omega

/-- **The blocks make up the range.** -/
theorem sum_blockSize (n : Nat) :
    ∑ i ∈ Finset.range n, blockSize b total i = min total (n * b) := by
  induction n with
  | zero => simp
  | succ n ih =>
    rw [Finset.sum_range_succ, ih, Nat.succ_mul]
    unfold blockSize
    omega

/-- Blocks in an interval take no more than the interval. -/
theorem sum_blockSize_le (s : Finset Nat) {lo hi : Nat}
    (hs : ∀ i ∈ s, blockSize b total i ≠ 0 → lo ≤ i * b ∧ i * b + blockSize b total i ≤ hi) :
    ∑ i ∈ s, blockSize b total i ≤ hi - lo := by
  -- the bytes of the blocks are disjoint
  have hdisjoint : Set.PairwiseDisjoint s
      fun i => Finset.Ico (i * b) (i * b + blockSize b total i) := by
    intro i _ j _ hij
    rw [Function.onFun, Finset.disjoint_left]
    intro x hi hj
    rw [Finset.mem_Ico] at hi hj
    have hbi : blockSize b total i ≤ b := blockSize_le
    have hbj : blockSize b total j ≤ b := blockSize_le
    rcases lt_or_gt_of_ne hij with h | h
    · have := Nat.mul_le_mul_right b (Nat.succ_le_of_lt h)
      rw [Nat.succ_mul] at this
      omega
    · have := Nat.mul_le_mul_right b (Nat.succ_le_of_lt h)
      rw [Nat.succ_mul] at this
      omega
  calc ∑ i ∈ s, blockSize b total i
      = ∑ i ∈ s, (Finset.Ico (i * b) (i * b + blockSize b total i)).card := by
        refine Finset.sum_congr rfl ?_
        intro i _
        rw [Nat.card_Ico, Nat.add_sub_cancel_left]
    _ = (s.biUnion fun i => Finset.Ico (i * b) (i * b + blockSize b total i)).card :=
        (Finset.card_biUnion hdisjoint).symm
    _ ≤ (Finset.Ico lo hi).card := by
        refine Finset.card_le_card ?_
        intro x hx
        obtain ⟨i, hi, hx⟩ := Finset.mem_biUnion.mp hx
        rw [Finset.mem_Ico] at hx ⊢
        have := hs i hi (by omega)
        omega
    _ = hi - lo := Nat.card_Ico lo hi

/-- If blocks make up the whole range, then none is missing. -/
theorem mem_of_sum_blockSize (hb : 0 < b) {n : Nat} {s : Finset Nat} (hs : s ⊆ Finset.range n)
    (hsum : ∑ i ∈ s, blockSize b total i = total) (hi : i < n) (hit : i * b < total) : i ∈ s := by
  by_contra hnot
  have hins : insert i s ⊆ Finset.range n := by
    intro j hj
    rcases Finset.mem_insert.mp hj with rfl | hj
    · exact Finset.mem_range.mpr hi
    · exact hs hj
  have hle := Finset.sum_le_sum_of_subset (f := blockSize b total) hins
  rw [Finset.sum_insert hnot, sum_blockSize] at hle
  have hpos : 0 < blockSize b total i := (blockSize_pos hb).mpr hit
  omega

/-- A byte of the range is in one block. -/
theorem existsUnique_block (hb : 0 < b) {x : Nat} (hx : x < total) :
    ∃! i, i * b ≤ x ∧ x < i * b + blockSize b total i := by
  refine ⟨x / b, ⟨Nat.div_mul_le_self x b, ?_⟩, ?_⟩
  · have := Nat.lt_div_mul_add (a := x) hb
    unfold blockSize
    omega
  rintro j ⟨hle, hlt⟩
  have hj : blockSize b total j ≤ b := blockSize_le
  refine (Nat.div_eq_of_lt_le ?_ ?_).symm
  · exact hle
  · rw [Nat.succ_mul]
    omega

end Tdlib.Lib
