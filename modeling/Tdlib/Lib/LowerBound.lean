import Mathlib

/-!
# `std::lower_bound`

The halving loop of the standard library over a range that is partitioned: first
what is below the value, then what is not. Nothing is asked of the order.
-/

namespace Tdlib.Lib

variable {α : Type*} [LT α] [DecidableLT α]

/-- `fuel` bounds the iterations; the remaining length `len` always suffices. -/
def lowerBoundLoop (xs : List α) (value : α) : Nat → Nat → Nat → Nat
  | 0, first, _ => first
  | fuel + 1, first, len =>
    if len = 0 then first else
    let half := len / 2
    let middle := first + half
    if xs[middle]?.any fun x => x < value then
      lowerBoundLoop xs value fuel (middle + 1) (len - half - 1)
    else lowerBoundLoop xs value fuel first half

/-- The position of the first element that is not below `value`. -/
def lowerBound (xs : List α) (value : α) : Nat :=
  lowerBoundLoop xs value xs.length 0 xs.length

variable {below above : List α} {value : α}

/-- The boundary stays within `[first, first + len]`. -/
theorem lowerBoundLoop_eq (hbelow : ∀ x ∈ below, x < value) (habove : ∀ x ∈ above, ¬ x < value)
    (fuel : Nat) {first len : Nat} (hfuel : len ≤ fuel) (hfirst : first ≤ below.length)
    (hlast : below.length ≤ first + len) (hlen : first + len ≤ (below ++ above).length) :
    lowerBoundLoop (below ++ above) value fuel first len = below.length := by
  induction fuel generalizing first len with
  | zero => show first = below.length; omega
  | succ fuel ih =>
    rw [lowerBoundLoop]
    by_cases hzero : len = 0
    · rw [if_pos hzero]; omega
    rw [if_neg hzero]
    dsimp only
    by_cases hmid : first + len / 2 < below.length
    · have hget : (below ++ above)[first + len / 2]? = some (below[first + len / 2]) := by
        rw [List.getElem?_append_left hmid, List.getElem?_eq_getElem hmid]
      rw [hget, if_pos (by simpa using hbelow _ (List.getElem_mem hmid))]
      exact ih (by omega) (by omega) (by omega) (by omega)
    have hnot : ¬ ((below ++ above)[first + len / 2]?.any fun x => x < value) = true := by
      rw [List.getElem?_append_right (by omega)]
      cases hget : above[first + len / 2 - below.length]? with
      | none => simp
      | some x => simpa using habove x (List.mem_of_getElem? hget)
    rw [if_neg hnot]
    exact ih (by omega) (by omega) (by omega) (by omega)

/-- **On a partitioned range the loop finds the boundary.** -/
theorem lowerBound_append (hbelow : ∀ x ∈ below, x < value) (habove : ∀ x ∈ above, ¬ x < value) :
    lowerBound (below ++ above) value = below.length :=
  lowerBoundLoop_eq hbelow habove _ le_rfl (Nat.zero_le _)
    (by rw [List.length_append]; omega) (by omega)

end Tdlib.Lib
