import Mathlib

/-!
# Lists by index

An element of a list that is replaced, and a cursor into a list that is moved over the elements with
a property: `while p(l[i]) i++`.
-/

namespace Tdlib.Lib

open List

variable {α : Type}

section Set

variable {l : List α} {i j : Nat} {x y z : α}

theorem getElem?_set_or (hx : l[i]? = some x) (hz : (l.set i y)[j]? = some z) :
    j = i ∧ z = y ∨ j ≠ i ∧ l[j]? = some z := by
  have hi := (List.getElem?_eq_some_iff.mp hx).1
  by_cases hij : j = i
  · subst hij
    rw [getElem?_set_self hi] at hz
    exact .inl ⟨rfl, (Option.some.inj hz).symm⟩
  · rw [getElem?_set_ne (Ne.symm hij)] at hz
    exact .inr ⟨hij, hz⟩

/-- An element that is not the old one stays. -/
theorem getElem?_set_other (hx : l[i]? = some x) (hz : l[j]? = some z) (hne : x ≠ z) :
    (l.set i y)[j]? = some z := by
  rw [getElem?_set_ne, hz]
  rintro rfl
  exact hne (Option.some.inj (hx.symm.trans hz))

/-- What holds of all elements and of the new one holds when it is put in. -/
theorem forall_set {P : Nat → α → Prop} (hx : l[i]? = some x)
    (h : ∀ j z, l[j]? = some z → P j z) (hy : P i y) (j : Nat) (z : α)
    (hz : (l.set i y)[j]? = some z) : P j z := by
  rcases getElem?_set_or hx hz with ⟨rfl, rfl⟩ | ⟨-, hz⟩
  · exact hy
  · exact h j z hz

theorem countP_set_add (p : α → Bool) (hx : l[i]? = some x) :
    (l.set i y).countP p + (if p x then 1 else 0) = l.countP p + (if p y then 1 else 0) := by
  induction l generalizing i with
  | nil => cases hx
  | cons a l ih =>
    cases i with
    | zero =>
      cases hx
      simp only [set_cons_zero, countP_cons]
      omega
    | succ i =>
      have := ih (i := i) hx
      simp only [set_cons_succ, countP_cons]
      omega

end Set

/-- The first place from `i` on whose element has not the property. -/
def skipWhile (p : α → Bool) (l : List α) (i : Nat) : Nat :=
  i + ((l.drop i).takeWhile p).length

variable {p : α → Bool} {l : List α} {i j : Nat} {x : α}

theorem skipWhile_le (hi : i ≤ l.length) : skipWhile p l i ≤ l.length := by
  have hlen := (takeWhile_sublist (l := l.drop i) p).length_le
  rw [length_drop] at hlen
  unfold skipWhile
  omega

theorem lt_length_of_lt_skipWhile (hij : i ≤ j) (hj : j < skipWhile p l i) : j < l.length := by
  have hlen := (takeWhile_sublist (l := l.drop i) p).length_le
  rw [length_drop] at hlen
  unfold skipWhile at hj
  omega

/-- What the cursor has moved over has the property. -/
theorem of_lt_skipWhile (hij : i ≤ j) (hj : j < skipWhile p l i) (hx : l[j]? = some x) : p x := by
  obtain ⟨rest, hrest⟩ := takeWhile_prefix p (l := l.drop i)
  have hget : (l.drop i)[j - i]? = some x := by
    rw [getElem?_drop, Nat.add_sub_cancel' hij]
    exact hx
  unfold skipWhile at hj
  rw [← hrest, getElem?_append_left (by omega)] at hget
  exact mem_takeWhile_imp (mem_of_getElem? hget)

/-- The cursor does not move past an element without the property. -/
theorem skipWhile_le_of (hij : i ≤ j) (hx : l[j]? = some x) (hp : ¬p x) : skipWhile p l i ≤ j := by
  by_contra hlt
  exact hp (of_lt_skipWhile hij (by omega) hx)

/-- Where the cursor stops the property fails. -/
theorem skipWhile_stop (hx : l[skipWhile p l i]? = some x) : ¬p x := by
  unfold skipWhile at hx
  rw [← getElem?_drop] at hx
  generalize l.drop i = l' at hx
  induction l' with
  | nil => cases hx
  | cons a l' ih =>
    by_cases ha : p a
    · rw [takeWhile_cons_of_pos ha] at hx
      exact ih hx
    · rw [takeWhile_cons_of_neg ha] at hx
      cases hx
      exact ha

end Tdlib.Lib
