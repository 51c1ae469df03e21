import Mathlib

/-!
# `std::map` and `std::set`

An ordered container is the list of its elements, which increases strictly in a
key of the elements. A map keeps the key beside the value or inside of it; a set
is its own key.

What follows is said about the list: where an element goes, that everything else
stays in place, and that the two lists before and after have the same elements
otherwise.
-/

namespace Tdlib.Lib

open List

variable {α κ : Type*} [LinearOrder κ] {key : α → κ}

/-- The elements of a container, in the order of their keys. -/
@[ext]
structure Ordered (key : α → κ) where
  toList : List α
  sorted : toList.Pairwise fun a b => key a < key b
deriving DecidableEq

namespace Ordered

variable {m : Ordered key} {a b : α} {k : κ}

def empty (key : α → κ) : Ordered key := ⟨[], .nil⟩

def find? (m : Ordered key) (k : κ) : Option α := m.toList.find? fun a => key a = k

/-- The element takes the place of the one with its key, if there is one. -/
def insertList (key : α → κ) (a : α) : List α → List α
  | [] => [a]
  | b :: l =>
    if key a < key b then a :: b :: l
    else if key b < key a then b :: insertList key a l
    else a :: l

variable {l : List α}

theorem mem_insertList (h : b ∈ insertList key a l) : b = a ∨ b ∈ l := by
  induction l with
  | nil => exact .inl (mem_singleton.mp h)
  | cons c l ih =>
    rw [insertList] at h
    split at h
    · exact mem_cons.mp h
    split at h
    · rcases mem_cons.mp h with rfl | h
      · exact .inr mem_cons_self
      · exact (ih h).imp_right (mem_cons_of_mem _)
    · exact (mem_cons.mp h).imp_right (mem_cons_of_mem _)

theorem pairwise_insertList (h : l.Pairwise fun a b => key a < key b) :
    (insertList key a l).Pairwise fun a b => key a < key b := by
  induction l with
  | nil => exact pairwise_singleton _ _
  | cons c l ih =>
    obtain ⟨hc, hl⟩ := pairwise_cons.mp h
    rw [insertList]
    split
    · rename_i hlt
      refine pairwise_cons.mpr ⟨fun b hb => ?_, h⟩
      rcases mem_cons.mp hb with rfl | hb
      · exact hlt
      · exact lt_trans hlt (hc b hb)
    rename_i hge
    split
    · rename_i hlt
      refine pairwise_cons.mpr ⟨fun b hb => ?_, ih hl⟩
      rcases mem_insertList hb with rfl | hb
      · exact hlt
      · exact hc b hb
    · rename_i hle
      have heq : key a = key c := le_antisymm (not_lt.mp hle) (not_lt.mp hge)
      exact pairwise_cons.mpr ⟨fun b hb => heq ▸ hc b hb, hl⟩

/-- `m[key] = value`. -/
def insert (m : Ordered key) (a : α) : Ordered key :=
  ⟨insertList key a m.toList, pairwise_insertList m.sorted⟩

/-- `emplace`, with whether the element was inserted. -/
def emplace (m : Ordered key) (a : α) : Ordered key × Bool :=
  if (m.find? (key a)).isSome then (m, false) else (m.insert a, true)

def erase (m : Ordered key) (k : κ) : Ordered key :=
  ⟨m.toList.filter fun a => key a ≠ k, m.sorted.filter _⟩

/-- From `lower_bound` to the end. -/
def lowerBound (m : Ordered key) (k : κ) : List α := m.toList.dropWhile fun a => key a < k

/-- Everything before `lower_bound` is erased. -/
def eraseBelow (m : Ordered key) (k : κ) : Ordered key :=
  ⟨m.lowerBound k, m.sorted.sublist (dropWhile_sublist _)⟩

/-! ## Keys -/

theorem nodup_keys (m : Ordered key) : (m.toList.map key).Nodup :=
  pairwise_map.mpr (m.sorted.imp ne_of_lt)

theorem nodup (m : Ordered key) : m.toList.Nodup := .of_map key m.nodup_keys

/-- An element is known by its key. -/
theorem eq_of_key (ha : a ∈ m.toList) (hb : b ∈ m.toList) (h : key a = key b) : a = b :=
  inj_on_of_nodup_map m.nodup_keys ha hb h

theorem find?_eq_some : m.find? k = some a ↔ a ∈ m.toList ∧ key a = k := by
  constructor
  · intro h
    exact ⟨mem_of_find?_eq_some h, by simpa using find?_some h⟩
  rintro ⟨ha, rfl⟩
  cases h : m.find? (key a) with
  | none => exact absurd (find?_eq_none.mp h a ha) (by simp)
  | some b =>
    have hkey : key b = key a := by simpa using find?_some h
    rw [eq_of_key (mem_of_find?_eq_some h) ha hkey]

theorem find?_eq_none : m.find? k = none ↔ ∀ a ∈ m.toList, key a ≠ k := by
  rw [find?]
  simp

/-! ## Erasing -/

theorem mem_erase : b ∈ (m.erase k).toList ↔ b ∈ m.toList ∧ key b ≠ k := by
  simp [erase]

theorem erase_eq_self (h : ∀ b ∈ m.toList, key b ≠ k) : m.erase k = m :=
  Ordered.ext (filter_eq_self.mpr fun b hb => by simpa using h b hb)

/-- One element goes. -/
theorem perm_erase (ha : a ∈ m.toList) : m.toList.Perm (a :: (m.erase (key a)).toList) := by
  have hne : ∀ l : List α, (∀ b ∈ l, key b ≠ key a) → l.filter (fun b => key b ≠ key a) = l :=
    fun l h => filter_eq_self.mpr fun b hb => by simpa using h b hb
  obtain ⟨l1, l2, hsplit⟩ := append_of_mem ha
  have hsorted := m.sorted
  rw [hsplit] at hsorted
  obtain ⟨_, hright, hcross⟩ := pairwise_append.mp hsorted
  show m.toList.Perm (a :: m.toList.filter fun b => key b ≠ key a)
  rw [hsplit, filter_append, filter_cons_of_neg (by simp),
    hne l1 fun b hb => ne_of_lt (hcross b hb a mem_cons_self),
    hne l2 fun b hb => ne_of_gt ((pairwise_cons.mp hright).1 b hb)]
  exact perm_middle

/-! ## Inserting -/

/-- The element is there, and otherwise what was there under other keys. -/
theorem perm_insert (m : Ordered key) (a : α) :
    (m.insert a).toList.Perm (a :: (m.erase (key a)).toList) := by
  obtain ⟨l, hl⟩ := m
  show (insertList key a l).Perm (a :: l.filter fun b => key b ≠ key a)
  induction l with
  | nil => exact .refl _
  | cons c l ih =>
    obtain ⟨hc, hrest⟩ := pairwise_cons.mp hl
    have habove : key a ≤ key c → l.filter (fun b => key b ≠ key a) = l := fun hle =>
      filter_eq_self.mpr fun b hb => by
        simpa using ne_of_gt (lt_of_le_of_lt hle (hc b hb))
    rw [insertList]
    split
    · rename_i hlt
      rw [filter_cons_of_pos (by simpa using ne_of_gt hlt), habove (le_of_lt hlt)]
    rename_i hge
    split
    · rename_i hlt
      rw [filter_cons_of_pos (by simpa using ne_of_lt hlt)]
      exact ((ih hrest).cons c).trans (.swap _ _ _)
    · rename_i hle
      have heq : key a = key c := le_antisymm (not_lt.mp hle) (not_lt.mp hge)
      rw [filter_cons_of_neg (by simp [heq]), habove (le_of_eq heq)]

theorem mem_insert : b ∈ (m.insert a).toList ↔ b = a ∨ b ∈ m.toList ∧ key b ≠ key a := by
  rw [(perm_insert m a).mem_iff, mem_cons, mem_erase]

theorem mem_emplace (hb : b ∈ m.toList) : b ∈ (m.emplace a).1.toList := by
  unfold emplace
  split
  · exact hb
  · rename_i hnone
    rw [Option.not_isSome_iff_eq_none, find?_eq_none] at hnone
    exact mem_insert.mpr (.inr ⟨hb, hnone b hb⟩)

/-- Above everything else, the element goes to the end. -/
theorem toList_insert_of_lt (h : ∀ b ∈ m.toList, key b < key a) :
    (m.insert a).toList = m.toList ++ [a] := by
  obtain ⟨l, hl⟩ := m
  show insertList key a l = l ++ [a]
  induction l with
  | nil => rfl
  | cons c l ih =>
    have hlt := h c mem_cons_self
    rw [insertList, if_neg (lt_asymm hlt), if_pos hlt,
      ih (pairwise_cons.mp hl).2 (forall_mem_cons.1 h).2]
    rfl

/-- Below everything else, it goes to the front. -/
theorem toList_insert_of_gt (h : ∀ b ∈ m.toList, key a < key b) :
    (m.insert a).toList = a :: m.toList := by
  obtain ⟨l, hl⟩ := m
  cases l with
  | nil => rfl
  | cons c l => exact if_pos (h c mem_cons_self)

/-- The element takes the place of the one with its key. -/
theorem toList_insert_of_mem (hb : b ∈ m.toList) (h : key a = key b) :
    (m.insert a).toList = m.toList.map fun c => if key c = key a then a else c := by
  obtain ⟨l, hl⟩ := m
  show insertList key a l = l.map fun c => if key c = key a then a else c
  induction l with
  | nil => exact absurd hb (not_mem_nil)
  | cons c l ih =>
    obtain ⟨hc, hrest⟩ := pairwise_cons.mp hl
    rw [insertList, map_cons]
    rcases mem_cons.mp hb with rfl | hb
    · rw [if_neg (not_lt_of_ge (le_of_eq h.symm)), if_neg (not_lt_of_ge (le_of_eq h)),
        if_pos h.symm]
      congr 1
      refine (map_id' l).symm.trans (map_congr_left fun d hd => ?_)
      rw [if_neg (h ▸ ne_of_gt (hc d hd))]
    · have hlt : key c < key a := h ▸ hc b hb
      rw [if_neg (lt_asymm hlt), if_pos hlt, if_neg (ne_of_lt hlt), ih hrest hb]

/-! ## Iterating -/

theorem mem_lowerBound : a ∈ m.lowerBound k ↔ a ∈ m.toList ∧ k ≤ key a := by
  obtain ⟨l, hl⟩ := m
  show a ∈ l.dropWhile _ ↔ a ∈ l ∧ _
  induction l with
  | nil => simp
  | cons c l ih =>
    obtain ⟨hc, hrest⟩ := pairwise_cons.mp hl
    rw [dropWhile_cons]
    split
    · rename_i hlt
      have hlt : key c < k := by simpa using hlt
      rw [ih hrest, mem_cons]
      refine and_congr_left fun hk => ⟨.inr, ?_⟩
      rintro (rfl | h)
      · exact absurd hlt (not_lt_of_ge hk)
      · exact h
    · rename_i hge
      have hge : k ≤ key c := by simpa using hge
      refine ⟨fun h => ⟨h, ?_⟩, And.left⟩
      rcases mem_cons.mp h with rfl | h
      · exact hge
      · exact le_of_lt (lt_of_le_of_lt hge (hc a h))

/-- What stands before the lower bound. -/
theorem mem_takeWhile_lt :
    (a ∈ m.toList.takeWhile fun b => key b < k) ↔ a ∈ m.toList ∧ key a < k := by
  constructor
  · intro h
    have hall := all_eq_true.mp all_takeWhile a h
    exact ⟨(takeWhile_sublist _).subset h, by simpa using hall⟩
  rintro ⟨ha, hlt⟩
  have hsplit : m.toList = (m.toList.takeWhile fun b => key b < k) ++ m.lowerBound k :=
    takeWhile_append_dropWhile.symm
  rw [hsplit] at ha
  rcases mem_append.mp ha with h | h
  · exact h
  · exact absurd hlt (not_lt_of_ge (mem_lowerBound.mp h).2)

theorem lowerBound_eq (m : Ordered key) (k : κ) :
    m.lowerBound k = m.toList.filter fun a => k ≤ key a := by
  have hsplit : m.toList = (m.toList.takeWhile fun b => key b < k) ++ m.lowerBound k :=
    takeWhile_append_dropWhile.symm
  have hbefore : (m.toList.takeWhile fun b => key b < k).filter (fun a => k ≤ key a) = [] :=
    filter_eq_nil_iff.mpr fun a ha => by simpa using (mem_takeWhile_lt.mp ha).2
  have hafter : (m.lowerBound k).filter (fun a => k ≤ key a) = m.lowerBound k :=
    filter_eq_self.mpr fun a ha => by simpa using (mem_lowerBound.mp ha).2
  rw [hsplit, filter_append, hbefore, hafter, nil_append]

theorem mem_eraseBelow : a ∈ (m.eraseBelow k).toList ↔ a ∈ m.toList ∧ k ≤ key a := mem_lowerBound

/-- The first element has the least key. -/
theorem le_of_head (h : m.toList = a :: l) (hb : b ∈ m.toList) : key a ≤ key b := by
  have hsorted := m.sorted
  rw [h] at hb hsorted
  rcases mem_cons.mp hb with rfl | hb
  · exact le_rfl
  · exact le_of_lt ((pairwise_cons.mp hsorted).1 b hb)

end Ordered

end Tdlib.Lib
