import Tdlib.Lib.LowerBound

/-!
# Message identifiers are accepted once

A client remembers the identifiers of the last messages, in a sorted array of
twice the size it needs. When the array is full, its lower half is forgotten. An
identifier below everything in the array might be one of those, so it is refused
as soon as enough are stored.

The argument: what was accepted and is not stored lies below everything that is
stored, and at least `maxSize` identifiers are stored then. From this point on the
smallest stored identifier can only go up.
-/

namespace Tdlib.Mtproto

open Lib List

/-- The errors, with the identifiers their texts show. -/
inductive MessageIdError where
  /-- "Ignore very old message_id", code 2. -/
  | veryOld (oldest got : Int)
  /-- "Ignore duplicated message_id", code 1. -/
  | duplicated (messageId : Int)
deriving DecidableEq

/-- A full array is cut down to its upper half. -/
def compact (maxSize : Nat) (saved : List Int) : List Int :=
  if saved.length = 2 * maxSize then saved.drop maxSize else saved

/-- The check after the compaction. -/
def insertMessageId (maxSize : Nat) (saved : List Int) (messageId : Int) :
    List Int × Except MessageIdError Unit :=
  match saved.head?, saved.getLast? with
  | some oldest, some newest =>
    if messageId > newest then (saved ++ [messageId], .ok ())
    else if saved.length ≥ maxSize ∧ messageId < oldest then
      (saved, .error (.veryOld oldest messageId))
    else
      let it := lowerBound saved messageId
      if saved[it]? = some messageId then (saved, .error (.duplicated messageId))
      else (saved.take it ++ messageId :: saved.drop it, .ok ())
  | _, _ => ([messageId], .ok ())

/-- The list is the used part of the array. -/
def checkMessageIdDuplicates (maxSize : Nat) (saved : List Int) (messageId : Int) :
    List Int × Except MessageIdError Unit :=
  insertMessageId maxSize (compact maxSize saved) messageId

/-! ## One check -/

variable {maxSize : Nat} {saved accepted : List Int} {id : Int}

/-- Identifiers that are refused. -/
def Refused (maxSize : Nat) (saved : List Int) (id : Int) : Prop :=
  id ∈ saved ∨ maxSize ≤ saved.length ∧ ∀ x ∈ saved, id < x

/-- A sorted list splits at every identifier. -/
theorem split_at (hsorted : saved.Pairwise (· < ·)) (id : Int) :
    ∃ below above, saved = below ++ above ∧ (∀ x ∈ below, x < id) ∧ ∀ x ∈ above, ¬ x < id := by
  induction saved with
  | nil => exact ⟨[], [], rfl, by simp, by simp⟩
  | cons y saved ih =>
    obtain ⟨hy, hsorted⟩ := pairwise_cons.mp hsorted
    by_cases hlt : y < id
    · obtain ⟨below, above, rfl, hbelow, habove⟩ := ih hsorted
      refine ⟨y :: below, above, rfl, fun x hx => ?_, habove⟩
      rcases mem_cons.mp hx with rfl | hx
      · exact hlt
      · exact hbelow x hx
    · refine ⟨[], y :: saved, rfl, by simp, fun x hx => ?_⟩
      rcases mem_cons.mp hx with rfl | hx
      · exact hlt
      · have := hy x hx
        omega

theorem le_newest {newest : Int} (hsorted : saved.Pairwise (· < ·))
    (h : saved.getLast? = some newest) {x : Int} (hx : x ∈ saved) : x ≤ newest := by
  obtain ⟨front, rfl⟩ := getLast?_eq_some_iff.mp h
  rcases mem_append.mp hx with hx | hx
  · exact le_of_lt ((pairwise_append.mp hsorted).2.2 x hx newest mem_cons_self)
  · exact le_of_eq (mem_singleton.mp hx)

/-- **An identifier is refused, or it is stored at its place.** -/
theorem insertMessageId_cases (hsize : 1 ≤ maxSize) (hsorted : saved.Pairwise (· < ·)) (id : Int) :
    (Refused maxSize saved id ∧ ∃ e, insertMessageId maxSize saved id = (saved, .error e)) ∨
    (¬ Refused maxSize saved id ∧ ∃ below above, saved = below ++ above ∧ (∀ x ∈ below, x < id) ∧
      (∀ x ∈ above, id < x) ∧
      insertMessageId maxSize saved id = (below ++ id :: above, .ok ())) := by
  cases hsaved : saved with
  | nil =>
    refine .inr ⟨?_, [], [], rfl, by simp, by simp, rfl⟩
    rintro (h | ⟨h, -⟩)
    · cases h
    · rw [length_nil] at h
      omega
  | cons oldest later =>
    rw [← hsaved]
    obtain ⟨newest, hnewest⟩ : ∃ newest, saved.getLast? = some newest :=
      ⟨_, getLast?_eq_some_getLast (by simp [hsaved])⟩
    have holdest : saved.head? = some oldest := by rw [hsaved]; rfl
    unfold insertMessageId
    rw [holdest, hnewest]
    dsimp only
    by_cases hnew : id > newest
    · -- the fast path
      have hlt : ∀ x ∈ saved, x < id := fun x hx => by
        have := le_newest hsorted hnewest hx
        omega
      rw [if_pos hnew]
      refine .inr ⟨?_, saved, [], (append_nil _).symm, hlt, by simp, rfl⟩
      rintro (h | ⟨-, h⟩)
      · exact absurd (hlt id h) (by omega)
      · have := h newest (mem_of_getLast? hnewest)
        omega
    rw [if_neg hnew]
    by_cases hold : saved.length ≥ maxSize ∧ id < oldest
    · rw [if_pos hold]
      refine .inl ⟨.inr ⟨hold.1, fun x hx => ?_⟩, _, rfl⟩
      rw [hsaved] at hx hsorted
      rcases mem_cons.mp hx with rfl | hx
      · exact hold.2
      · exact lt_trans hold.2 ((pairwise_cons.mp hsorted).1 x hx)
    rw [if_neg hold]
    obtain ⟨below, above, hsplit, hbelow, habove⟩ := split_at hsorted id
    have hit : lowerBound saved id = below.length := by
      rw [hsplit]
      exact lowerBound_append hbelow habove
    rw [hit]
    have hget : saved[below.length]? = above.head? := by
      rw [hsplit, getElem?_append_right le_rfl, Nat.sub_self, head?_eq_getElem?]
    rw [hget]
    by_cases hdup : above.head? = some id
    · rw [if_pos hdup]
      refine .inl ⟨.inl ?_, _, rfl⟩
      rw [hsplit]
      exact mem_append_right _ (mem_of_head? hdup)
    rw [if_neg hdup]
    have hgt : ∀ x ∈ above, id < x := by
      have habove_sorted : above.Pairwise (· < ·) :=
        (pairwise_append.mp (hsplit ▸ hsorted)).2.1
      intro x hx
      cases above with
      | nil => cases hx
      | cons y above =>
        have hy := habove y mem_cons_self
        have hne : y ≠ id := fun heq => hdup (by rw [heq]; rfl)
        rcases mem_cons.mp hx with rfl | hx
        · omega
        · have := (pairwise_cons.mp habove_sorted).1 x hx
          omega
    refine .inr ⟨?_, below, above, hsplit, hbelow, hgt, ?_⟩
    · rintro (h | ⟨hlen, h⟩)
      · rw [hsplit] at h
        rcases mem_append.mp h with h | h
        · exact absurd (hbelow id h) (by omega)
        · exact absurd (hgt id h) (by omega)
      · exact hold ⟨hlen, h oldest (mem_of_head? holdest)⟩
    · rw [hsplit, take_left, drop_left]

/-! ## All identifiers -/

/-- The stored identifiers and those that were accepted so far. -/
structure MessageIds where
  saved : List Int
  accepted : List Int
deriving DecidableEq

def MessageIds.check (maxSize : Nat) (s : MessageIds) (id : Int) : MessageIds :=
  match checkMessageIdDuplicates maxSize s.saved id with
  | (saved, .ok ()) => ⟨saved, s.accepted ++ [id]⟩
  | (saved, .error _) => ⟨saved, s.accepted⟩

def MessageIds.run (maxSize : Nat) (ids : List Int) : MessageIds :=
  ids.foldl (MessageIds.check maxSize) ⟨[], []⟩

/-- What is not stored any more lies below everything that is. -/
structure Remembers (maxSize : Nat) (s : MessageIds) : Prop where
  sorted : s.saved.Pairwise (· < ·)
  le_size : s.saved.length ≤ 2 * maxSize
  stored : ∀ x ∈ s.saved, x ∈ s.accepted
  /-- Ids are forgotten from below, and only by a full list. -/
  forgotten : ∀ x ∈ s.accepted, x ∉ s.saved →
    maxSize ≤ s.saved.length ∧ ∀ y ∈ s.saved, x < y
  once : s.accepted.Nodup

theorem Remembers.empty : Remembers maxSize ⟨[], []⟩ where
  sorted := .nil
  le_size := Nat.zero_le _
  stored _ h := h
  forgotten _ h := absurd h not_mem_nil
  once := .nil

variable {s : MessageIds}

/-- The lower half is forgotten. -/
theorem Remembers.compact (h : Remembers maxSize s) :
    Remembers maxSize ⟨compact maxSize s.saved, s.accepted⟩ ∧
      (1 ≤ maxSize → (Mtproto.compact maxSize s.saved).length < 2 * maxSize) := by
  unfold Mtproto.compact
  split
  · have hlen : (s.saved.drop maxSize).length = maxSize := by
      rw [length_drop]
      omega
    refine ⟨?_, fun hsize => by omega⟩
    exact {
      sorted := h.sorted.sublist (drop_sublist ..)
      le_size := by
        show (s.saved.drop maxSize).length ≤ _
        omega
      stored := fun x hx => h.stored x (mem_of_mem_drop hx)
      forgotten := by
        intro x hx hnot
        refine ⟨Nat.le_of_eq hlen.symm, fun y hy => ?_⟩
        by_cases hin : x ∈ s.saved
        · -- it was in the lower half
          rw [← take_append_drop maxSize s.saved] at hin
          have hlow := (mem_append.mp hin).resolve_right hnot
          have hsorted := h.sorted
          rw [← take_append_drop maxSize s.saved] at hsorted
          exact (pairwise_append.mp hsorted).2.2 x hlow y hy
        · exact (h.forgotten x hx hin).2 y (mem_of_mem_drop hy)
      once := h.once }
  · refine ⟨h, fun _ => ?_⟩
    have := h.le_size
    omega

/-- **One check.** -/
theorem Remembers.check (hsize : 1 ≤ maxSize) (h : Remembers maxSize s) (id : Int) :
    Remembers maxSize (s.check maxSize id) := by
  obtain ⟨hcompact, hfree⟩ := h.compact
  unfold MessageIds.check checkMessageIdDuplicates
  generalize Mtproto.compact maxSize s.saved = saved at hcompact hfree
  have hsorted : saved.Pairwise (· < ·) := hcompact.sorted
  have hforgotten : ∀ x ∈ s.accepted, x ∉ saved → maxSize ≤ saved.length ∧ ∀ y ∈ saved, x < y :=
    hcompact.forgotten
  rcases insertMessageId_cases hsize hsorted id with
    ⟨-, e, heq⟩ | ⟨haccept, below, above, hsplit, hbelow, habove, heq⟩
  · rw [heq]
    exact hcompact
  rw [heq]
  have hmem : ∀ x, x ∈ below ++ id :: above ↔ x = id ∨ x ∈ saved := fun x => by
    rw [hsplit, mem_append, mem_cons, mem_append]
    exact or_left_comm
  have hlen : (below ++ id :: above).length = saved.length + 1 := by
    rw [hsplit, length_append, length_append, length_cons]
    omega
  rw [hsplit] at hsorted
  obtain ⟨hbelow_sorted, habove_sorted, hacross⟩ := pairwise_append.mp hsorted
  exact {
    sorted := by
      refine pairwise_append.mpr ⟨hbelow_sorted, pairwise_cons.mpr ⟨habove, habove_sorted⟩,
        fun x hx y hy => ?_⟩
      rcases mem_cons.mp hy with rfl | hy
      · exact hbelow x hx
      · exact hacross x hx y hy
    le_size := by
      show (below ++ id :: above).length ≤ _
      omega
    stored := by
      intro x hx
      rcases (hmem x).mp hx with rfl | hx
      · exact mem_append_right _ mem_cons_self
      · exact mem_append_left _ (hcompact.stored x hx)
    forgotten := by
      intro x hx hnot
      have hnot : x ≠ id ∧ x ∉ saved := not_or.mp fun hin => hnot ((hmem x).mpr hin)
      have hx : x ∈ s.accepted := (mem_append.mp hx).resolve_right
        fun hid => hnot.1 (mem_singleton.mp hid)
      obtain ⟨hfull, hlow⟩ := hforgotten x hx hnot.2
      refine ⟨by show maxSize ≤ (below ++ id :: above).length; omega, fun y hy => ?_⟩
      rcases (hmem y).mp hy with rfl | hy
      · -- the new identifier is not below everything
        by_contra hle
        exact haccept (.inr ⟨hfull, fun z hz => by have := hlow z hz; omega⟩)
      · exact hlow y hy
    once := by
      refine nodup_append.mpr ⟨h.once, by simp, fun x hx y hy heq => ?_⟩
      rw [heq, mem_singleton.mp hy] at hx
      by_cases hin : id ∈ saved
      · exact haccept (.inl hin)
      · exact haccept (.inr (hforgotten id hx hin)) }

theorem remembers_run (hsize : 1 ≤ maxSize) (ids : List Int) :
    Remembers maxSize (MessageIds.run maxSize ids) := by
  induction ids using reverseRecOn with
  | nil => exact .empty
  | append_singleton ids id ih =>
    rw [MessageIds.run, foldl_append]
    exact ih.check hsize id

/-- What is among the `maxSize` largest identifiers is stored. -/
theorem Remembers.largest (h : Remembers maxSize s) {x : Int} (hx : x ∈ s.accepted)
    (hlargest : (s.accepted.filter (x < ·)).length < maxSize) : x ∈ s.saved := by
  by_contra hnot
  obtain ⟨hfull, hlow⟩ := h.forgotten x hx hnot
  have hsub : s.saved ⊆ s.accepted.filter (x < ·) := fun y hy =>
    mem_filter.mpr ⟨h.stored y hy, decide_eq_true (hlow y hy)⟩
  have hnodup : s.saved.Nodup := h.sorted.imp ne_of_lt
  have := (subperm_of_subset hnodup hsub).length_le
  omega

/-- Whether an identifier would be refused now. -/
def MessageIds.refuses (maxSize : Nat) (s : MessageIds) (id : Int) : Bool :=
  match (checkMessageIdDuplicates maxSize s.saved id).2 with
  | .ok _ => false
  | .error _ => true

/-- **A message is accepted at most once.** After any identifiers, the stored ones are sorted and at
most twice as many as needed, none was accepted twice, and the largest ones are stored. The next
identifier is refused exactly if it is in the array as the check finds it after making room, or
below everything in it when enough are stored. -/
theorem accepted_once (hsize : 1 ≤ maxSize) (ids : List Int) :
    (MessageIds.run maxSize ids).saved.Pairwise (· < ·) ∧
    (MessageIds.run maxSize ids).saved.length ≤ 2 * maxSize ∧
    (MessageIds.run maxSize ids).accepted.Nodup ∧
    (∀ x ∈ (MessageIds.run maxSize ids).accepted,
      ((MessageIds.run maxSize ids).accepted.filter (x < ·)).length < maxSize →
        x ∈ (MessageIds.run maxSize ids).saved) ∧
    ∀ id, (MessageIds.run maxSize ids).refuses maxSize id = true ↔
      Refused maxSize (compact maxSize (MessageIds.run maxSize ids).saved) id := by
  have h := remembers_run hsize ids
  refine ⟨h.sorted, h.le_size, h.once, fun x hx => h.largest hx, fun id => ?_⟩
  rw [MessageIds.refuses, checkMessageIdDuplicates]
  rcases insertMessageId_cases hsize h.compact.1.sorted id with
    ⟨hrefused, e, heq⟩ | ⟨haccept, below, above, -, -, -, heq⟩
  · rw [heq]
    exact ⟨fun _ => hrefused, fun _ => rfl⟩
  · rw [heq]
    exact ⟨nofun, fun hrefused => absurd hrefused haccept⟩

/-- Five identifiers are accepted, and the first one comes again after it was forgotten. -/
theorem accepted_once_two :
    MessageIds.run 2 [5, 3, 9, 7, 11, 5] = ⟨[7, 9, 11], [5, 3, 9, 7, 11]⟩ ∧
    (MessageIds.run 2 [5, 3, 9, 7, 11, 5]).accepted.Nodup :=
  ⟨by decide, (accepted_once (by decide) _).2.2.1⟩

/-- With room for two, 2 is refused between 1 and 3: the 1 is forgotten before the check. -/
theorem refused_in_between :
    (MessageIds.run 1 [1, 3]).saved = [1, 3] ∧ (MessageIds.run 1 [1, 3]).refuses 1 2 = true ∧
    ¬ Refused 1 (MessageIds.run 1 [1, 3]).saved 2 := by
  refine ⟨by decide, by decide, ?_⟩
  rintro (h | ⟨-, h⟩)
  · exact absurd h (by decide)
  · exact absurd (h 1 (by decide)) (by decide)

end Tdlib.Mtproto
