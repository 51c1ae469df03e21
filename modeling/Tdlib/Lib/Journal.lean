import Mathlib

/-!
# A journal with checkpoints

A journal is a list of records. Events are added under an id, rewritten and erased,
and from time to time a state is saved. After a crash some beginning of the journal
is left: the state that was saved last and the events that live.

Events and states have a rank. `reached` is the highest rank that is found after a
crash. The point of this module is one rule for the writer: as long as an event is
erased only when the saved state has its rank, **nothing that was reached is lost by
what is written later**, so that every longer beginning reaches at least as far.
-/

namespace Tdlib.Lib

open List

/-- What is written to a journal. -/
inductive Record (ε σ : Type*) where
  | add (id : Nat) (event : ε)
  | rewrite (id : Nat) (event : ε)
  | erase (id : Nat)
  | save (state : σ)
deriving DecidableEq

namespace Journal

variable {ε σ : Type*}

/-- The events that live after one more record. -/
def applyLive (l : List (Nat × ε)) : Record ε σ → List (Nat × ε)
  | .add id event => l ++ [(id, event)]
  | .rewrite id event => l.map fun p => if p.1 = id then (id, event) else p
  | .erase id => l.filter fun p => p.1 ≠ id
  | .save _ => l

/-- The events that live, in the order in which they were added. -/
def live (rs : List (Record ε σ)) : List (Nat × ε) := rs.foldl applyLive []

def applySaved (s : σ) : Record ε σ → σ
  | .save state => state
  | _ => s

/-- The state that was saved last, at first `s`. -/
def saved (s : σ) (rs : List (Record ε σ)) : σ := rs.foldl applySaved s

variable {rs : List (Record ε σ)} {r : Record ε σ} {s : σ}

@[simp] theorem live_concat : live (rs ++ [r]) = applyLive (live rs) r := by
  rw [live, foldl_append]
  rfl

@[simp] theorem saved_concat : saved s (rs ++ [r]) = applySaved (saved s rs) r := by
  rw [saved, foldl_append]
  rfl

/-- Events are erased one after the other. -/
theorem live_erase_all (rs : List (Record ε σ)) (ids : List Nat) :
    live (rs ++ ids.map .erase) = (live rs).filter fun p => p.1 ∉ ids := by
  induction ids using reverseRecOn with
  | nil =>
    rw [map_nil, append_nil]
    exact (filter_eq_self.mpr fun p _ => decide_eq_true not_mem_nil).symm
  | append_singleton ids id ih =>
    rw [map_append, ← append_assoc, map_singleton, live_concat, ih]
    show filter _ (filter _ _) = _
    simp [and_comm]

/-- An event that lives has been written. -/
theorem mem_live {p : Nat × ε} (h : p ∈ live rs) :
    .add p.1 p.2 ∈ rs ∨ .rewrite p.1 p.2 ∈ rs := by
  induction rs using reverseRecOn with
  | nil => cases h
  | append_singleton rs r ih =>
    have hold : p ∈ live rs → .add p.1 p.2 ∈ rs ++ [r] ∨ .rewrite p.1 p.2 ∈ rs ++ [r] := fun h =>
      (ih h).imp (mem_append_left _) (mem_append_left _)
    rw [live_concat] at h
    cases r with
    | add id event =>
      rcases mem_append.mp h with h | h
      · exact hold h
      · obtain rfl := mem_singleton.mp h
        exact .inl (mem_append_right _ (mem_singleton_self _))
    | rewrite id event =>
      obtain ⟨p', hp', heq⟩ := mem_map.mp h
      split at heq
      · subst heq
        exact .inr (mem_append_right _ (mem_singleton_self _))
      · subst heq
        exact hold hp'
    | erase id => exact hold (mem_filter.mp h).1
    | save state => exact hold h

/-- The saved state has been written. -/
theorem saved_mem : saved s rs = s ∨ .save (saved s rs) ∈ rs := by
  induction rs using reverseRecOn with
  | nil => exact .inl rfl
  | append_singleton rs r ih =>
    rw [saved_concat]
    cases r with
    | save state => exact .inr (mem_append_right _ (mem_singleton_self _))
    | add | rewrite | erase => exact ih.imp id (mem_append_left _)

section Rank

variable (rank : ε → Int) (rankOf : σ → Int) (s : σ)

/-- How far a journal reaches. -/
def reached (rs : List (Record ε σ)) : Int :=
  (live rs).foldl (fun i p => max i (rank p.2)) (rankOf (saved s rs))

/-- The record may be written. -/
def Fits (rs : List (Record ε σ)) : Record ε σ → Prop
  | .add _ _ => True
  | .rewrite id event =>
    (∃ p ∈ live rs, p.1 = id) ∧ ∀ p ∈ live rs, p.1 = id → rank p.2 = rank event
  | .erase id => ∀ p ∈ live rs, p.1 = id → rank p.2 ≤ rankOf (saved s rs)
  | .save state => rankOf (saved s rs) ≤ rankOf state

/-- The rank that is written, if one is. -/
def rankOfRecord? : Record ε σ → Option Int
  | .add _ event => some (rank event)
  | .rewrite _ event => some (rank event)
  | .erase _ => none
  | .save state => some (rankOf state)

/-- Every record was allowed when it was written. -/
def Steady (rs : List (Record ε σ)) : Prop :=
  ∀ (k : Nat) (r : Record ε σ), rs[k]? = some r → Fits rank rankOf s (rs.take k) r

end Rank

variable {rank : ε → Int} {rankOf : σ → Int} {i : Int}

theorem le_foldl_max {l : List (Nat × ε)} {j : Int} :
    i ≤ l.foldl (fun i p => max i (rank p.2)) j ↔ i ≤ j ∨ ∃ p ∈ l, i ≤ rank p.2 := by
  induction l generalizing j with
  | nil => simp
  | cons p l ih =>
    rw [foldl_cons, ih, le_max_iff, or_assoc]
    simp

theorem le_reached :
    i ≤ reached rank rankOf s rs ↔ i ≤ rankOf (saved s rs) ∨ ∃ p ∈ live rs, i ≤ rank p.2 :=
  le_foldl_max

variable (rank rankOf s rs) in
/-- What is reached is the rank of the saved state or of an event that lives. -/
theorem reached_eq :
    reached rank rankOf s rs = rankOf (saved s rs) ∨
      ∃ p ∈ live rs, reached rank rankOf s rs = rank p.2 := by
  have hsaved : rankOf (saved s rs) ≤ reached rank rankOf s rs := le_reached.mpr (.inl le_rfl)
  rcases le_reached.mp (le_refl (reached rank rankOf s rs)) with h | ⟨p, hp, h⟩
  · exact .inl (le_antisymm h hsaved)
  · exact .inr ⟨p, hp, le_antisymm h (le_reached.mpr (.inr ⟨p, hp, le_rfl⟩))⟩

/-- The saved state does not go back. -/
theorem Fits.saved_le (h : Fits rank rankOf s rs r) :
    rankOf (saved s rs) ≤ rankOf (saved s (rs ++ [r])) := by
  rw [saved_concat]
  cases r with
  | save state => exact h
  | add | rewrite | erase => exact le_rfl

/-- **A record that may be written loses nothing.** -/
theorem Fits.reached_le (h : Fits rank rankOf s rs r) :
    reached rank rankOf s rs ≤ reached rank rankOf s (rs ++ [r]) := by
  rcases reached_eq rs s rank rankOf with heq | ⟨p, hp, heq⟩
  · rw [heq]
    exact le_reached.mpr (.inl h.saved_le)
  rw [heq, le_reached, live_concat]
  cases r with
  | add id event => exact .inr ⟨p, mem_append_left _ hp, le_rfl⟩
  | rewrite id event =>
    refine .inr ⟨if p.1 = id then (id, event) else p, mem_map_of_mem hp, ?_⟩
    split
    · exact le_of_eq (h.2 p hp ‹_›)
    · exact le_rfl
  | erase id =>
    by_cases hid : p.1 = id
    · exact .inl ((h p hp hid).trans_eq (by rw [saved_concat]; rfl))
    · exact .inr ⟨p, mem_filter.mpr ⟨hp, by simpa using hid⟩, le_rfl⟩
  | save state => exact .inr ⟨p, hp, le_rfl⟩

/-- A record is found by itself. -/
theorem Fits.rank_le (h : Fits rank rankOf s rs r) (hr : rankOfRecord? rank rankOf r = some i) :
    i ≤ reached rank rankOf s (rs ++ [r]) := by
  rw [le_reached, live_concat, saved_concat]
  cases r with
  | add id event =>
    cases hr
    exact .inr ⟨(id, event), mem_append_right _ (mem_singleton_self _), le_rfl⟩
  | rewrite id event =>
    cases hr
    obtain ⟨⟨p, hp, hid⟩, -⟩ := h
    refine .inr ⟨(id, event), mem_map.mpr ⟨p, hp, if_pos hid⟩, le_rfl⟩
  | erase id => cases hr
  | save state =>
    cases hr
    exact .inl le_rfl

theorem Steady.nil : Steady rank rankOf s [] := nofun

section

variable (h : Steady rank rankOf s rs)
include h

theorem Steady.concat (hr : Fits rank rankOf s rs r) : Steady rank rankOf s (rs ++ [r]) := by
  intro k r' hk
  rcases lt_trichotomy k rs.length with hlt | rfl | hgt
  · rw [getElem?_append_left hlt] at hk
    rw [take_append_of_le_length (le_of_lt hlt)]
    exact h k r' hk
  · rw [getElem?_concat_length] at hk
    cases hk
    rw [take_left']
    · exact hr
    · rfl
  · rw [getElem?_eq_none (by simp; omega)] at hk
    cases hk

/-- A crash leaves a beginning. -/
theorem Steady.take (n : Nat) : Steady rank rankOf s (rs.take n) := by
  intro k r hk
  rw [getElem?_take] at hk
  split at hk
  · rw [take_take, min_eq_left (by omega)]
    exact h k r hk
  · cases hk

/-- **Every longer beginning reaches at least as far.** -/
theorem Steady.reached_mono {k l : Nat} (hle : k ≤ l) :
    reached rank rankOf s (rs.take k) ≤ reached rank rankOf s (rs.take l) := by
  induction l with
  | zero => rw [Nat.le_zero.mp hle]
  | succ l ih =>
    rcases lt_or_eq_of_le hle with hlt | rfl
    · refine (ih (Nat.le_of_lt_succ hlt)).trans ?_
      rw [take_add_one]
      cases hr : rs[l]? with
      | none => simp
      | some r => exact (h l r hr).reached_le
    · exact le_rfl

/-- Everything that was written is found. -/
theorem Steady.rank_le {k n : Nat} (hr : rs[k]? = some r) (hk : k < n)
    (hi : rankOfRecord? rank rankOf r = some i) : i ≤ reached rank rankOf s (rs.take n) := by
  refine le_trans ?_ (h.reached_mono hk)
  rw [take_add_one, hr]
  exact (h k r hr).rank_le hi

end

end Journal

end Tdlib.Lib
