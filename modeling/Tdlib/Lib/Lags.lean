import Mathlib

/-!
# A copy that lags behind

A value that only grows belongs to one party. It is sent over a first-in-first-out channel to
another party, which keeps the last value it received. The copy lags behind the value, and every
value under way is between the two, in the order in which it was sent.
-/

namespace Tdlib.Lib

open List

variable {α : Type*} [Preorder α]

/-- The copy `received` lags behind the value `current`, with the values `inFlight` under way, the
oldest first. -/
structure Lags (received : α) (inFlight : List α) (current : α) : Prop where
  sorted : (received :: inFlight).Pairwise (· ≤ ·)
  bounded : ∀ x ∈ received :: inFlight, x ≤ current

namespace Lags

variable {received current current' : α} {inFlight : List α}

theorem refl (a : α) : Lags a [] a :=
  ⟨pairwise_singleton _ _, fun _ hx => (mem_singleton.mp hx).le⟩

theorem le (h : Lags received inFlight current) : received ≤ current :=
  h.bounded received mem_cons_self

/-- The value grows. -/
theorem grow (h : Lags received inFlight current) (hle : current ≤ current') :
    Lags received inFlight current' :=
  ⟨h.sorted, fun x hx => (h.bounded x hx).trans hle⟩

section

variable {x : α} (h : Lags received (x :: inFlight) current)
include h

/-- The oldest value arrives. -/
theorem receive : Lags x inFlight current :=
  ⟨h.sorted.tail, (forall_mem_cons.1 h.bounded).2⟩

theorem received_le : received ≤ x :=
  (pairwise_cons.mp h.sorted).1 x mem_cons_self

/-- The oldest value is lost. -/
theorem lose : Lags received inFlight current := by
  have hsub : (received :: inFlight).Sublist (received :: x :: inFlight) :=
    (sublist_cons_self x inFlight).cons_cons received
  exact ⟨h.sorted.sublist hsub, fun y hy => h.bounded y (hsub.subset hy)⟩

end

/-- The value grows, and is sent while it does. -/
theorem trans {sent : List α} (h : Lags received inFlight current)
    (h' : Lags current sent current') : Lags received (inFlight ++ sent) current' := by
  have hsent : ∀ x ∈ sent, current ≤ x := (pairwise_cons.mp h'.sorted).1
  constructor
  · rw [← cons_append, pairwise_append]
    refine ⟨h.sorted, h'.sorted.tail, ?_⟩
    intro x hx y hy
    exact (h.bounded x hx).trans (hsent y hy)
  · intro x hx
    rw [← cons_append, mem_append] at hx
    rcases hx with hx | hx
    · exact (h.bounded x hx).trans h'.le
    · exact h'.bounded x (mem_cons_of_mem _ hx)

/-- The value grows and is sent. -/
theorem step (hle : current ≤ current') : Lags current [current'] current' := by
  constructor
  · rw [pairwise_cons]
    refine ⟨?_, pairwise_singleton _ _⟩
    intro x hx
    rw [mem_singleton.mp hx]
    exact hle
  · intro x hx
    rcases mem_cons.mp hx with rfl | hx
    · exact hle
    · exact (mem_singleton.mp hx).le

theorem send (h : Lags received inFlight current) : Lags received (inFlight ++ [current]) current :=
  h.trans (step le_rfl)

end Lags

end Tdlib.Lib
