import Mathlib

/-!
# Machines that go in rounds

A machine makes a round and goes on with another one, or stops with a result. A run is bounded by a
number of rounds. If something decreases in every round that is not the last one, there is always a
result, and it does not depend on the bound.
-/

namespace Tdlib.Lib

variable {σ ρ : Type*}

inductive Round (σ ρ : Type*) where
  | again (s : σ)
  | stop (r : ρ)

/-- At most `n` rounds. -/
def rounds (step : σ → Round σ ρ) : Nat → σ → Option ρ
  | 0, _ => none
  | n + 1, s =>
    match step s with
    | .again s' => rounds step n s'
    | .stop r => some r

/-- The machine stops with the result. -/
inductive Ends (step : σ → Round σ ρ) : σ → ρ → Prop
  | stop {s : σ} {r : ρ} (h : step s = .stop r) : Ends step s r
  | again {s s' : σ} {r : ρ} (h : step s = .again s') (hrest : Ends step s' r) : Ends step s r

variable {step : σ → Round σ ρ} {s s' : σ} {r : ρ} {n : Nat}

theorem rounds_stop (n : Nat) (h : step s = .stop r) : rounds step (n + 1) s = some r := by
  unfold rounds
  rw [h]

theorem rounds_again (n : Nat) (h : step s = .again s') :
    rounds step (n + 1) s = rounds step n s' := by
  conv_lhs => unfold rounds
  rw [h]

theorem Ends.of_rounds (h : rounds step n s = some r) : Ends step s r := by
  induction n generalizing s with
  | zero => cases h
  | succ n ih =>
    cases hstep : step s with
    | again s' =>
      rw [rounds_again n hstep] at h
      exact .again hstep (ih h)
    | stop r' =>
      rw [rounds_stop n hstep] at h
      cases h
      exact .stop hstep

/-- What every round keeps holds when the machine stops. -/
theorem Ends.rule {P : σ → Prop} {Q : ρ → Prop}
    (hagain : ∀ s s', P s → step s = .again s' → P s')
    (hstop : ∀ s r, P s → step s = .stop r → Q r) (h : Ends step s r) (hs : P s) : Q r := by
  induction h with
  | stop hstep => exact hstop _ _ hs hstep
  | again hstep _ ih => exact ih (hagain _ _ hs hstep)

/-- If something decreases, there are rounds enough. -/
theorem rounds_isSome (size : σ → Nat)
    (hsize : ∀ s s', step s = .again s' → size s' < size s) (hn : size s < n) :
    ∃ r, rounds step n s = some r := by
  induction n generalizing s with
  | zero => cases hn
  | succ n ih =>
    cases hstep : step s with
    | again s' =>
      rw [rounds_again n hstep]
      have := hsize s s' hstep
      exact ih (by omega)
    | stop r => exact ⟨r, rounds_stop n hstep⟩

end Tdlib.Lib
