import Tdlib.Lib.Rounds

/-!
# Byte flows

A `ByteFlow` turns its input into its output piece by piece. `loop` does one piece; it may ask for
more input than there is, or finish. `wakeup` calls it as long as there is something to do: until
the flow has finished, or there is less input than it asked for.

The watermarks keep their defaults, under which a flow can always write, and can read as soon as the
input has the size it needs. Once the input is closed it can always read, whatever it asked for, so
that only `finish` ends the calls of `loop`.
-/

namespace Tdlib

open Tdlib.Lib

variable {σ : Type}

/-- What one call of `loop` leaves behind. -/
structure Looped (σ : Type) where
  state : σ
  /-- What is left of the input. -/
  input : List UInt8
  /-- What is appended to the output. -/
  output : List UInt8
  needSize : Nat
  /-- The status `finish` was called with. -/
  status : Option (Except String Unit)
  result : Bool

structure ByteFlow (σ : Type) where
  state : σ
  input : List UInt8
  output : List UInt8
  needSize : Nat
  /-- Set once the flow has finished. -/
  status : Option (Except String Unit)

namespace ByteFlow

variable {loop : σ → List UInt8 → Looped σ} {f f' : ByteFlow σ}

/-- The flow after a call of `loop`. -/
def after (loop : σ → List UInt8 → Looped σ) (f : ByteFlow σ) : ByteFlow σ :=
  let r := loop f.state f.input
  { state := r.state
    input := r.input
    output := f.output ++ r.output
    -- It waits for at least one byte more.
    needSize := if r.result = false ∧ r.needSize ≤ r.input.length then r.input.length + 1
      else r.needSize
    status := r.status }

/-- There is nothing to do. -/
def Idle (f : ByteFlow σ) : Prop := f.status.isSome ∨ f.input.length < f.needSize

instance (f : ByteFlow σ) : Decidable f.Idle := instDecidableOr

def round (loop : σ → List UInt8 → Looped σ) (f : ByteFlow σ) :
    Round (ByteFlow σ) (ByteFlow σ) :=
  if f.Idle then .stop f else .again (f.after loop)

/-- A flow that makes progress is idle after so many rounds. -/
def wakeup (loop : σ → List UInt8 → Looped σ) (f : ByteFlow σ) : ByteFlow σ :=
  (rounds (round loop) (f.input.length + 2) f).getD f

/-- Bytes arrive. -/
def receive (loop : σ → List UInt8 → Looped σ) (f : ByteFlow σ) (piece : List UInt8) : ByteFlow σ :=
  wakeup loop { f with input := f.input ++ piece }

/-- A round of `wakeup` after the input was closed. -/
def closedRound (loop : σ → List UInt8 → Looped σ) (f : ByteFlow σ) :
    Round (ByteFlow σ) (ByteFlow σ) :=
  if f.status.isSome then .stop f else .again (f.after loop)

/-- Each piece takes something from the input. -/
def Progress (loop : σ → List UInt8 → Looped σ) : Prop :=
  ∀ state input, (loop state input).result = true → (loop state input).input.length < input.length

/-- An upper bound on the rounds before the last one. -/
def work (f : ByteFlow σ) : Nat := if f.Idle then 0 else f.input.length + 1

theorem work_after (hloop : Progress loop) (h : ¬f.Idle) : (f.after loop).work < f.work := by
  unfold work
  split
  · omega
  rename_i hbusy
  cases hresult : (loop f.state f.input).result with
  | true =>
    have := hloop _ _ hresult
    show (loop f.state f.input).input.length + 1 < _
    omega
  | false =>
    -- Without progress it waits for more than there is.
    refine absurd (.inr ?_) hbusy
    show (loop f.state f.input).input.length < if _ then _ else _
    rw [hresult]
    split
    · exact Nat.lt_succ_self _
    · rename_i hneed
      rw [not_and, not_le] at hneed
      exact hneed rfl

theorem wakeup_ends (hloop : Progress loop) (f : ByteFlow σ) :
    Ends (round loop) f (wakeup loop f) := by
  have hdecreases : ∀ s s' : ByteFlow σ, round loop s = .again s' → s'.work < s.work := by
    intro s s' hround
    unfold round at hround
    split at hround
    · cases hround
    · rename_i hbusy
      cases hround
      exact work_after hloop hbusy
  have henough : f.work < f.input.length + 2 := by
    unfold work
    split <;> omega
  obtain ⟨r, hr⟩ := rounds_isSome work hdecreases henough
  have hwakeup : wakeup loop f = r := by
    unfold wakeup
    rw [hr]
    rfl
  rw [hwakeup]
  exact .of_rounds hr

/-- **What every call of `loop` keeps holds when the flow is idle.** -/
theorem wakeup_rule {P : ByteFlow σ → Prop} (hloop : Progress loop)
    (hafter : ∀ f, P f → ¬f.Idle → P (f.after loop)) (h : P f) :
    P (wakeup loop f) ∧ (wakeup loop f).Idle := by
  refine (wakeup_ends hloop f).rule (P := P) (Q := fun r => P r ∧ r.Idle) ?_ ?_ h
  · intro s s' hs hround
    unfold round at hround
    split at hround
    · cases hround
    · rename_i hbusy
      cases hround
      exact hafter s hs hbusy
  intro s r hs hround
  unfold round at hround
  split at hround
  · rename_i hidle
    cases hround
    exact ⟨hs, hidle⟩
  · cases hround

/-! ## Closed input -/

theorem closedRound_again (h : closedRound loop f = .again f') :
    f.status = none ∧ f' = f.after loop := by
  unfold closedRound at h
  split at h
  · cases h
  · rename_i hstatus
    cases h
    exact ⟨Option.not_isSome_iff_eq_none.mp hstatus, rfl⟩

/-- A flow stops when it has finished. -/
theorem closed_finished {r : ByteFlow σ} (h : Ends (closedRound loop) f r) : r.status.isSome := by
  refine h.rule (P := fun _ => True) (Q := fun r => r.status.isSome) (fun _ _ _ _ => trivial)
    (fun s r _ hround => ?_) trivial
  unfold closedRound at hround
  split at hround
  · rename_i hstatus
    cases hround
    exact hstatus
  · cases hround

/-- **A flow that finishes when it can go no further stops.** -/
theorem closed_ends (hloop : Progress loop)
    (hfinish : ∀ state input, (loop state input).result = false → (loop state input).status.isSome)
    (f : ByteFlow σ) : ∃ r, Ends (closedRound loop) f r := by
  have hdecreases : ∀ s s' : ByteFlow σ, closedRound loop s = .again s' →
      (if s'.status.isSome then 0 else s'.input.length + 1) <
        if s.status.isSome then 0 else s.input.length + 1 := by
    intro s s' hround
    obtain ⟨hstatus, rfl⟩ := closedRound_again hround
    rw [hstatus]
    cases hresult : (loop s.state s.input).result with
    | true =>
      have := hloop _ _ hresult
      unfold after
      dsimp only
      split <;> simp
      omega
    | false =>
      rw [if_pos (show (s.after loop).status.isSome from hfinish _ _ hresult)]
      exact Nat.succ_pos _
  obtain ⟨r, hr⟩ := rounds_isSome _ hdecreases (Nat.lt_succ_self _)
  exact ⟨r, .of_rounds hr⟩

end ByteFlow

end Tdlib
