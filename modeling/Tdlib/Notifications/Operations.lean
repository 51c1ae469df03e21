import Tdlib.Notifications.PendingUpdates

/-!
# What a client sees

A client keeps a map from identifiers to notifications. An update is a list of operations on it: a
group update adds its notifications and then removes others, and an `updateNotification` replaces a
notification that is there.

Operations on different notifications do not interfere, so everything is said about the operations
on one notification. If it stays, they can be collapsed: the deletions that come first, and then the
first addition or edit with the type of the last one. If it does not, the deletions before the first
addition are all that is needed.
-/

namespace Tdlib.Notifications

open List

variable {ι C T : Type}

inductive Op (ι C : Type) where
  | add (n : Notification ι C)
  | edit (n : Notification ι C)
  | remove (id : ι)
deriving DecidableEq

namespace Op

def id : Op ι C → ι
  | .add n => n.id
  | .edit n => n.id
  | .remove id => id

/-- Additions and edits. -/
def isWrite : Op ι C → Bool
  | .remove _ => false
  | _ => true

def isAdd : Op ι C → Bool
  | .add _ => true
  | _ => false

def retype (type : C) : Op ι C → Op ι C
  | .add n => .add { n with type }
  | .edit n => .edit { n with type }
  | .remove id => .remove id

@[simp] theorem id_retype (type : C) (op : Op ι C) : (op.retype type).id = op.id := by
  cases op <;> rfl

end Op

def Update.ops : Update ι C T → List (Op ι C)
  | .group u => u.addedNotifications.map .add ++ u.removedNotificationIds.map .remove
  | .edit _ n => [.edit n]

/-! ## Clients -/

abbrev Client (ι C : Type) := ι → Option (Notification ι C)

/-- What an operation does to the notification it is about. -/
def stepAt (x : Option (Notification ι C)) : Op ι C → Option (Notification ι C)
  | .add n => some n
  | .edit n => x.map fun _ => n
  | .remove _ => none

/-- Notifications are added only when absent, edited only when present, removed freely. -/
def OkAt (x : Option (Notification ι C)) : Op ι C → Prop
  | .add _ => x = none
  | .edit _ => x.isSome
  | .remove _ => True

def runAt (x : Option (Notification ι C)) (ops : List (Op ι C)) : Option (Notification ι C) :=
  ops.foldl stepAt x

def WellFormedAt : Option (Notification ι C) → List (Op ι C) → Prop
  | _, [] => True
  | x, op :: ops => OkAt x op ∧ WellFormedAt (stepAt x op) ops

/-! ## Operations on one notification that stays -/

variable {x : Option (Notification ι C)} {op w : Op ι C} {ops : List (Op ι C)}

/-- The type of the last addition or edit, or else the given one. -/
def lastType (type : C) (ops : List (Op ι C)) : C :=
  ops.foldl (fun type op => match op with
    | .add n => n.type
    | .edit n => n.type
    | .remove _ => type) type

/-- The deletions that come first, and one addition or edit. -/
def collapse : List (Op ι C) → List (Op ι C)
  | [] => []
  | .remove id :: ops => .remove id :: collapse ops
  | .add n :: ops => [.add { n with type := lastType n.type ops }]
  | .edit n :: ops => [.edit { n with type := lastType n.type ops }]

/-- What one operation more does to the collapsed ones. -/
def absorb (ops : List (Op ι C)) : Op ι C → List (Op ι C)
  | .add n => if ops.any Op.isWrite then ops.map (Op.retype n.type) else ops ++ [.add n]
  | .edit n => if ops.any Op.isWrite then ops.map (Op.retype n.type) else ops ++ [.edit n]
  | .remove id => if ops.any Op.isWrite then ops else ops ++ [.remove id]

@[simp] theorem lastType_concat (type : C) (ops : List (Op ι C)) (op : Op ι C) :
    lastType type (ops ++ [op]) = match op with
      | .add n => n.type
      | .edit n => n.type
      | .remove _ => lastType type ops := by
  rw [lastType, foldl_append]
  rfl

theorem collapse_concat (ops : List (Op ι C)) (op : Op ι C) :
    collapse (ops ++ [op]) = absorb (collapse ops) op := by
  induction ops with
  | nil => cases op <;> rfl
  | cons first ops ih =>
    cases first with
    | remove id =>
      rw [cons_append, collapse, ih, collapse]
      cases op <;> simp only [absorb, any_cons, Op.isWrite, Bool.false_or] <;> split <;> rfl
    | add n | edit n =>
      rw [cons_append, collapse, lastType_concat]
      cases op <;> rfl

theorem any_isWrite_collapse (ops : List (Op ι C)) :
    (collapse ops).any Op.isWrite = ops.any Op.isWrite := by
  induction ops with
  | nil => rfl
  | cons first ops ih =>
    cases first with
    | remove id =>
      rw [collapse, any_cons, any_cons, ih]
    | add n | edit n => rfl

/-- There is at most one addition or edit left. -/
theorem countP_collapse_le (ops : List (Op ι C)) : (collapse ops).countP Op.isWrite ≤ 1 := by
  induction ops with
  | nil => exact Nat.zero_le 1
  | cons first ops ih =>
    cases first with
    | remove id =>
      exact ih
    | add n | edit n => exact le_rfl

theorem wellFormedAt_append {ops' : List (Op ι C)} :
    WellFormedAt x (ops ++ ops') ↔ WellFormedAt x ops ∧ WellFormedAt (runAt x ops) ops' := by
  induction ops generalizing x with
  | nil => exact (and_iff_right trivial).symm
  | cons op ops ih =>
    show OkAt x op ∧ WellFormedAt (stepAt x op) (ops ++ ops') ↔ _
    rw [ih]
    exact and_assoc.symm

/-- A write leaves the notification there. -/
theorem runAt_concat_write (h : WellFormedAt x (ops ++ [w])) (hw : w.isWrite) :
    ∃ n, runAt x (ops ++ [w]) = some n ∧ (w = .add n ∨ w = .edit n) := by
  have hok := (wellFormedAt_append.mp h).2.1
  have hrun : runAt x (ops ++ [w]) = stepAt (runAt x ops) w := by
    rw [runAt, foldl_append]
    rfl
  cases w with
  | remove id => cases hw
  | add n => exact ⟨n, hrun, .inl rfl⟩
  | edit n =>
    obtain ⟨m, hm⟩ := Option.isSome_iff_exists.mp hok
    refine ⟨n, ?_, .inr rfl⟩
    rw [hrun, hm]
    rfl

/-- The operation adds the notification, or edits it. -/
def Op.Writes (op : Op ι C) (n : Notification ι C) : Prop := op = .add n ∨ op = .edit n

theorem Op.Writes.isWrite {op : Op ι C} {n : Notification ι C} (h : op.Writes n) :
    op.isWrite = true := by
  rcases h with rfl | rfl <;> rfl

/-- **The collapsed operations** show the notification with its last type; the rest of it is that of
the first addition or edit. -/
theorem runAt_collapse {m : Notification ι C} (h : WellFormedAt x (ops ++ [w])) (hw : w.Writes m) :
    WellFormedAt x (collapse (ops ++ [w])) ∧
      ∃ op ∈ ops ++ [w], ∃ n, op.Writes n ∧
        runAt x (collapse (ops ++ [w])) = some { n with type := m.type } := by
  have hlast : ∀ (type : C) (ops : List (Op ι C)), lastType type (ops ++ [w]) = m.type := by
    intro type ops
    rw [lastType_concat]
    rcases hw with rfl | rfl <;> rfl
  induction ops generalizing x with
  | nil =>
    refine ⟨?_, w, mem_singleton_self w, m, hw, ?_⟩
    · rcases hw with rfl | rfl <;> exact h
    rcases hw with rfl | rfl
    · rfl
    · obtain ⟨n, hn⟩ := Option.isSome_iff_exists.mp h.1
      rw [hn]
      rfl
  | cons first ops ih =>
    obtain ⟨hok, hrest⟩ := h
    cases first with
    | remove id =>
      obtain ⟨hwell, op, hop, n, hn, hrun⟩ := ih hrest
      exact ⟨⟨hok, hwell⟩, op, mem_cons_of_mem _ hop, n, hn, hrun⟩
    | add n =>
      rw [cons_append, collapse, hlast]
      exact ⟨⟨hok, trivial⟩, _, mem_cons_self, n, .inl rfl, rfl⟩
    | edit n =>
      rw [cons_append, collapse, hlast]
      refine ⟨⟨hok, trivial⟩, _, mem_cons_self, n, .inr rfl, ?_⟩
      obtain ⟨m', hm'⟩ := Option.isSome_iff_exists.mp hok
      rw [hm']
      rfl

/-! ## Operations on one notification that goes -/

/-- The deletions before the first addition. -/
def leading : List (Op ι C) → List (Op ι C)
  | [] => []
  | .remove id :: ops => .remove id :: leading ops
  | .edit _ :: ops => leading ops
  | .add _ :: _ => []

theorem leading_concat_remove (ops : List (Op ι C)) (id : ι) :
    leading (ops ++ [.remove id])
      = if ops.any Op.isAdd then leading ops else leading ops ++ [.remove id] := by
  induction ops with
  | nil => rfl
  | cons first ops ih =>
    cases first with
    | remove id =>
      rw [cons_append, leading, ih]
      simp only [any_cons, Op.isAdd, Bool.false_or]
      split <;> rfl
    | add n => rfl
    | edit n =>
      rw [cons_append, leading, ih]
      rfl

theorem leading_concat_write (ops : List (Op ι C)) (hw : w.isWrite) :
    leading (ops ++ [w]) = leading ops := by
  induction ops with
  | nil =>
    cases w with
    | remove id => cases hw
    | add n | edit n => rfl
  | cons first ops ih =>
    cases first with
    | remove id | edit n => rw [cons_append, leading, ih, leading]
    | add n => rfl

theorem isWrite_of_mem_leading (h : op ∈ leading ops) : op.isWrite = false := by
  induction ops with
  | nil => cases h
  | cons first ops ih =>
    cases first with
    | remove id =>
      rcases mem_cons.mp h with rfl | h
      · rfl
      · exact ih h
    | add n => cases h
    | edit n => exact ih h

theorem wellFormedAt_of_removes (h : ∀ op ∈ ops, op.isWrite = false) : WellFormedAt x ops := by
  induction ops generalizing x with
  | nil => trivial
  | cons first ops ih =>
    cases first with
    | remove id => exact ⟨trivial, ih (forall_mem_cons.1 h).2⟩
    | add n | edit n => exact absurd (h _ mem_cons_self) Bool.false_ne_true.symm

/-- **The leading deletions** are enough, if the last operation is a deletion. -/
theorem runAt_leading {id : ι} (h : WellFormedAt x (ops ++ [.remove id])) :
    runAt x (leading (ops ++ [.remove id])) = none := by
  induction ops generalizing x with
  | nil => rfl
  | cons first ops ih =>
    obtain ⟨hok, hrest⟩ := h
    cases first with
    | remove id => exact ih hrest
    | add n =>
      -- It was not there before the first addition.
      have hx : x = none := hok
      rw [hx]
      rfl
    | edit n =>
      cases x with
      | none => cases hok
      | some m =>
        have hsame : ∀ (a b : Notification ι C) (ops : List (Op ι C)),
            (∀ op ∈ ops, op.isWrite = false) → runAt (some a) ops = none →
            runAt (some b) ops = none := by
          intro a b ops hops hrun
          cases ops with
          | nil => cases hrun
          | cons op ops =>
            cases op with
            | remove id => exact hrun
            | add n | edit n => exact absurd (hops _ mem_cons_self) Bool.false_ne_true.symm
        exact hsame n m _ (fun op => isWrite_of_mem_leading) (ih hrest)

/-! ## Deletions without an addition in between -/

/-- There is no second deletion before the next addition; `removed` says that there was a first. -/
def Spaced : Bool → List (Op ι C) → Prop
  | _, [] => True
  | removed, .remove _ :: ops => removed = false ∧ Spaced true ops
  | _, .add _ :: ops => Spaced false ops
  | removed, .edit _ :: ops => Spaced removed ops

variable {removed : Bool}

theorem Spaced.collapse (h : Spaced removed ops) : Spaced removed (collapse ops) := by
  induction ops generalizing removed with
  | nil => trivial
  | cons first ops ih =>
    cases first with
    | remove id => exact ⟨h.1, ih h.2⟩
    | add n | edit n => trivial

/-- At most one deletion is left. -/
theorem Spaced.countP_collapse (h : Spaced removed ops) :
    (Notifications.collapse ops).countP (fun op => !op.isWrite) ≤ if removed then 0 else 1 := by
  induction ops generalizing removed with
  | nil => exact Nat.zero_le _
  | cons first ops ih =>
    cases first with
    | remove id =>
      obtain ⟨rfl, hrest⟩ := h
      have := ih hrest
      rw [Notifications.collapse, countP_cons_of_pos rfl]
      simpa using this
    | add n | edit n => exact Nat.zero_le _

theorem Spaced.length_leading (h : Spaced removed ops) :
    (leading ops).length ≤ if removed then 0 else 1 := by
  induction ops generalizing removed with
  | nil => exact Nat.zero_le _
  | cons first ops ih =>
    cases first with
    | remove id =>
      obtain ⟨rfl, hrest⟩ := h
      have := ih hrest
      rw [leading]
      simpa using this
    | add n => exact Nat.zero_le _
    | edit n => exact ih h

theorem Spaced.leading (h : Spaced false ops) : Spaced false (leading ops) := by
  have hlength := h.length_leading
  match hleading : Notifications.leading ops with
  | [] => trivial
  | [op] =>
    have hmem : op ∈ Notifications.leading ops := by
      rw [hleading]
      exact mem_singleton_self op
    have hop := isWrite_of_mem_leading hmem
    cases op with
    | remove id => exact ⟨rfl, trivial⟩
    | add n | edit n => cases hop
  | op :: op' :: rest =>
    rw [hleading] at hlength
    simp at hlength

variable [LinearOrder ι]

def Client.step (c : Client ι C) (op : Op ι C) : Client ι C :=
  Function.update c op.id (stepAt (c op.id) op)

def Client.run (c : Client ι C) (ops : List (Op ι C)) : Client ι C := ops.foldl Client.step c

def Client.WellFormed : Client ι C → List (Op ι C) → Prop
  | _, [] => True
  | c, op :: ops => OkAt (c op.id) op ∧ Client.WellFormed (c.step op) ops

/-- The operations on one notification. -/
def opsAt (x : ι) (ops : List (Op ι C)) : List (Op ι C) := ops.filter fun op => op.id = x

section OpsAt

variable {x : ι} {op : Op ι C} {ops ops' : List (Op ι C)} {c : Client ι C}

@[simp] theorem opsAt_nil : opsAt x ([] : List (Op ι C)) = [] := rfl

@[simp] theorem opsAt_append : opsAt x (ops ++ ops') = opsAt x ops ++ opsAt x ops' :=
  filter_append ..

theorem opsAt_cons_self (h : op.id = x) : opsAt x (op :: ops) = op :: opsAt x ops :=
  filter_cons_of_pos (by simpa using h)

theorem opsAt_cons_ne (h : op.id ≠ x) : opsAt x (op :: ops) = opsAt x ops :=
  filter_cons_of_neg (by simpa using h)

theorem mem_opsAt : op ∈ opsAt x ops ↔ op ∈ ops ∧ op.id = x := by
  simp [opsAt]

/-- **The operations on one notification decide what becomes of it.** -/
theorem Client.run_apply (c : Client ι C) (ops : List (Op ι C)) (x : ι) :
    c.run ops x = runAt (c x) (opsAt x ops) := by
  induction ops generalizing c with
  | nil => rfl
  | cons op ops ih =>
    show (c.step op).run ops x = _
    rw [ih]
    by_cases h : op.id = x
    · rw [opsAt_cons_self h]
      show runAt (c.step op x) _ = runAt (stepAt (c x) op) _
      rw [Client.step, h, Function.update_self]
    · rw [opsAt_cons_ne h, Client.step, Function.update_of_ne (Ne.symm h)]

theorem Client.wellFormed_iff (c : Client ι C) (ops : List (Op ι C)) :
    c.WellFormed ops ↔ ∀ x, WellFormedAt (c x) (opsAt x ops) := by
  induction ops generalizing c with
  | nil => exact ⟨fun _ _ => trivial, fun _ => trivial⟩
  | cons op ops ih =>
    show OkAt (c op.id) op ∧ (c.step op).WellFormed ops ↔ _
    rw [ih]
    have hstep : ∀ x, c.step op x = if x = op.id then stepAt (c x) op else c x := by
      intro x
      rw [Client.step, Function.update_apply]
      split
      · rename_i hx
        rw [hx]
      · rfl
    constructor
    · rintro ⟨hok, hrest⟩ x
      have hx := hrest x
      rw [hstep] at hx
      by_cases h : op.id = x
      · rw [opsAt_cons_self h]
        rw [if_pos h.symm] at hx
        exact ⟨h ▸ hok, hx⟩
      · rw [opsAt_cons_ne h]
        rwa [if_neg (Ne.symm h)] at hx
    intro hall
    have hself := hall op.id
    rw [opsAt_cons_self rfl] at hself
    refine ⟨hself.1, fun x => ?_⟩
    have hx := hall x
    rw [hstep]
    by_cases h : op.id = x
    · rw [opsAt_cons_self h] at hx
      rw [if_pos h.symm]
      exact hx.2
    · rw [opsAt_cons_ne h] at hx
      rwa [if_neg (Ne.symm h)]

/-- What is needed of the next operation. -/
theorem Client.WellFormed.ok (h : c.WellFormed (ops ++ op :: ops')) :
    OkAt (runAt (c op.id) (opsAt op.id ops)) op := by
  have hx := (Client.wellFormed_iff c _).mp h op.id
  rw [opsAt_append, opsAt_cons_self rfl] at hx
  exact (wellFormedAt_append.mp hx).2.1

end OpsAt

end Tdlib.Notifications
