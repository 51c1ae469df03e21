import Mathlib

/-!
# Pending updates of a notification group

`flush_pending_updates` rewrites the updates of a group before they are sent. It first computes
which notifications are added or edited and stay, and then makes passes over the updates until
nothing changes. A pass removes what is said about all other notifications, except that a deletion
is moved to the first `updateNotificationGroup`, and merges all that is said about a notification
into the first update that adds or edits it. Then neighbouring group updates are combined.

A position is the number of the update in the list, counted from one, as in the source. A `CHECK`
that fails makes the result `none`, and so does a cast to the wrong kind of update. Identifiers are
of any type: the zero that marks an identifier as removed is not one of them.
-/

namespace Tdlib.Notifications

variable {ι C T : Type} [LinearOrder ι]

structure Notification (ι C : Type) where
  id : ι
  date : Int
  isSilent : Bool
  type : C
deriving DecidableEq

structure UpdateNotificationGroup (ι C T : Type) where
  notificationGroupId : Int
  type : T
  chatId : Int
  notificationSettingsChatId : Int
  isSilent : Bool
  totalCount : Int
  addedNotifications : List (Notification ι C)
  removedNotificationIds : List ι
deriving DecidableEq

inductive Update (ι C T : Type) where
  | group (u : UpdateNotificationGroup ι C T)
  | edit (notificationGroupId : Int) (notification : Notification ι C)
deriving DecidableEq

/-! ## The last state of all notifications -/

structure LastState (ι : Type) where
  added : Finset ι
  edited : Finset ι
  removed : Finset ι

namespace LastState

def initial : LastState ι := ⟨∅, ∅, ∅⟩

/-- There must be no addition after an addition or an edit. -/
def add (s : LastState ι) (n : Notification ι C) : Option (LastState ι) :=
  if n.id ∈ s.added then none
  else if n.id ∈ s.edited then none
  else some { s with added := insert n.id s.added, removed := s.removed.erase n.id }

def addAll : LastState ι → List (Notification ι C) → Option (LastState ι)
  | s, [] => some s
  | s, n :: ns =>
    match s.add n with
    | some s' => addAll s' ns
    | none => none

/-- A second deletion is dropped. -/
def removeAll : LastState ι → List ι → LastState ι × List ι
  | s, [] => (s, [])
  | s, id :: ids =>
    let s' : LastState ι := ⟨s.added.erase id, s.edited.erase id, insert id s.removed⟩
    let (s'', kept) := removeAll s' ids
    (s'', if id ∈ s.removed then kept else id :: kept)

/-- There must be no edit of a deleted notification. -/
def update (s : LastState ι) : Update ι C T → Option (LastState ι × Update ι C T)
  | .group u =>
    match s.addAll u.addedNotifications with
    | some s' =>
      let (s'', kept) := s'.removeAll u.removedNotificationIds
      some (s'', .group { u with removedNotificationIds := kept })
    | none => none
  | .edit g n =>
    if n.id ∈ s.removed then none
    else some ({ s with added := s.added.erase n.id, edited := insert n.id s.edited }, .edit g n)

def updateAll : LastState ι → List (Update ι C T) → Option (LastState ι × List (Update ι C T))
  | s, [] => some (s, [])
  | s, u :: us =>
    match s.update u with
    | some (s', u') =>
      match updateAll s' us with
      | some (s'', us') => some (s'', u' :: us')
      | none => none
    | none => none

def isNeeded (s : LastState ι) (id : ι) : Bool := id ∈ s.added ∨ id ∈ s.edited

end LastState

/-! ## One pass -/

/-- The updates before the current one, which may have been removed, and what is known of them. -/
structure Pass (ι C T : Type) where
  updates : List (Option (Update ι C T))
  firstAdd : ι → Option Nat
  firstEdit : ι → Option Nat
  canBeDeleted : Finset ι
  movedDeleted : List ι
  firstGroup : Nat
  isChanged : Bool

/-- The type of the first notification with the identifier is replaced. -/
def replaceType (id : ι) (type : C) :
    List (Notification ι C) → Option (List (Notification ι C))
  | [] => none
  | n :: ns =>
    if n.id = id then some ({ n with type } :: ns)
    else
      match replaceType id type ns with
      | some ns' => some (n :: ns')
      | none => none

namespace Pass

def initial : Pass ι C T := ⟨[], fun _ => none, fun _ => none, ∅, [], 0, false⟩

/-- The position of the current update. -/
def curPos (p : Pass ι C T) : Nat := p.updates.length + 1

/-- An addition or edit is merged into the edit at a position. -/
def moveToEdit (p : Pass ι C T) (pos : Nat) (n : Notification ι C) : Option (Pass ι C T) :=
  if p.curPos ≤ pos then none
  else
    match p.updates[pos - 1]? with
    | some (some (.edit g m)) =>
      if m.id = n.id then
        some { p with
          updates := p.updates.set (pos - 1) (some (.edit g { m with type := n.type }))
          isChanged := true }
      else none
    | _ => none

/-- An addition or edit is merged into the addition at a position. -/
def moveToAdd (p : Pass ι C T) (pos : Nat) (n : Notification ι C) : Option (Pass ι C T) :=
  if p.curPos ≤ pos then none
  else
    match p.updates[pos - 1]? with
    | some (some (.group u)) =>
      match replaceType n.id n.type u.addedNotifications with
      | some added =>
        some { p with
          updates := p.updates.set (pos - 1) (some (.group { u with addedNotifications := added }))
          isChanged := true }
      | none => none
    | _ => none

/-- One addition of the current update, with the additions that are kept so far. -/
def add (needed : ι → Bool) (p : Pass ι C T) (kept : List (Notification ι C))
    (n : Notification ι C) : Option (Pass ι C T × List (Notification ι C)) :=
  if needed n.id = false then
    some ({ p with canBeDeleted := insert n.id p.canBeDeleted, isChanged := true }, kept)
  else
    match p.firstEdit n.id with
    | some pos =>
      match p.moveToEdit pos n with
      | some p' => some (p', kept)
      | none => none
    | none =>
      match p.firstAdd n.id with
      | some pos =>
        match p.moveToAdd pos n with
        | some p' => some (p', kept)
        | none => none
      | none =>
        some ({ p with firstAdd := Function.update p.firstAdd n.id (some p.curPos) }, kept ++ [n])

def addAll (needed : ι → Bool) :
    Pass ι C T → List (Notification ι C) → List (Notification ι C) →
      Option (Pass ι C T × List (Notification ι C))
  | p, kept, [] => some (p, kept)
  | p, kept, n :: ns =>
    match p.add needed kept n with
    | some (p', kept') => addAll needed p' kept' ns
    | none => none

/-- One deletion of the current update. -/
def remove (needed : ι → Bool) (p : Pass ι C T) (kept : List ι) (id : ι) :
    Option (Pass ι C T × List ι) :=
  if id ∈ p.canBeDeleted then
    if needed id then none else some ({ p with isChanged := true }, kept)
  else if needed id = false then
    if p.firstGroup ≠ 0 then
      some ({ p with movedDeleted := p.movedDeleted ++ [id], isChanged := true }, kept)
    else some (p, kept ++ [id])
  else if (p.firstAdd id).isSome ∨ (p.firstEdit id).isSome then
    some ({ p with isChanged := true }, kept)
  else some (p, kept ++ [id])

def removeAll (needed : ι → Bool) :
    Pass ι C T → List ι → List ι → Option (Pass ι C T × List ι)
  | p, kept, [] => some (p, kept)
  | p, kept, id :: ids =>
    match p.remove needed kept id with
    | some (p', kept') => removeAll needed p' kept' ids
    | none => none

/-- The type and the count of an empty update go to the last group update before it, if there is
one. -/
def moveTotalCount (u : UpdateNotificationGroup ι C T) :
    List (Option (Update ι C T)) → Option (List (Option (Update ι C T)))
  | [] => none
  | o :: os =>
    match moveTotalCount u os with
    | some os' => some (o :: os')
    | none =>
      match o with
      | some (.group v) =>
        some (some (.group { v with type := u.type, totalCount := u.totalCount }) :: os)
      | _ => none

/-- The current update is an empty group update. It is dropped if there is a group update before it,
or if it is the first one and something else is sent or nothing is shown. -/
def pushEmpty (size : Nat) (isHidden isEmptyGroup : Bool) (p : Pass ι C T)
    (u : UpdateNotificationGroup ι C T) : Option (Pass ι C T) :=
  match moveTotalCount u p.updates with
  | some updates => some { p with updates := updates ++ [none], isChanged := true }
  | none =>
    if p.curPos = 1 ∧ (1 < size ∨ isHidden ∧ ¬(isEmptyGroup ∧ u.totalCount = 0)) then
      if p.movedDeleted = [] then
        some { p with updates := p.updates ++ [none], isChanged := true }
      else none
    else
      some { p with
        updates := p.updates ++ [some (.group u)]
        firstGroup := if p.firstGroup = 0 then p.curPos else p.firstGroup }

/-- The current update is a group update of which something is left. -/
def pushGroup (p : Pass ι C T) (u : UpdateNotificationGroup ι C T) : Pass ι C T :=
  { p with
    updates := p.updates ++ [some (.group u)]
    firstGroup := if p.firstGroup = 0 then p.curPos else p.firstGroup }

/-- Without additions an update is silent. -/
def silence (p : Pass ι C T) (u : UpdateNotificationGroup ι C T) :
    Pass ι C T × UpdateNotificationGroup ι C T :=
  if u.addedNotifications = [] ∧ u.isSilent = false then
    ({ p with isChanged := true }, { u with isSilent := true })
  else (p, u)

def group (needed : ι → Bool) (size : Nat) (isHidden isEmptyGroup : Bool) (p : Pass ι C T)
    (u : UpdateNotificationGroup ι C T) : Option (Pass ι C T) :=
  match p.addAll needed [] u.addedNotifications with
  | none => none
  | some (p, added) =>
    let (p, u) := p.silence { u with addedNotifications := added }
    match p.removeAll needed [] u.removedNotificationIds with
    | none => none
    | some (p, removed) =>
      let u := { u with removedNotificationIds := removed }
      if removed = [] ∧ added = [] then p.pushEmpty size isHidden isEmptyGroup u
      else some (p.pushGroup u)

def edit (needed : ι → Bool) (p : Pass ι C T) (g : Int) (n : Notification ι C) :
    Option (Pass ι C T) :=
  let dropped (p : Pass ι C T) : Pass ι C T := { p with updates := p.updates ++ [none] }
  if needed n.id = false then some (dropped { p with isChanged := true })
  else
    match p.firstEdit n.id with
    | some pos => (p.moveToEdit pos n).map dropped
    | none =>
      match p.firstAdd n.id with
      | some pos => (p.moveToAdd pos n).map dropped
      | none =>
        some { p with
          updates := p.updates ++ [some (.edit g n)]
          firstEdit := Function.update p.firstEdit n.id (some p.curPos) }

def updateAll (needed : ι → Bool) (size : Nat) (isHidden isEmptyGroup : Bool) :
    Pass ι C T → List (Update ι C T) → Option (Pass ι C T)
  | p, [] => some p
  | p, .group u :: us =>
    match p.group needed size isHidden isEmptyGroup u with
    | some p' => updateAll needed size isHidden isEmptyGroup p' us
    | none => none
  | p, .edit g n :: us =>
    match p.edit needed g n with
    | some p' => updateAll needed size isHidden isEmptyGroup p' us
    | none => none

/-- The moved deletions are added to the first group update; none of them may be there twice. -/
def finish (p : Pass ι C T) : Option (List (Update ι C T)) :=
  if p.movedDeleted = [] then some (p.updates.filterMap id)
  else if p.firstGroup = 0 then none
  else
    match p.updates[p.firstGroup - 1]? with
    | some (some (.group u)) =>
      let removed := (u.removedNotificationIds ++ p.movedDeleted).mergeSort (· ≤ ·)
      if removed.Nodup then
        some ((p.updates.set (p.firstGroup - 1)
          (some (.group { u with removedNotificationIds := removed }))).filterMap id)
      else none
    | _ => none

end Pass

/-! ## Combining group updates -/

def hasCommonNotifications (notifications : List (Notification ι C)) (ids : List ι) : Bool :=
  notifications.any fun n => n.id ∈ ids

def canCombine (last u : UpdateNotificationGroup ι C T) : Bool :=
  (last.notificationSettingsChatId = u.notificationSettingsChatId ∨ last.addedNotifications = []) ∧
    hasCommonNotifications last.addedNotifications u.removedNotificationIds = false ∧
    hasCommonNotifications u.addedNotifications last.removedNotificationIds = false

def combined (last u : UpdateNotificationGroup ι C T) : UpdateNotificationGroup ι C T :=
  { last with
    isSilent := last.isSilent && u.isSilent
    notificationSettingsChatId := u.notificationSettingsChatId
    type := u.type
    totalCount := u.totalCount
    addedNotifications := last.addedNotifications ++ u.addedNotifications
    removedNotificationIds := last.removedNotificationIds ++ u.removedNotificationIds }

/-- The list that starts with `last`, with whether something was combined. -/
def combine : Update ι C T → List (Update ι C T) → Option (List (Update ι C T) × Bool)
  | last, [] => some ([last], false)
  | .group last, .group u :: us =>
    if canCombine last u then
      if last.notificationGroupId ≠ u.notificationGroupId ∨ last.chatId ≠ u.chatId then none
      else (combine (.group (combined last u)) us).map fun r => (r.1, true)
    else (combine (.group u) us).map fun r => (.group last :: r.1, r.2)
  | last, u :: us => (combine u us).map fun r => (last :: r.1, r.2)

/-! ## All passes -/

/-- One turn of the loop: the new updates, and whether to go on. -/
def turn (s : LastState ι) (isHidden : Bool) (us : List (Update ι C T)) :
    Option (List (Update ι C T) × Bool) :=
  let isEmptyGroup : Bool := s.added = ∅ ∧ s.edited = ∅
  match Pass.initial.updateAll s.isNeeded us.length isHidden isEmptyGroup us with
  | none => none
  | some p =>
    match p.finish with
    | none => none
    | some [] => some ([], false)
    | some (u :: us') => (combine u us').map fun r => (r.1, p.isChanged || r.2)

def loop (s : LastState ι) (isHidden : Bool) : Nat → List (Update ι C T) →
    Option (List (Update ι C T))
  | 0, _ => none
  | n + 1, us =>
    match turn s isHidden us with
    | none => none
    | some (us', true) => loop s isHidden n us'
    | some (us', false) => some us'

/-- What makes an update long. -/
def cost : Update ι C T → Nat
  | .group u =>
    1 + u.addedNotifications.length + u.removedNotificationIds.length
      + (if u.isSilent then 0 else 1)
  | .edit _ _ => 1

/-- The deletions in group updates. -/
def deletions : Update ι C T → Nat
  | .group u => u.removedNotificationIds.length
  | .edit _ _ => 0

/-- The deletions that are not in the first group update. -/
def laterDeletions : List (Update ι C T) → Nat
  | [] => 0
  | .group _ :: us => (us.map deletions).sum
  | .edit _ _ :: us => laterDeletions us

/-- Every turn but the last takes something off. -/
def work (us : List (Update ι C T)) : Nat := (us.map cost).sum + laterDeletions us

def sorted : Update ι C T → Update ι C T
  | .group u => .group { u with
      addedNotifications := u.addedNotifications.mergeSort fun a b => a.id ≤ b.id
      removedNotificationIds := u.removedNotificationIds.mergeSort (· ≤ ·) }
  | .edit g n => .edit g n

/-- The updates that are sent. -/
def flushPendingUpdates (isHidden : Bool) (us : List (Update ι C T)) :
    Option (List (Update ι C T)) :=
  match LastState.initial.updateAll us with
  | none => none
  | some (s, us') => (loop s isHidden (work us' + 1) us').map (List.map sorted)

end Tdlib.Notifications
