import Tdlib.Lib.Ordered
import Tdlib.Utils.ChangesProcessor

/-!
# Updates with a qts

The other counter of an account goes up by one with every update. Updates that
come too early wait in a map. An update is processed by handing it on together
with a promise; whoever keeps the promise acknowledges the update, at any later
time. Only then may its qts be saved, since after a restart the server is asked
for what comes after the saved qts. The `PtsManager` finds out how far all updates
have been acknowledged.

The time is given with every event that asks for it, in milliseconds. Promises of
those who deliver an update are left out. `none` stands for a failed `CHECK`.
-/

namespace Tdlib.Updates

open Lib

/-! ## PtsManager -/

structure PtsManager where
  dbPts : Int
  memPts : Int
  stateHelper : ChangesProcessor Int
deriving DecidableEq

namespace PtsManager

def new : PtsManager := ⟨-1, -1, .new⟩

def init (m : PtsManager) (pts : Int) : PtsManager := ⟨pts, pts, m.stateHelper.clear⟩

/-- With the id of the change. A pts of 0 is not a checkpoint. -/
def addPts (m : PtsManager) (pts : Int) : PtsManager × Nat :=
  let (stateHelper, id) := m.stateHelper.add pts
  (⟨m.dbPts, if pts > 0 then pts else m.memPts, stateHelper⟩, id)

/-- `db_pts` becomes the last checkpoint that is delivered. -/
def finish (m : PtsManager) (id : Nat) : PtsManager :=
  let (stateHelper, delivered) := m.stateHelper.finish id
  ⟨delivered.foldl (fun db pts => if pts ≠ 0 then pts else db) m.dbPts, m.memPts, stateHelper⟩

end PtsManager

/-! ## The part of the manager that deals with qts -/

structure QtsUpdates (υ : Type) where
  qtsManager : PtsManager
  pendingQtsUpdates : Ordered (Prod.fst : Int × υ → Int)
  runningGetDifference : Bool
  /-- Whether `qts_gap_timeout_` is set. -/
  qtsGapTimeout : Bool
  lastGetDifferenceQts : Int
  /-- Whether a `getDifference` is scheduled. -/
  retryTimeout : Bool
  isBot : Bool
  ignoreBackgroundUpdates : Bool
  lastQtsSaveTime : Int
  /-- A qts that is still to be saved, or 0. -/
  pendingQts : Int
  /-- `updates.qts` in the database. -/
  savedQts : Int
  /-- The updates that were processed, in order. -/
  processed : List (Int × υ)
  /-- The promises that were handed out: the qts, and the id to acknowledge it. -/
  promises : List (Int × Nat)

namespace QtsUpdates

variable {υ : Type}

def getQts (s : QtsUpdates υ) : Int := s.qtsManager.memPts

/-- A client that has found `qts` in its database. -/
def new (qts : Int) (isBot ignoreBackgroundUpdates : Bool) (now : Int) : QtsUpdates υ where
  qtsManager := PtsManager.new.init qts
  pendingQtsUpdates := .empty _
  runningGetDifference := false
  qtsGapTimeout := false
  lastGetDifferenceQts := 0
  retryTimeout := false
  isBot := isBot
  ignoreBackgroundUpdates := ignoreBackgroundUpdates
  lastQtsSaveTime := now - 100
  pendingQts := 0
  savedQts := qts
  processed := []
  promises := []

def addQts (s : QtsUpdates υ) (qts : Int) : QtsUpdates υ :=
  let (qtsManager, id) := s.qtsManager.addPts qts
  { s with qtsManager, promises := s.promises ++ [(qts, id)] }

/-- Every kind of update gets one promise from `add_qts`. It is kept by an event, now or later. -/
def processQtsUpdate (s : QtsUpdates υ) (update : υ) (qts : Int) : QtsUpdates υ :=
  let s :=
    if s.lastGetDifferenceQts < qts - 100000 then
      { s with
        retryTimeout := s.retryTimeout || s.lastGetDifferenceQts != 0
        lastGetDifferenceQts := qts }
    else s
  { s.addQts qts with processed := s.processed ++ [(qts, update)] }

/-- The loop of `process_pending_qts_updates`, with whether something was removed. -/
def pendingLoop : Nat → Bool → QtsUpdates υ → Option (QtsUpdates υ × Bool)
  | 0, removed, s => some (s, removed)
  | steps + 1, removed, s =>
    match s.pendingQtsUpdates.toList with
    | [] => some (s, removed)
    | (qts, update) :: _ =>
      if s.runningGetDifference then none
      else if qts - 1 > s.getQts ∧ qts - 0x40000000 ≤ s.getQts then some (s, removed)
      else
        -- an update that is not the next one is dropped
        let s := if qts = s.getQts + 1 then s.processQtsUpdate update qts else s
        pendingLoop steps true
          { s with pendingQtsUpdates := s.pendingQtsUpdates.erase qts }

def processPendingQtsUpdates (s : QtsUpdates υ) : Option (QtsUpdates υ) :=
  if s.pendingQtsUpdates.toList = [] then some s
  else (pendingLoop s.pendingQtsUpdates.toList.length false s).bind fun (s, removed) =>
    if s.runningGetDifference then none
    else some { s with
      qtsGapTimeout := (s.qtsGapTimeout && !removed) || !s.pendingQtsUpdates.toList.isEmpty }

/-- A qts that is far behind tells of an overflow. -/
def restoreQts (s : QtsUpdates υ) (qts : Int) : Option (QtsUpdates υ) :=
  if qts < s.getQts - 100001 then
    let s := s.addQts (qts - 1)
    if s.getQts = qts - 1 then some { s with lastGetDifferenceQts := s.getQts } else none
  else some s

/-- An update with a qts that is not wrong. -/
def addChecked (s : QtsUpdates υ) (update : υ) (qts : Int) : Option (QtsUpdates υ) :=
  if qts ≤ s.getQts then some s
  else if s.runningGetDifference ∨ qts - 1 > s.getQts ∧ s.getQts > 0 then
    some { s with
      qtsGapTimeout := s.qtsGapTimeout ||
        (!s.runningGetDifference && s.pendingQtsUpdates.toList.isEmpty)
      pendingQtsUpdates := s.pendingQtsUpdates.insert (qts, update) }
  else (s.processQtsUpdate update qts).processPendingQtsUpdates

def addPendingQtsUpdate (s : QtsUpdates υ) (update : υ) (qts : Int) : Option (QtsUpdates υ) :=
  if qts ≤ 1 then some { s with retryTimeout := true }
  else (s.restoreQts qts).bind fun s => s.addChecked update qts

/-- A bot does not save its qts all the time. -/
def saveQts (s : QtsUpdates υ) (qts now : Int) : QtsUpdates υ :=
  if ¬ s.ignoreBackgroundUpdates then
    if s.lastQtsSaveTime + 50 - now ≤ 0 ∨ ¬ s.isBot then
      { s with lastQtsSaveTime := now, pendingQts := 0, savedQts := qts }
    else { s with pendingQts := qts }
  else s

def onQtsAck (s : QtsUpdates υ) (id : Nat) (now : Int) : QtsUpdates υ :=
  let oldQts := s.qtsManager.dbPts
  let s := { s with qtsManager := s.qtsManager.finish id }
  let newQts := s.qtsManager.dbPts
  if oldQts ≠ newQts then s.saveQts newQts now else s

def timeoutExpired (s : QtsUpdates υ) (now : Int) : Option (QtsUpdates υ) :=
  if s.pendingQts ≠ 0 then
    let s := { s with lastQtsSaveTime := s.lastQtsSaveTime - 100 }
    let s := s.saveQts s.pendingQts now
    if s.pendingQts = 0 then some s else none
  else some s

/-! ## Runs -/

/-- What can happen. -/
inductive Event (υ : Type) where
  | arrive (update : υ) (qts : Int)
  | ack (id : Nat) (now : Int)
  | timeout (now : Int)

def step (s : QtsUpdates υ) : Event υ → Option (QtsUpdates υ)
  | .arrive update qts => s.addPendingQtsUpdate update qts
  | .ack id now => some (s.onQtsAck id now)
  | .timeout now => s.timeoutExpired now

/-- The qts that have arrived. -/
def arrived (history : List (Event υ)) : List Int :=
  history.filterMap fun
    | .arrive _ qts => some qts
    | _ => none

/-- The ids that were acknowledged. -/
def acknowledged (history : List (Event υ)) : List Nat :=
  history.filterMap fun
    | .ack id _ => some id
    | _ => none

/-- The histories of the client whose events are all `allowed`, and the states they lead to. -/
inductive Run (initial : QtsUpdates υ) (allowed : QtsUpdates υ → Event υ → Prop) :
    List (Event υ) → QtsUpdates υ → Prop where
  | start : Run initial allowed [] initial
  | step {history : List (Event υ)} {s s' : QtsUpdates υ} {e : Event υ}
      (h : Run initial allowed history s) (he : allowed s e) (hs : s.step e = some s') :
      Run initial allowed (history ++ [e]) s'

/-- One of the `n` updates after `qts` arrives, a promise is kept, or time passes. -/
def Possible (qts : Int) (n : Nat) (s : QtsUpdates υ) : Event υ → Prop
  | .arrive _ q => qts < q ∧ q ≤ qts + n
  | .ack id _ => id ∈ s.promises.map Prod.snd
  | .timeout now => s.lastQtsSaveTime ≤ now

/-- No update arrives that is far behind or far ahead. -/
def Near (s : QtsUpdates υ) : Event υ → Prop
  | .arrive _ q => s.getQts - 100001 ≤ q ∧ q ≤ s.getQts + 0x40000000
  | _ => True

instance (qts : Int) (n : Nat) (s : QtsUpdates υ) (e : Event υ) : Decidable (Possible qts n s e) :=
  match e with
  | .arrive _ q => inferInstanceAs (Decidable (qts < q ∧ q ≤ qts + n))
  | .ack id _ => inferInstanceAs (Decidable (id ∈ s.promises.map Prod.snd))
  | .timeout now => inferInstanceAs (Decidable (s.lastQtsSaveTime ≤ now))

instance (s : QtsUpdates υ) (e : Event υ) : Decidable (Near s e) :=
  match e with
  | .arrive _ q => inferInstanceAs (Decidable (s.getQts - 100001 ≤ q ∧ q ≤ s.getQts + 0x40000000))
  | .ack _ _ => .isTrue trivial
  | .timeout _ => .isTrue trivial

end QtsUpdates

end Tdlib.Updates
