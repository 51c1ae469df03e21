import Tdlib.Lib.Tiling

/-!
# Updates with a pts

The server numbers its updates: one that counts for `pts_count` takes the pts of
the account from `pts - pts_count` to `pts`. The client receives them in any
order. `add_pending_pts_update` applies an update at once if nothing is missing
before it; otherwise the update waits. Three tests decide when waiting updates are
released: the next update has arrived, the counts of all waiting updates add up
to the distance that has to be covered, or `getDifference` has filled the gap.

While `getDifference` is running, updates are postponed. Afterwards they are
applied as far as they go, and the rest is added again.

A timeout is either set or not; its time, the promises, the log messages and the
state of other kinds of updates are left out. `none` stands for a failed `CHECK`,
and for the pts `2^31 - 1`, with which the client would give up its state.
-/

namespace Tdlib.Updates

/-- An update as it waits. -/
structure PendingPtsUpdate (υ : Type) where
  update : υ
  pts : Int
  ptsCount : Int
deriving DecidableEq

/-- What is known of an update by looking at it. -/
structure Kind (υ : Type) where
  /-- `check_pts_update`. -/
  isPtsUpdate : υ → Bool
  isAcceptable : υ → Bool

/-- The part of the manager that orders updates by `pts`. -/
structure UpdatesManager (υ : Type) where
  pts : Int
  accumulatedPtsCount : Int
  accumulatedPts : Int
  pendingPtsUpdates : List (PendingPtsUpdate υ)
  postponedPtsUpdates : List (PendingPtsUpdate υ)
  runningGetDifference : Bool
  /-- Whether `pts_gap_timeout_` is set. -/
  ptsGapTimeout : Bool
  lastGetDifferencePts : Int
  /-- Whether `retry_timeout_` is set. -/
  retryTimeout : Bool
  /-- What was handed on to be processed, in order. -/
  processed : List (PendingPtsUpdate υ)
deriving DecidableEq

section

variable {υ : Type}

/-- `emplace` of a multimap: behind the updates with the same pts. -/
def emplace (u : PendingPtsUpdate υ) : List (PendingPtsUpdate υ) → List (PendingPtsUpdate υ)
  | [] => [u]
  | v :: l => if u.pts < v.pts then u :: v :: l else v :: emplace u l

namespace UpdatesManager

variable (kind : Kind υ)

/-- A client that has all updates up to `pts`. -/
def new (pts : Int) : UpdatesManager υ := ⟨pts, 0, -1, [], [], false, false, pts, false, []⟩

def int32Max : Int := 2147483647

def process (s : UpdatesManager υ) (u : PendingPtsUpdate υ) : UpdatesManager υ :=
  { s with processed := s.processed ++ [u] }

/-- `add_pts` of the `PtsManager`. -/
def addPts (s : UpdatesManager υ) (pts : Int) : UpdatesManager υ :=
  if pts > 0 then { s with pts } else s

/-- A pts can only go up, or drop by a lot. From time to time it asks for a `getDifference`. -/
def setPts (s : UpdatesManager υ) (pts : Int) : Option (UpdatesManager υ) :=
  if pts = int32Max then none
  else if pts > s.pts ∨ 0 < pts ∧ pts < s.pts - 399999 then
    let s := s.addPts pts
    if s.lastGetDifferencePts < s.pts - 100000 then
      some { s with lastGetDifferencePts := s.pts, retryTimeout := true }
    else some s
  else some s

def setPtsGapTimeout (s : UpdatesManager υ) : UpdatesManager υ := { s with ptsGapTimeout := true }

def postponePtsUpdate (s : UpdatesManager υ) (u : PendingPtsUpdate υ) : UpdatesManager υ :=
  { s with postponedPtsUpdates := emplace u s.postponedPtsUpdates }

def dropAllPendingPtsUpdates (s : UpdatesManager υ) : UpdatesManager υ :=
  { s with
    accumulatedPtsCount := 0
    accumulatedPts := -1
    ptsGapTimeout := false
    pendingPtsUpdates := [] }

def processAllPendingPtsUpdates (s : UpdatesManager υ) : Option (UpdatesManager υ) := do
  let s := s.pendingPtsUpdates.foldl process s
  let s ← s.setPts s.accumulatedPts
  return s.dropAllPendingPtsUpdates

/-- The first pending update is applied. -/
def processFirst (s : UpdatesManager υ) (u : PendingPtsUpdate υ) : Option (UpdatesManager υ) :=
  if u.ptsCount > 0 then do
    let s ← (s.process u).setPts u.pts
    if s.accumulatedPts ≠ -1 then
      if u.pts ≤ s.accumulatedPts ∧ s.accumulatedPtsCount ≥ u.ptsCount then
        some { s with accumulatedPtsCount := s.accumulatedPtsCount - u.ptsCount }
      else none
    else some s
  else some s

/-- The loop of `process_pending_pts_updates`: what is left, and whether something was processed. -/
def processPendingLoop (processed : Bool) : UpdatesManager υ → List (PendingPtsUpdate υ) →
    Option (UpdatesManager υ × List (PendingPtsUpdate υ) × Bool)
  | s, [] => some (s, [], processed)
  | s, u :: l =>
    if s.pts ≠ u.pts - u.ptsCount then some (s, u :: l, processed)
    else (s.processFirst u).bind fun s => processPendingLoop true s l

def processPendingPtsUpdates (s : UpdatesManager υ) : Option (UpdatesManager υ) := do
  let (s, left, processed) ← processPendingLoop false s s.pendingPtsUpdates
  return { s with
    pendingPtsUpdates := left
    ptsGapTimeout := (s.ptsGapTimeout && !processed) || !left.isEmpty }

/-- What is done with an update that is not old, wrong or postponed. The counts were added up. -/
def addCounted (s : UpdatesManager υ) (u : PendingPtsUpdate υ) : Option (UpdatesManager υ) :=
  let oldPts := s.pts
  if s.pendingPtsUpdates = [] ∧ oldPts = s.accumulatedPts - s.accumulatedPtsCount ∧
      ¬ s.ptsGapTimeout then
    if u.ptsCount > 0 then do
      let s ← (s.process u).setPts s.accumulatedPts
      return { s with accumulatedPtsCount := 0, accumulatedPts := -1 }
    else some s
  else
    let s := { s with pendingPtsUpdates := emplace u s.pendingPtsUpdates }
    if oldPts < s.accumulatedPts - s.accumulatedPtsCount then
      if oldPts = u.pts - u.ptsCount then s.processPendingPtsUpdates
      else some s.setPtsGapTimeout
    else if oldPts = s.accumulatedPts - s.accumulatedPtsCount then s.processAllPendingPtsUpdates
    else none

/-- The update counts from here on. -/
def count (s : UpdatesManager υ) (u : PendingPtsUpdate υ) : UpdatesManager υ :=
  { s with
    accumulatedPtsCount := s.accumulatedPtsCount + u.ptsCount
    accumulatedPts := if u.pts > s.accumulatedPts then u.pts else s.accumulatedPts }

/-- An update that is far too old sets the timeout. -/
def warnOld (s : UpdatesManager υ) (u : PendingPtsUpdate υ) (afterGetDifference : Bool) :
    UpdatesManager υ :=
  if u.pts < s.pts - 99 ∧ ¬ afterGetDifference ∧
    u.pts < s.pts - 19999 then s.setPtsGapTimeout else s

/-- An update that was looked at: it is old, it is postponed, or it counts. -/
def addChecked (s : UpdatesManager υ) (u : PendingPtsUpdate υ) (afterGetDifference : Bool) :
    Option (UpdatesManager υ) :=
  let oldPts := s.pts
  if u.pts ≤ oldPts ∨ oldPts ≥ 1 ∧ u.pts - 0x40000000 > oldPts then some s
  else if s.runningGetDifference ∨ s.postponedPtsUpdates ≠ [] then some (s.postponePtsUpdate u)
  else if afterGetDifference ∧ ¬ kind.isAcceptable u.update then
    some (s.postponePtsUpdate u).setPtsGapTimeout
  else if oldPts > u.pts - u.ptsCount then some (s.postponePtsUpdate u).setPtsGapTimeout
  else
    let s := s.count u
    if oldPts > s.accumulatedPts - s.accumulatedPtsCount then
      some (s.postponePtsUpdate u).setPtsGapTimeout
    else s.addCounted u

/-- `afterGetDifference` tells whether the update has been postponed. -/
def addPendingPtsUpdate (s : UpdatesManager υ) (u : PendingPtsUpdate υ)
    (afterGetDifference : Bool) : Option (UpdatesManager υ) :=
  if u.ptsCount < 0 ∨ u.pts ≤ u.ptsCount then some s
  else if ¬ kind.isPtsUpdate u.update then some s
  else addChecked kind (s.warnOld u afterGetDifference) u afterGetDifference

/-! ## getDifference -/

/-- Pending updates are postponed. -/
def beforeGetDifference (s : UpdatesManager υ) : UpdatesManager υ :=
  { s with
    postponedPtsUpdates := s.pendingPtsUpdates.foldl (fun l u => emplace u l)
      s.postponedPtsUpdates }.dropAllPendingPtsUpdates

def runGetDifference (s : UpdatesManager υ) : Option (UpdatesManager υ) :=
  if s.pts = -1 ∨ s.runningGetDifference then none
  else some { ({ s with runningGetDifference := true } : UpdatesManager υ).beforeGetDifference with
    lastGetDifferencePts := max s.pts 0 }

/-- Without a pts the client would begin anew. -/
def getDifference (s : UpdatesManager υ) : Option (UpdatesManager υ) :=
  if s.pts = -1 then none
  else if s.runningGetDifference then some s
  else s.runGetDifference

/-- The inner loop of `process_postponed_pts_updates`: the shortest run of updates that covers the
distance from `oldPts` to its last update, if there is one among the first 20 of them. `taken` are
the updates so far, with the pts of the last one and their count, and `rest` the others. -/
def findRun (oldPts : Int) : Nat → Int → Int → List (PendingPtsUpdate υ) →
    List (PendingPtsUpdate υ) → Option (List (PendingPtsUpdate υ) × List (PendingPtsUpdate υ))
  | i, newPts, ptsCount, taken, rest =>
    if oldPts = newPts - ptsCount then some (taken, rest)
    else if oldPts > newPts - ptsCount ∨ i = 20 then none
    else
      match rest with
      | [] => none
      | v :: rest => findRun oldPts (i + 1) v.pts (ptsCount + v.ptsCount) (taken ++ [v]) rest

/-- The outer loop: the pts, the updates to process, and the updates that stay postponed. A pass
takes at least one update. -/
def postponedLoop : Nat → Int → List (PendingPtsUpdate υ) →
    Int × List (PendingPtsUpdate υ) × List (PendingPtsUpdate υ)
  | 0, oldPts, l => (oldPts, [], l)
  | _ + 1, oldPts, [] => (oldPts, [], [])
  | passes + 1, oldPts, u :: l =>
    if u.pts ≤ oldPts ∨ oldPts ≥ 1 ∧ u.pts - 0x40000000 > oldPts then postponedLoop passes oldPts l
    else
      match findRun oldPts 1 u.pts u.ptsCount [u] l with
      | none => (oldPts, [], u :: l)
      | some (taken, rest) =>
        let newPts := (taken.getLast?.map PendingPtsUpdate.pts).getD oldPts
        let (pts, applied, left) := postponedLoop passes newPts rest
        (pts, taken.filter (fun v => v.ptsCount > 0) ++ applied, left)

def processPostponedPtsUpdates (s : UpdatesManager υ) : Option (UpdatesManager υ) :=
  if s.postponedPtsUpdates = [] then some s
  else
    let (pts, applied, left) :=
      postponedLoop s.postponedPtsUpdates.length s.pts s.postponedPtsUpdates
    let s' := { applied.foldl process s with postponedPtsUpdates := left }
    (if pts ≠ s.pts then s'.setPts pts else some s').bind fun s' =>
      if s'.runningGetDifference then none else some s'

/-- What the server answers. A difference brings the updates after the pts of the client, and the
pts after them. -/
inductive Difference (υ : Type) where
  | empty
  | difference (updates : List (PendingPtsUpdate υ)) (pts : Int)
  /-- Whether the client asks again depends on its other counters too. -/
  | slice (updates : List (PendingPtsUpdate υ)) (pts : Int) (again : Bool)
  | tooLong (pts : Int)
  | failed

/-- `process_pts_update` of an update of a difference. -/
def processDifferenceUpdate (s : UpdatesManager υ) (u : PendingPtsUpdate υ) :
    Option (UpdatesManager υ) :=
  if ¬ kind.isPtsUpdate u.update then some s
  else if s.pendingPtsUpdates ≠ [] ∨ s.accumulatedPts ≠ -1 then none
  else some (s.process u)

/-- The answer, up to the call of `after_get_difference`. -/
def onGetDifference (s : UpdatesManager υ) : Difference υ → Option (UpdatesManager υ)
  | .empty => some { s with runningGetDifference := false }
  | .difference updates pts => do
      let s ← updates.foldlM (processDifferenceUpdate kind) { s with runningGetDifference := false }
      s.setPts pts
  | .slice updates pts again => do
      let s ← updates.foldlM (processDifferenceUpdate kind) { s with runningGetDifference := false }
      let s ← s.setPts pts
      let s ← s.processPostponedPtsUpdates
      if again ∧ s.pts ≠ -1 then s.runGetDifference else some s
  | .tooLong pts => do
      let s ← ({ s with runningGetDifference := false } : UpdatesManager υ).setPts pts
      s.getDifference
  | .failed => some { s with runningGetDifference := false, retryTimeout := true }

/-- A postponed update is added again. -/
def addAgain (s : UpdatesManager υ) (u : PendingPtsUpdate υ) : Option (UpdatesManager υ) := do
  let s ← s.addPendingPtsUpdate kind u true
  if s.runningGetDifference then none else some s

def afterGetDifference (s : UpdatesManager υ) : Option (UpdatesManager υ) :=
  if s.runningGetDifference then none
  else s.postponedPtsUpdates.foldlM (addAgain kind)
    { s with retryTimeout := false, postponedPtsUpdates := [] }

end UpdatesManager

end

end Tdlib.Updates
