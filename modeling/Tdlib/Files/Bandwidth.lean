import Tdlib.Files.ResourceManager

/-!
# Loaders and their manager

The loaders and the manager are actors. Each loader has a channel to the manager and the manager has
one to each loader, and a channel keeps the order of the messages. A loader starts and finishes
parts and changes its estimate whenever it likes, and it may go away at any time, also before it has
heard of the manager. Then the manager is told by the channel.

A step is one message that is received, or one action of a loader. `none` stands for a failed
`CHECK`.
-/

namespace Tdlib.Files

inductive ToManager where
  | updateResources (resourceState : ResourceState)
  | updatePriority (priority : Int)
  | hangup
deriving DecidableEq

inductive ToLoader where
  | setResourceManager
  | updateResources (resourceState : ResourceState)
deriving DecidableEq

structure Loader where
  resourceState : ResourceState := {}
  /-- The sizes of the parts that are under way. -/
  parts : List Nat := []
  /-- The loader was given to the manager. -/
  registered : Bool := false
  /-- The loader has heard of the manager. -/
  hasManager : Bool := false
  stopFlag : Bool := false
  alive : Bool := true
deriving DecidableEq

namespace Loader

/-- A loader after `start_up`. -/
def startUp (partSize : Nat) (estimatedExtra : Int) : Loader where
  resourceState :=
    ((({} : ResourceState).setUnitSize partSize).updateEstimatedLimit estimatedExtra).1

/-- One round of the loop that starts parts. It ends if there is not enough for a whole part. -/
def startPart (l : Loader) (size : Nat) : Option Loader :=
  if l.resourceState.unused < l.resourceState.unitSize then some l
  else
    (l.resourceState.startUse size).map fun resourceState =>
      { l with resourceState, parts := l.parts ++ [size] }

/-- A part has come back, or will be started again. -/
def finishPart (l : Loader) (i : Nat) : Option Loader :=
  (l.resourceState.stopUse (l.parts.getD i 0)).map fun resourceState =>
    { l with resourceState, parts := l.parts.eraseIdx i }

/-- A part has come back with an error, which ends the work of the loader. -/
def failPart (l : Loader) (i : Nat) : Loader :=
  { l with parts := l.parts.eraseIdx i, stopFlag := true }

def updateEstimatedLimit (l : Loader) (estimatedExtra : Int) : Loader × List ToManager :=
  if l.stopFlag then (l, [])
  else
    let resourceState := (l.resourceState.updateEstimatedLimit estimatedExtra).1
    ({ l with resourceState }, if l.hasManager then [.updateResources resourceState] else [])

/-- A message to a loader that has gone away is dropped, and the manager in it hangs up. -/
def receive (l : Loader) : ToLoader → Loader × List ToManager
  | .setResourceManager =>
    if l.alive then ({ l with hasManager := true }, [.updateResources l.resourceState])
    else (l, [.hangup])
  | .updateResources other =>
    if l.alive then ({ l with resourceState := l.resourceState.updateSlave other }, [])
    else (l, [])

/-- The loader goes away. -/
def disconnect (l : Loader) : Loader × List ToManager :=
  ({ l with alive := false, hasManager := false }, if l.hasManager then [.hangup] else [])

end Loader

/-- What can happen. -/
inductive BandwidthEvent where
  | create (partSize : Nat) (estimatedExtra : Int)
  | registerWorker (id : Nat) (priority : Int)
  | managerReceives (id : Nat)
  | loaderReceives (id : Nat)
  | updatePriority (id : Nat) (priority : Int)
  | startPart (id size : Nat)
  | finishPart (id i : Nat)
  | failPart (id i : Nat)
  | updateEstimatedLimit (id : Nat) (estimatedExtra : Int)
  | disconnect (id : Nat)

/-- The manager, the loaders, and a channel each way for every loader. -/
structure Bandwidth where
  manager : ResourceManager
  /-- The loaders are numbered as they are created. -/
  created : Nat := 0
  loader : Nat → Loader := fun _ => {}
  toManager : Nat → List ToManager := fun _ => []
  toLoader : Nat → List ToLoader := fun _ => []

namespace Bandwidth

/-- A loader acts. What it sends is appended to its channel. -/
def act (t : Bandwidth) (id : Nat) (l : Loader) (sent : List ToManager) : Bandwidth :=
  { t with
    loader := Function.update t.loader id l
    toManager := Function.update t.toManager id (t.toManager id ++ sent) }

/-- The manager has acted. -/
def answer (t : Bandwidth) (m : ResourceManager) (sent : List (Nat × ResourceState)) : Bandwidth :=
  { t with
    manager := m
    toLoader := fun id =>
      t.toLoader id ++
        (sent.filter fun x => x.1 = id).map fun x => ToLoader.updateResources x.2 }

/-- A loader that has not gone away. -/
def Alive (t : Bandwidth) (id : Nat) : Prop := id < t.created ∧ (t.loader id).alive = true

/-- A part is not empty and not greater than the unit of the loader, and a loader is registered
once. -/
def Allowed (t : Bandwidth) : BandwidthEvent → Prop
  | .create partSize _ => 0 < partSize
  | .registerWorker id _ => id < t.created ∧ (t.loader id).registered = false
  | .managerReceives _ => True
  | .loaderReceives _ => True
  | .updatePriority id _ => t.Alive id ∧ (t.loader id).hasManager = true
  | .startPart id size =>
    t.Alive id ∧ (t.loader id).stopFlag = false ∧ size ≤ (t.loader id).resourceState.unitSize
  | .finishPart id i =>
    t.Alive id ∧ (t.loader id).stopFlag = false ∧ i < (t.loader id).parts.length
  | .failPart id i =>
    t.Alive id ∧ (t.loader id).stopFlag = false ∧ i < (t.loader id).parts.length
  | .updateEstimatedLimit id _ => t.Alive id
  | .disconnect id => t.Alive id

def step (t : Bandwidth) : BandwidthEvent → Option Bandwidth
  | .create partSize estimatedExtra =>
    some { t with
      created := t.created + 1
      loader := Function.update t.loader t.created (.startUp partSize estimatedExtra) }
  | .registerWorker id priority =>
    some { t with
      manager := t.manager.registerWorker id priority
      loader := Function.update t.loader id { t.loader id with registered := true }
      toLoader := Function.update t.toLoader id (t.toLoader id ++ [.setResourceManager]) }
  | .managerReceives id =>
    match t.toManager id with
    | [] => some t
    | message :: messages =>
      let t := { t with toManager := Function.update t.toManager id messages }
      match message with
      | .updateResources resourceState =>
        (t.manager.updateResources id resourceState).map fun (m, sent) => t.answer m sent
      | .updatePriority priority =>
        some { t with manager := t.manager.updatePriority id priority }
      | .hangup => (t.manager.hangupShared id).map fun (m, sent) => t.answer m sent
  | .loaderReceives id =>
    match t.toLoader id with
    | [] => some t
    | message :: messages =>
      let t := { t with toLoader := Function.update t.toLoader id messages }
      let (l, sent) := (t.loader id).receive message
      some (t.act id l sent)
  | .updatePriority id priority => some (t.act id (t.loader id) [.updatePriority priority])
  | .startPart id size => ((t.loader id).startPart size).map fun l => t.act id l []
  | .finishPart id i => ((t.loader id).finishPart i).map fun l => t.act id l []
  | .failPart id i => some (t.act id ((t.loader id).failPart i) [])
  | .updateEstimatedLimit id estimatedExtra =>
    let (l, sent) := (t.loader id).updateEstimatedLimit estimatedExtra
    some (t.act id l sent)
  | .disconnect id =>
    let (l, sent) := (t.loader id).disconnect
    some (t.act id l sent)

/-- Everything that can happen, in any order. -/
inductive Run (mode : Mode) : Bandwidth → Prop where
  | init : Run mode { manager := { mode } }
  | step {t t' : Bandwidth} (event : BandwidthEvent) (h : Run mode t) (hallowed : t.Allowed event)
      (hstep : t.step event = some t') : Run mode t'

end Bandwidth

end Tdlib.Files
