import Mathlib

/-!
# The bandwidth of the loaders

All loaders share a number of bytes that may be under way at a time. The `ResourceManager` grants
them: a loader says how many bytes it still wants, the manager raises the limit of the loader, and
the loader starts parts while its limit allows it. Bytes that have arrived are *used*, and a limit
minus what was used is *active*.

Manager and loader each have a `ResourceState` of the loader. The limit is the manager's, the rest
is the loader's, and each sends its copy to the other. In the `ResourceState` of the manager itself
what is used and active of all loaders is added up.

`none` stands for a failed `CHECK`.
-/

namespace Tdlib.Files

structure ResourceState where
  estimatedLimit : Int := 0
  limit : Int := 0
  used : Int := 0
  using_ : Int := 0
  unitSize : Nat := 1
deriving DecidableEq

namespace ResourceState

def startUse (s : ResourceState) (x : Int) : Option ResourceState :=
  let s := { s with using_ := s.using_ + x }
  if s.used + s.using_ ≤ s.limit then some s else none

def stopUse (s : ResourceState) (x : Int) : Option ResourceState :=
  if x ≤ s.using_ then some { s with using_ := s.using_ - x, used := s.used + x } else none

def updateLimit (s : ResourceState) (extra : Int) : ResourceState :=
  { s with limit := s.limit + extra }

/-- A limit that is not needed is given back as if it were used. -/
def updateEstimatedLimit (s : ResourceState) (extra : Int) : ResourceState × Bool :=
  let usingAndExtraIntersection := min s.using_ extra
  let newEstimatedLimit := s.used + s.using_ + extra - usingAndExtraIntersection
  let extraLimit := if newEstimatedLimit < s.limit then s.limit - newEstimatedLimit else 0
  let s := { s with used := s.used + extraLimit }
  let newEstimatedLimit := newEstimatedLimit + extraLimit
  if newEstimatedLimit = s.estimatedLimit then (s, false)
  else ({ s with estimatedLimit := newEstimatedLimit }, true)

def setUnitSize (s : ResourceState) (newUnitSize : Nat) : ResourceState :=
  { s with unitSize := newUnitSize }

def activeLimit (s : ResourceState) : Int := s.limit - s.used

def unused (s : ResourceState) : Int := s.limit - s.using_ - s.used

/-- What is wanted beyond the limit, in whole units. -/
def estimatedExtra (s : ResourceState) : Int :=
  let newUnused := max s.limit s.estimatedLimit - s.using_ - s.used
  let newUnused := (newUnused + s.unitSize - 1) / s.unitSize * s.unitSize
  newUnused + s.using_ + s.used - s.limit

/-- `operator+=`. -/
def add (s other : ResourceState) : ResourceState :=
  { s with using_ := s.using_ + other.activeLimit, used := s.used + other.used }

/-- `operator-=`. -/
def sub (s other : ResourceState) : ResourceState :=
  { s with using_ := s.using_ - other.activeLimit, used := s.used - other.used }

def updateMaster (s other : ResourceState) : ResourceState :=
  { s with
    estimatedLimit := other.estimatedLimit
    used := other.used
    using_ := other.using_
    unitSize := other.unitSize }

def updateSlave (s other : ResourceState) : ResourceState :=
  { s with limit := other.limit }

end ResourceState

/-! ## The manager -/

inductive Mode where
  | baseline
  | greedy
deriving DecidableEq

def maxResourceLimit : Int := 0x200000

structure ResourceManager where
  mode : Mode
  /-- The numbers of the nodes in `nodes_container_`. -/
  nodes : Finset Nat := ∅
  /-- The `resource_state_` of a node. -/
  node : Nat → ResourceState := fun _ => {}
  toXload : List (Int × Nat) := []
  /-- The heap, with the smallest key first. -/
  byEstimatedExtra : List (Int × Nat) := []
  resourceState : ResourceState := {}

namespace ResourceManager

def addNode (m : ResourceManager) (nodeId : Nat) (priority : Int) : ResourceManager :=
  let before : Int × Nat → Bool :=
    if 0 ≤ priority then fun x => ¬x.1 ≤ priority else fun x => ¬x.1 < -priority
  { m with
    toXload := m.toXload.takeWhile before ++
      (if 0 ≤ priority then priority else -priority, nodeId) :: m.toXload.dropWhile before }

def removeNode (m : ResourceManager) (nodeId : Nat) : ResourceManager × Bool :=
  ({ m with toXload := m.toXload.eraseP fun x => x.2 = nodeId },
    m.toXload.any fun x => x.2 = nodeId)

/-- A new node. The manager sends itself to the loader. -/
def registerWorker (m : ResourceManager) (nodeId : Nat) (priority : Int) : ResourceManager :=
  { m with
    nodes := insert nodeId m.nodes
    node := Function.update m.node nodeId {} }.addNode nodeId priority

def updatePriority (m : ResourceManager) (nodeId : Nat) (priority : Int) : ResourceManager :=
  let (m, removed) := m.removeNode nodeId
  if removed then m.addNode nodeId priority else m

/-- A place in the heap behind all keys that are not greater. `KHeap` does not say which of two
equal keys comes first, and nothing here depends on it. -/
def insertByKey (x : Int × Nat) : List (Int × Nat) → List (Int × Nat)
  | [] => [x]
  | y :: l => if x.1 < y.1 then x :: y :: l else y :: insertByKey x l

def addToHeap (m : ResourceManager) (nodeId : Nat) : ResourceManager :=
  let key := (m.node nodeId).estimatedExtra
  let others := m.byEstimatedExtra.filter fun x => x.2 ≠ nodeId
  { m with byEstimatedExtra := if key ≠ 0 then insertByKey (key, nodeId) others else others }

/-- A grant to a node. The result has the message to its loader, and says whether there may be
something left for other nodes. -/
def satisfyNode (m : ResourceManager) (nodeId : Nat) :
    Option (ResourceManager × List (Nat × ResourceState) × Bool) :=
  if nodeId ∉ m.nodes then none
  else
    let partSize : Int := (m.node nodeId).unitSize
    let need := ((m.node nodeId).estimatedExtra + partSize - 1).tdiv partSize * partSize
    if need = 0 then some (m, [], true)
    else
      let give := min need m.resourceState.unused
      let give := give - give.tmod partSize
      if give = 0 then some (m, [], false)
      else
        (m.resourceState.startUse give).map fun resourceState =>
          let state := (m.node nodeId).updateLimit give
          ({ m with resourceState, node := Function.update m.node nodeId state },
            [(nodeId, state)], true)

/-- Grants to nodes in the given order. The result says how many of them were looked at. -/
def satisfyNodes : List Nat → ResourceManager →
    Option (ResourceManager × List (Nat × ResourceState) × Nat)
  | [], m => some (m, [], 0)
  | nodeId :: nodeIds, m =>
    (m.satisfyNode nodeId).bind fun (m, sent, more) =>
      if more then
        (satisfyNodes nodeIds m).map fun (m, sent', n) => (m, sent ++ sent', n + 1)
      else some (m, sent, 1)

def loop (m : ResourceManager) : Option (ResourceManager × List (Nat × ResourceState)) :=
  let activeLimit := m.resourceState.activeLimit
  let m := { m with
    resourceState := m.resourceState.updateLimit (maxResourceLimit - activeLimit) }
  match m.mode with
  | .greedy =>
    (satisfyNodes (m.byEstimatedExtra.map Prod.snd) m).map fun (m', sent, n) =>
      -- the nodes that were taken from the heap are added again
      ((m.byEstimatedExtra.take n).foldl (fun m x => m.addToHeap x.2)
        { m' with byEstimatedExtra := m.byEstimatedExtra.drop n }, sent)
  | .baseline => (satisfyNodes (m.toXload.map Prod.snd) m).map fun (m, sent, _) => (m, sent)

def updateResources (m : ResourceManager) (nodeId : Nat) (resourceState : ResourceState) :
    Option (ResourceManager × List (Nat × ResourceState)) :=
  if nodeId ∉ m.nodes then some (m, [])
  else
    let state := (m.node nodeId).updateMaster resourceState
    let m := { m with
      node := Function.update m.node nodeId state
      resourceState := (m.resourceState.sub (m.node nodeId)).add state }
    (match m.mode with
      | .greedy => m.addToHeap nodeId
      | .baseline => m).loop

def hangupShared (m : ResourceManager) (nodeId : Nat) :
    Option (ResourceManager × List (Nat × ResourceState)) :=
  if nodeId ∉ m.nodes then some (m, [])
  else
    let m := { m with
      byEstimatedExtra := m.byEstimatedExtra.filter fun x => x.2 ≠ nodeId
      resourceState := m.resourceState.sub (m.node nodeId) }
    let m := (m.removeNode nodeId).1
    { m with nodes := m.nodes.erase nodeId }.loop

end ResourceManager

end Tdlib.Files
