import Tdlib.Lib.Ordered
import Tdlib.Utils.Tl

/-!
# Persistent queues of events

`TQueueImpl` holds any number of queues. A queue hands out consecutive ids; its
`tail_id` is the next one. Events are removed when they are confirmed or expire.
A storage callback is told about every event that comes and goes, so that the
queues can be built again from what the storage holds.

The last event of a queue is special. The storage knows the tail only from it, so
when it is removed, its data is cleared and the rest of it is kept. The next event
that is pushed takes its place.

Numbers that are only compared and copied are plain integers. `none` stands for a
failed `CHECK`.
-/

namespace Tdlib.TQueue

open Lib Tl

abbrev QueueId := Int

def maxId : Int := 2000000000

/-- No object of the class holds another number. -/
structure EventId where
  value : Int
  isValidId : 0 ≤ value ∧ value < maxId

namespace EventId

/-- The value of the default constructor. -/
def empty : EventId := ⟨0, by decide⟩

def fromInt32 (id : Int) : Option EventId :=
  if h : 0 ≤ id ∧ id < maxId then some ⟨id, h⟩ else none

def next (id : EventId) : Option EventId := fromInt32 (id.value + 1)

theorem eq_of_value {a b : EventId} (h : a.value = b.value) : a = b := by
  obtain ⟨a, _⟩ := a
  obtain ⟨b, _⟩ := b
  obtain rfl : a = b := h
  rfl

instance : LinearOrder EventId := LinearOrder.lift' value fun _ _ => eq_of_value

end EventId

/-- What a reader is given. -/
structure Event where
  id : EventId
  expiresAt : Int
  data : Bytes
  extra : Int
deriving DecidableEq

structure RawEvent where
  logEventId : Nat
  eventId : EventId
  data : Bytes
  extra : Int
  expiresAt : Int
deriving DecidableEq

def RawEvent.toEvent (e : RawEvent) : Event := ⟨e.eventId, e.expiresAt, e.data, e.extra⟩

/-- The event without its data. -/
def RawEvent.clear (e : RawEvent) : RawEvent := { e with data := [] }

/-! ## The storage -/

/-- An entry of the map `events_` of the storage. -/
structure Stored where
  logEventId : Nat
  queueId : QueueId
  event : RawEvent
deriving DecidableEq

structure TQueueMemoryStorage where
  nextLogEventId : Nat
  events : Ordered Stored.logEventId
deriving DecidableEq

namespace TQueueMemoryStorage

def new : TQueueMemoryStorage := ⟨1, .empty _⟩

/-- An event without a log id gets the next one. The ids have 64 bits. -/
def push (storage : TQueueMemoryStorage) (queueId : QueueId) (event : RawEvent) :
    TQueueMemoryStorage × Nat :=
  if event.logEventId = 0 then
    let id := storage.nextLogEventId
    (⟨(id + 1) % 0x10000000000000000, storage.events.insert ⟨id, queueId, event⟩⟩, id)
  else
    let id := event.logEventId
    ({ storage with events := storage.events.insert ⟨id, queueId, event⟩ }, id)

def pop (storage : TQueueMemoryStorage) (logEventId : Nat) : TQueueMemoryStorage :=
  { storage with events := storage.events.erase logEventId }

end TQueueMemoryStorage

/-! ## One queue -/

def maxEventLength : Nat := 65536 * 8

def maxQueueEvents : Nat := 1000000

def maxTotalEventLength : Nat := 1 <<< 30

structure Queue where
  tailId : EventId
  events : Ordered RawEvent.eventId
  /-- A `size_t`. -/
  totalEventLength : Nat
  gcAt : Int
deriving DecidableEq

namespace Queue

def new : Queue := ⟨.empty, .empty _, 0, 0⟩

/-- `total_event_length -= size`, in 64 bits. -/
def subtract (q : Queue) (size : Nat) : Nat :=
  (q.totalEventLength + 0x10000000000000000 - size) % 0x10000000000000000

def removeEvent (q : Queue) (event : RawEvent) : Queue :=
  { q with
    totalEventLength := q.subtract event.data.length
    events := q.events.erase event.eventId }

def clearEventData (q : Queue) (event : RawEvent) : Queue :=
  { q with
    totalEventLength := q.subtract event.data.length
    events := q.events.insert event.clear }

/-- `get_queue_head`. -/
def head (q : Queue) : EventId := q.events.toList.head?.elim q.tailId RawEvent.eventId

/-- `get_size`. -/
def size (q : Queue) : Nat :=
  match q.events.toList.getLast? with
  | none => 0
  | some last => q.events.toList.length - if last.data = [] then 1 else 0

/-- Readers are shown the events with data. -/
def live (q : Queue) : List Event :=
  (q.events.toList.filter fun e => e.data ≠ []).map RawEvent.toEvent

end Queue

section

variable (queueId : QueueId)

/-- `pop` of the event that an iterator stands at. It changes nothing but this event, and leaves the
iterator at the next one. -/
def pop (tailId : EventId) (callback : Option TQueueMemoryStorage) (q : Queue) (event : RawEvent) :
    Option (Option TQueueMemoryStorage × Queue) :=
  match callback with
  | none => some (none, q.removeEvent event)
  | some storage =>
    if event.logEventId = 0 then some (some storage, q.removeEvent event)
    else
      match event.eventId.next with
      | none => none
      | some next =>
        if next = tailId then
          if event.data ≠ [] then
            some (some (storage.push queueId event.clear).1, q.clearEventData event)
          else some (some storage, q)
        else some (some (storage.pop event.logEventId), q.removeEvent event)

/-- A loop that pops events one after another. -/
def popEach (tailId : EventId) : Option TQueueMemoryStorage → Queue → List RawEvent →
    Option (Option TQueueMemoryStorage × Queue)
  | callback, q, [] => some (callback, q)
  | callback, q, event :: rest => do
      let (callback, q) ← pop queueId tailId callback q event
      popEach tailId callback q rest

/-- The second loop of `do_get`, from `it` on. It collects at most `size` events. -/
def readyLoop (fromId : EventId) (unixTimeNow : Int) (size : Nat) :
    Option TQueueMemoryStorage → Queue → List Event → List RawEvent →
      Option (Option TQueueMemoryStorage × Queue × List Event)
  | callback, q, ready, [] => some (callback, q, ready)
  | callback, q, ready, event :: rest =>
    if event.expiresAt < unixTimeNow ∨ event.data = [] then do
      let (callback, q) ← pop queueId q.tailId callback q event
      readyLoop fromId unixTimeNow size callback q ready rest
    else if event.eventId < fromId then none
    else if ready.length = size then some (callback, q, ready)
    else readyLoop fromId unixTimeNow size callback q (ready ++ [event.toEvent]) rest

/-- The events below `from_id` are popped where they are to be forgotten. -/
def forgetPrevious (callback : Option TQueueMemoryStorage) (q : Queue) (fromId : EventId) :
    Bool → Option (Option TQueueMemoryStorage × Queue)
  | true => popEach queueId q.tailId callback q
      (q.events.toList.takeWhile fun e => e.eventId < fromId)
  | false => some (callback, q)

def doGet (callback : Option TQueueMemoryStorage) (q : Queue) (fromId : EventId) (forget : Bool)
    (unixTimeNow : Int) (size : Nat) :
    Option (Option TQueueMemoryStorage × Queue × List Event) := do
  let (callback, q) ← forgetPrevious queueId callback q fromId forget
  readyLoop queueId fromId unixTimeNow size callback q [] (q.events.lowerBound fromId)

end

/-! ## All queues -/

/-- The keys of `queue_gc_at_`. -/
def gcKey (x : Int × QueueId) : Int ×ₗ QueueId := toLex x

structure TQueueImpl where
  queues : QueueId → Option Queue
  queueGcAt : Ordered gcKey
  callback : Option TQueueMemoryStorage

namespace TQueueImpl

def new (callback : Option TQueueMemoryStorage) : TQueueImpl := ⟨fun _ => none, .empty _, callback⟩

/-- `queues_[queue_id]`. -/
def queue (impl : TQueueImpl) (queueId : QueueId) : Queue := (impl.queues queueId).getD .new

/-- The members after the queue was changed. -/
def withQueue (impl : TQueueImpl) (queueId : QueueId) (q : Queue) : TQueueImpl :=
  { impl with queues := fun id => if id = queueId then some q else impl.queues id }

def getTail (impl : TQueueImpl) (queueId : QueueId) : EventId :=
  (impl.queues queueId).elim .empty Queue.tailId

/-- The events that a reader of the queue may be given. -/
def live (impl : TQueueImpl) (queueId : QueueId) : List Event :=
  (impl.queues queueId).elim [] Queue.live

end TQueueImpl

/-- The first half of `schedule_queue_gc`. -/
def unschedule (queueGcAt : Ordered gcKey) (queueId : QueueId) (q : Queue) :
    Option (Ordered gcKey) :=
  if q.gcAt ≠ 0 then
    if (queueGcAt.find? (gcKey (q.gcAt, queueId))).isSome then
      some (queueGcAt.erase (gcKey (q.gcAt, queueId)))
    else none
  else some queueGcAt

/-- The second half. -/
def reschedule (queueGcAt : Ordered gcKey) (queueId : QueueId) (gcAt : Int) :
    Option (Ordered gcKey) :=
  if gcAt ≠ 0 then
    match queueGcAt.emplace (gcAt, queueId) with
    | (queueGcAt, true) => some queueGcAt
    | (_, false) => none
  else some queueGcAt

def scheduleQueueGc (queueGcAt : Ordered gcKey) (queueId : QueueId) (q : Queue) (gcAt : Int) :
    Option (Ordered gcKey × Queue) := do
  let queueGcAt ← unschedule queueGcAt queueId q
  let queueGcAt ← reschedule queueGcAt queueId gcAt
  return (queueGcAt, { q with gcAt })

/-! ## Pushing -/

/-- The last event goes if it has no data. -/
def dropLast (callback : Option TQueueMemoryStorage) (q : Queue) :
    Option TQueueMemoryStorage × Queue :=
  match q.events.toList.getLast? with
  | none => (callback, q)
  | some last =>
    if last.data = [] then
      (if last.logEventId ≠ 0 then callback.map fun s => s.pop last.logEventId else callback,
        { q with events := q.events.erase last.eventId })
    else (callback, q)

/-- The first event of a queue decides when it is looked at again. -/
def scheduleFirst (queueGcAt : Ordered gcKey) (queueId : QueueId) (q : Queue) (event : RawEvent) :
    Option (Ordered gcKey × Queue) :=
  if q.events.toList = [] ∧ event.data ≠ [] then
    scheduleQueueGc queueGcAt queueId q event.expiresAt
  else some (queueGcAt, q)

/-- A new event is given to the callback. -/
def logEvent (callback : Option TQueueMemoryStorage) (queueId : QueueId) (event : RawEvent) :
    Option TQueueMemoryStorage × RawEvent :=
  match callback with
  | none => (none, event)
  | some storage =>
    if event.logEventId = 0 then
      let (storage, id) := storage.push queueId event
      (some storage, { event with logEventId := id })
    else (some storage, event)

/-- What `do_push` does to a queue that can take the event. -/
def addEvent (impl : TQueueImpl) (queueId : QueueId) (rawEvent : RawEvent) : Option TQueueImpl := do
  let (callback, q) := dropLast impl.callback (impl.queue queueId)
  let (queueGcAt, q) ← scheduleFirst impl.queueGcAt queueId q rawEvent
  let (callback, rawEvent) := logEvent callback queueId rawEvent
  let tailId ← rawEvent.eventId.next
  return { impl with queueGcAt, callback }.withQueue queueId
    { q with
      tailId
      totalEventLength := q.totalEventLength + rawEvent.data.length
      events := (q.events.emplace rawEvent).1 }

/-- With whether the event was added. -/
def doPush (impl : TQueueImpl) (queueId : QueueId) (rawEvent : RawEvent) :
    Option (TQueueImpl × Bool) :=
  let q := impl.queue queueId
  if rawEvent.eventId.value = 0 then none
  else if rawEvent.data.length > maxEventLength then some (impl, false)
  else if q.events.toList.length ≥ maxQueueEvents ∨
      q.totalEventLength > maxTotalEventLength - rawEvent.data.length ∨
      rawEvent.expiresAt ≤ 0 ∨ rawEvent.eventId < q.tailId then
    some (impl.withQueue queueId q, false)
  else (addEvent impl queueId rawEvent).map fun impl => (impl, true)

/-- `Random::fast(2 * MAX_QUEUE_EVENTS + 1, EventId::MAX_ID / 2)`. -/
def randomId (random : UInt32) : Option EventId :=
  let minValue : Int := 2 * maxQueueEvents + 1
  let maxValue : Int := maxId / 2
  EventId.fromInt32 (minValue + random.toNat % (maxValue - minValue + 1))

/-- The first id of a queue. -/
def firstId (hintNewId : EventId) (random : UInt32) : Option EventId :=
  if hintNewId.value = 0 then randomId random else some hintNewId

def startTail (q : Queue) (hintNewId : EventId) (random : UInt32) : Option Queue :=
  if q.tailId.value = 0 then (firstId hintNewId random).map fun tailId => { q with tailId }
  else some q

/-- The loop of `push` that chooses the id of the event. It makes at most two passes: in the second
one the id is new, and it has a next one. -/
def chooseLoop (queueId : QueueId) (hintNewId : EventId) (random : UInt32) :
    Nat → Option TQueueMemoryStorage → Queue →
      Option (Option TQueueMemoryStorage × Queue × EventId)
  | 0, _, _ => none
  | passes + 1, callback, q => do
      let q ← startTail q hintNewId random
      let eventId := q.tailId
      if eventId.value = 0 then none
      else if eventId.next.isSome then some (callback, q, eventId)
      else do
        -- the ids are used up: all events go, and the queue begins anew
        let (callback, q) ← popEach queueId .empty callback q q.events.toList
        if hintNewId.next.isNone then none
        else chooseLoop queueId hintNewId random passes callback { q with tailId := .empty }

def chooseId (callback : Option TQueueMemoryStorage) (q : Queue) (queueId : QueueId)
    (hintNewId : EventId) (random : UInt32) :
    Option (Option TQueueMemoryStorage × Queue × EventId) :=
  chooseLoop queueId hintNewId random 2 callback q

inductive PushError where
  | dataIsEmpty
  | dataIsTooBig
  | queueIsFull
  | queueSizeIsTooBig
  | alreadyExpired
deriving DecidableEq

def PushError.message : PushError → String
  | .dataIsEmpty => "Data is empty"
  | .dataIsTooBig => "Data is too big"
  | .queueIsFull => "Queue is full"
  | .queueSizeIsTooBig => "Queue size is too big"
  | .alreadyExpired => "Failed to add already expired event"

/-- What `push` does once the event has passed the checks. -/
def pushChecked (impl : TQueueImpl) (queueId : QueueId) (data : Bytes) (expiresAt extra : Int)
    (hintNewId : EventId) (random : UInt32) : Option (TQueueImpl × EventId) := do
  let (callback, q, eventId) ← chooseId impl.callback (impl.queue queueId) queueId hintNewId random
  let (impl, isAdded) ← doPush ({ impl with callback }.withQueue queueId q) queueId
    ⟨0, eventId, data, extra, expiresAt⟩
  if isAdded then return (impl, eventId) else none

def push (impl : TQueueImpl) (queueId : QueueId) (data : Bytes) (expiresAt extra : Int)
    (hintNewId : EventId) (random : UInt32) : Option (TQueueImpl × Except PushError EventId) :=
  let q := impl.queue queueId
  if data = [] then some (impl, .error .dataIsEmpty)
  else if data.length > maxEventLength then some (impl, .error .dataIsTooBig)
  else if q.events.toList.length ≥ maxQueueEvents then
    some (impl.withQueue queueId q, .error .queueIsFull)
  else if q.totalEventLength > maxTotalEventLength - data.length then
    some (impl.withQueue queueId q, .error .queueSizeIsTooBig)
  else if expiresAt ≤ 0 then some (impl.withQueue queueId q, .error .alreadyExpired)
  else (pushChecked impl queueId data expiresAt extra hintNewId random).map fun (impl, eventId) =>
    (impl, .ok eventId)

/-! ## Reading and collecting -/

def forget (impl : TQueueImpl) (queueId : QueueId) (eventId : EventId) : Option TQueueImpl :=
  match impl.queues queueId with
  | none => some impl
  | some q =>
    match q.events.find? eventId with
    | none => some impl
    | some event => do
        let (callback, q) ← pop queueId q.tailId impl.callback q event
        return { impl with callback }.withQueue queueId q

inductive GetError where
  | inTheFuture
  | inThePast
deriving DecidableEq

def GetError.message : GetError → String
  | .inTheFuture => "Specified from_id is in the future"
  | .inThePast => "Specified from_id is in the past"

/-- The size of the queue and the events in the span, which has room for `size` of them. -/
def get (impl : TQueueImpl) (queueId : QueueId) (fromId : EventId) (forgetPrevious : Bool)
    (unixTimeNow : Int) (size : Nat) :
    Option (TQueueImpl × Except GetError (Nat × List Event)) :=
  match impl.queues queueId with
  | none => some (impl, .ok (0, []))
  | some q =>
    if fromId.value > q.tailId.value + 10 then some (impl, .error .inTheFuture)
    else if fromId.value < q.head.value - maxQueueEvents then some (impl, .error .inThePast)
    else do
      let (callback, q, events) ←
        doGet queueId impl.callback q fromId forgetPrevious unixTimeNow size
      return ({ impl with callback }.withQueue queueId q, .ok (q.size, events))

/-- The time of the first event that is left, if one is. -/
def newGcAt (unixTimeNow : Int) : List Event → Option Int
  | [] => some 0
  | event :: _ =>
    if event.data = [] then none
    else if event.expiresAt ≥ unixTimeNow then some event.expiresAt
    else none

/-- The queue of one pass of `run_gc`, with the time for the next one and the number of events that
were deleted. -/
def collect (callback : Option TQueueMemoryStorage) (queueId : QueueId) (q : Queue)
    (unixTimeNow : Int) : Option (Option TQueueMemoryStorage × Queue × Int × Nat) :=
  match q.events.toList.head? with
  | none => some (callback, q, 0, 0)
  | some first => do
      let (callback, after, span) ← doGet queueId callback q first.eventId false unixTimeNow 1
      if after.size ≤ q.size then do
        let gcAt ← newGcAt unixTimeNow span
        return (callback, after, gcAt, q.size - after.size)
      else none

def collectFirst (impl : TQueueImpl) (gcAt : Int) (queueId : QueueId) (unixTimeNow : Int) :
    Option (TQueueImpl × Nat) :=
  let q := impl.queue queueId
  if q.gcAt ≠ gcAt then none
  else do
    let (callback, q, newGcAt, deleted) ← collect impl.callback queueId q unixTimeNow
    let (queueGcAt, q) ← scheduleQueueGc impl.queueGcAt queueId q newGcAt
    return ({ impl with callback, queueGcAt }.withQueue queueId q, deleted)

/-- The loop of `run_gc`. -/
def runGcLoop (unixTimeNow : Int) : Nat → TQueueImpl → Nat → Option (TQueueImpl × Nat)
  | 0, _, _ => none
  | passes + 1, impl, deletedEvents =>
    match impl.queueGcAt.toList.head? with
    | none => some (impl, deletedEvents)
    | some (gcAt, queueId) =>
      if gcAt ≥ unixTimeNow then some (impl, deletedEvents)
      else do
        let (impl, deleted) ← collectFirst impl gcAt queueId unixTimeNow
        runGcLoop unixTimeNow passes impl (deletedEvents + deleted)

/-- A pass looks at one entry of `queue_gc_at_`, and then it is not due any more. -/
def runGc (impl : TQueueImpl) (unixTimeNow : Int) : Option (TQueueImpl × Nat) :=
  runGcLoop unixTimeNow (impl.queueGcAt.toList.length + 1) impl 0

/-! ## Runs -/

inductive Op where
  /-- `random` is what the random generator would return. -/
  | push (queueId : QueueId) (data : Bytes) (expiresAt extra : Int) (hintNewId : EventId)
      (random : UInt32)
  | forget (queueId : QueueId) (eventId : EventId)
  | get (queueId : QueueId) (fromId : EventId) (forgetPrevious : Bool) (unixTimeNow : Int)
      (size : Nat)
  | runGc (unixTimeNow : Int)
deriving DecidableEq

def step (impl : TQueueImpl) : Op → Option TQueueImpl
  | .push queueId data expiresAt extra hintNewId random =>
    (push impl queueId data expiresAt extra hintNewId random).map Prod.fst
  | .forget queueId eventId => forget impl queueId eventId
  | .get queueId fromId forgetPrevious unixTimeNow size =>
    (get impl queueId fromId forgetPrevious unixTimeNow size).map Prod.fst
  | .runGc unixTimeNow => (runGc impl unixTimeNow).map Prod.fst

def run (impl : TQueueImpl) (ops : List Op) : Option TQueueImpl := ops.foldlM step impl

/-- One event of `replay`. -/
def replayEvent (impl : TQueueImpl) (x : Stored) : Option TQueueImpl :=
  match doPush impl x.queueId { x.event with logEventId := x.logEventId } with
  | some (impl, true) => some impl
  | _ => none

/-- The queues that a storage is replayed into. -/
def replay (storage : TQueueMemoryStorage) (impl : TQueueImpl) : Option TQueueImpl :=
  storage.events.toList.foldlM replayEvent impl

end Tdlib.TQueue
