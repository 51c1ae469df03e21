import Tdlib.Binlog.Event
import Tdlib.TQueue.Calls
import Tdlib.Utils.TlValues

/-!
# Log records of events

`TQueueBinlog` keeps the events of the queues in a log. A record holds the queue, the id, the time
and the data of an event, and its type says whether an extra number follows.

On a restart the records are given to `do_push`, whatever they hold. The id has been checked by then
to be one that an `EventId` can hold, but `do_push` asks for more: it is not to be 0, and the tail
comes after it.
-/

namespace Tdlib.TQueue

open Lib Tl Binlog

structure TQueueLogEvent where
  queueId : Int64
  eventId : Int32
  expiresAt : Int32
  data : Bytes
  extra : Int64
deriving DecidableEq

namespace TQueueLogEvent

/-- `none` where the data is too long for a string. -/
def store (e : TQueueLogEvent) : Option Bytes :=
  (storeString e.data).map fun data =>
    storeLong e.queueId ++ (storeInt e.eventId ++ (storeInt e.expiresAt ++ (data ++
      if e.extra ≠ 0 then storeLong e.extra else [])))

def parse (p : TlParser) (hasExtra : Int32) : TQueueLogEvent × TlParser :=
  let (queueId, p) := p.fetchLong
  let (eventId, p) := p.fetchInt
  let (expiresAt, p) := p.fetchInt
  let (data, p) := p.fetchString
  if hasExtra = 0 then (⟨queueId, eventId, expiresAt, data, 0⟩, p)
  else
    let (extra, p) := p.fetchLong
    (⟨queueId, eventId, expiresAt, data, extra⟩, p)

/-- The event for `do_push`. -/
def rawEvent (e : TQueueLogEvent) (logEventId : UInt64) (eventId : EventId) : RawEvent :=
  ⟨logEventId.toNat, eventId, e.data, e.extra.toInt, e.expiresAt.toInt⟩

end TQueueLogEvent

namespace TQueueBinlog

def binlogEventType : Int32 := 2314

/-- The type of the record that is written for an event. -/
def magic (e : TQueueLogEvent) : Int32 := binlogEventType + if e.extra ≠ 0 then 1 else 0

inductive ReplayError where
  | wrongMagic
  | parser (error : String)
  | invalidId
  | failedToAdd
deriving DecidableEq

def ReplayError.message : ReplayError → String
  | .wrongMagic => "Wrong magic"
  | .parser error => error
  | .invalidId => "Invalid ID"
  | .failedToAdd => "Failed to add event"

/-- The first half of `replay`. -/
def parseRecord (binlogEvent : BinlogEvent) : Except ReplayError TQueueLogEvent :=
  let hasExtra := binlogEvent.type - binlogEventType
  if hasExtra ≠ 0 ∧ hasExtra ≠ 1 then .error .wrongMagic
  else
    let (event, p) := TQueueLogEvent.parse (.ofSlice binlogEvent.data) hasExtra
    match p.fetchEnd.getStatus with
    | some error => .error (.parser error)
    | none => .ok event

/-- The second half. -/
def pushRecord (logEventId : UInt64) (event : TQueueLogEvent) (impl : TQueueImpl) :
    Option (TQueueImpl × Except ReplayError Unit) :=
  match EventId.fromInt32 event.eventId.toInt with
  | none => some (impl, .error .invalidId)
  | some eventId =>
    (doPush impl event.queueId.toInt (event.rawEvent logEventId eventId)).map fun (impl, isAdded) =>
      (impl, if isAdded then .ok () else .error .failedToAdd)

def replay (binlogEvent : BinlogEvent) (impl : TQueueImpl) :
    Option (TQueueImpl × Except ReplayError Unit) :=
  match parseRecord binlogEvent with
  | .error error => some (impl, .error error)
  | .ok event => pushRecord binlogEvent.id event impl

/-! ## Records that were written -/

variable {event : TQueueLogEvent} {binlogEvent : BinlogEvent} {impl : TQueueImpl}

theorem parse_store {stored : Bytes} (h : event.store = some stored) (n : Nat) :
    TQueueLogEvent.parse (.ok n stored) (magic event - binlogEventType) = (event, .ok n []) := by
  obtain ⟨data, hdata, rfl⟩ := Option.map_eq_some_iff.mp h
  unfold TQueueLogEvent.parse magic
  rw [TlParser.fetchLong_ok]
  dsimp only
  rw [TlParser.fetchInt_ok]
  rw [TlParser.fetchInt_ok]
  rw [TlParser.fetchString_ok n hdata]
  by_cases hextra : event.extra = 0
  · rw [if_neg (not_not.mpr hextra), if_neg (not_not.mpr hextra), if_pos (by decide), ← hextra]
  · have hlast : (TlParser.ok n (storeLong event.extra)).fetchLong = (event.extra, .ok n []) := by
      have hback := TlParser.fetchLong_ok n event.extra []
      rwa [List.append_nil] at hback
    rw [if_pos hextra, if_pos hextra, if_neg (by decide), hlast]

/-- **A record that was written for an event is read back.** -/
theorem parseRecord_store (h : event.store = some binlogEvent.data)
    (htype : binlogEvent.type = magic event) : parseRecord binlogEvent = .ok event := by
  have hmagic : ¬(magic event - binlogEventType ≠ 0 ∧ magic event - binlogEventType ≠ 1) := by
    unfold magic
    split
    · decide
    · decide
  unfold parseRecord
  rw [htype, if_neg hmagic, TlParser.ofSlice_eq, parse_store h]
  rfl

/-! ## Arbitrary records -/

/-- An error leaves everything as it was. Without an error the event was added. -/
def Safe (event : TQueueLogEvent) (logEventId : UInt64) (impl : TQueueImpl)
    (result : Option (TQueueImpl × Except ReplayError Unit)) : Prop :=
  (∃ error, result = some (impl, .error error)) ∨
  ∃ impl' eventId, result = some (impl', .ok ()) ∧ eventId.value = event.eventId.toInt ∧
    Added event.queueId.toInt (event.rawEvent logEventId eventId) impl impl'

/-- The ids that `do_push` cannot take: 0, and the last one if nothing else is wrong with the
event. -/
def Accident (event : TQueueLogEvent) (logEventId : UInt64) (impl : TQueueImpl) : Prop :=
  ∃ eventId : EventId, eventId.value = event.eventId.toInt ∧
    (eventId.value = 0 ∨ eventId.value + 1 = maxId ∧
      Accepts (impl.queue event.queueId.toInt) (event.rawEvent logEventId eventId))

/-- An event with a valid id is refused for its time only, after `queues_[queue_id]` has made a
queue that was not there. -/
def Leftover (event : TQueueLogEvent) (impl : TQueueImpl) : Prop :=
  (∃ eventId : EventId, eventId.value = event.eventId.toInt) ∧
    impl.queues event.queueId.toInt = none ∧ event.data.length ≤ maxEventLength ∧
    event.expiresAt.toInt ≤ 0

variable {logEventId : UInt64}

theorem pushRecord_invalid (h : EventId.fromInt32 event.eventId.toInt = none) :
    pushRecord logEventId event impl = some (impl, .error .invalidId) := by
  unfold pushRecord
  rw [h]

theorem pushRecord_valid {eventId : EventId} (h : eventId.value = event.eventId.toInt) :
    pushRecord logEventId event impl =
      (doPush impl event.queueId.toInt (event.rawEvent logEventId eventId)).map
        fun (impl, isAdded) => (impl, if isAdded then .ok () else .error .failedToAdd) := by
  have hsome : EventId.fromInt32 event.eventId.toInt = some eventId := by
    rw [← h]
    exact dif_pos eventId.isValidId
  unfold pushRecord
  rw [hsome]

/-- `do_push` does not survive such an id. -/
theorem pushRecord_accident (h : Accident event logEventId impl) :
    pushRecord logEventId event impl = none := by
  obtain ⟨eventId, hvalue, hcases⟩ := h
  rw [pushRecord_valid hvalue, Option.map_eq_none_iff]
  by_cases hzero : eventId.value = 0
  · exact if_pos hzero
  · obtain ⟨hlast, haccepts⟩ := hcases.resolve_left hzero
    refine doPush_last hzero haccepts ?_
    show EventId.fromInt32 (eventId.value + 1) = none
    exact dif_neg (by omega)

/-- A queue that is there is not changed. -/
theorem withQueue_queue {queueId : QueueId} {q : Queue} (h : impl.queues queueId = some q) :
    impl.withQueue queueId (impl.queue queueId) = impl := by
  unfold TQueueImpl.withQueue
  congr 1
  funext id
  split
  · rename_i hid
    rw [hid, h, queue_of_queues h]
  · rfl

theorem refused_ne {queueId : QueueId} {e : RawEvent} (h : impl.queues queueId = none)
    (hsize : e.data.length ≤ maxEventLength) : refused impl queueId e ≠ impl := by
  rw [refused, if_neg (Nat.not_lt_of_le hsize)]
  intro hsame
  have hnone : (impl.withQueue queueId (impl.queue queueId)).queues queueId = none := by
    rw [hsame, h]
  simp [TQueueImpl.withQueue] at hnone

theorem pushRecord_refused {eventId : EventId} (hvalue : eventId.value = event.eventId.toInt)
    (hzero : eventId.value ≠ 0)
    (hnot : ¬Accepts (impl.queue event.queueId.toInt) (event.rawEvent logEventId eventId)) :
    pushRecord logEventId event impl
      = some (refused impl event.queueId.toInt (event.rawEvent logEventId eventId),
        .error .failedToAdd) := by
  rw [pushRecord_valid hvalue, doPush_refused hzero hnot]
  rfl

/-- Every other record is taken, or refused without a trace. -/
theorem pushRecord_safe (himpl : impl.Sound) (h : ¬Accident event logEventId impl)
    (hleft : ¬Leftover event impl) :
    Safe event logEventId impl (pushRecord logEventId event impl) := by
  cases hid : EventId.fromInt32 event.eventId.toInt with
  | none => exact .inl ⟨.invalidId, pushRecord_invalid hid⟩
  | some eventId =>
    have hvalue : eventId.value = event.eventId.toInt := by
      unfold EventId.fromInt32 at hid
      split at hid
      · cases hid
        rfl
      · cases hid
    have hzero : eventId.value ≠ 0 := fun hzero => h ⟨eventId, hvalue, .inl hzero⟩
    have hvalid := eventId.isValidId
    by_cases haccepts : Accepts (impl.queue event.queueId.toInt) (event.rawEvent logEventId eventId)
    · have hlast : eventId.value + 1 ≠ maxId := fun hlast =>
        h ⟨eventId, hvalue, .inr ⟨hlast, haccepts⟩⟩
      have hnext : eventId.next.isSome := Option.isSome_iff_exists.mpr
        ⟨⟨eventId.value + 1, by omega⟩, EventId.next_eq_some.mpr rfl⟩
      obtain ⟨impl', hpush, hadded⟩ := doPush_ok himpl (haccepts.fits hzero hnext)
      rw [pushRecord_valid hvalue, hpush]
      exact .inr ⟨impl', eventId, rfl, hvalue, hadded⟩
    · refine .inl ⟨.failedToAdd, ?_⟩
      rw [pushRecord_refused hvalue hzero haccepts, refused]
      split
      · rfl
      rename_i hsize
      have hsize : event.data.length ≤ maxEventLength := Nat.le_of_not_lt hsize
      cases hqueue : impl.queues event.queueId.toInt with
      | some q => rw [withQueue_queue hqueue]
      | none =>
        -- a new queue takes every event that has not expired
        refine absurd ⟨⟨eventId, hvalue⟩, hqueue, hsize, not_lt.mp fun hexpiry => haccepts ?_⟩ hleft
        have hlimit : maxEventLength ≤ maxTotalEventLength := by decide
        rw [TQueueImpl.queue, hqueue]
        exact ⟨hvalid.1, hsize, by decide, (zero_add _).trans_le (hsize.trans hlimit), hexpiry⟩

theorem replay_parsed (hparse : parseRecord binlogEvent = .ok event) :
    replay binlogEvent impl = pushRecord binlogEvent.id event impl := by
  unfold replay
  rw [hparse]

/-- **Which records can be replayed.** A record that was parsed gives an error and changes nothing,
or its event is added, unless its id is 0 or the last one, or it leaves a new queue behind. -/
theorem replay_safe_iff (himpl : impl.Sound) (hparse : parseRecord binlogEvent = .ok event) :
    Safe event binlogEvent.id impl (replay binlogEvent impl) ↔
      ¬Accident event binlogEvent.id impl ∧ ¬Leftover event impl := by
  rw [replay_parsed hparse]
  refine ⟨fun hsafe => ?_, fun ⟨h, hleft⟩ => pushRecord_safe himpl h hleft⟩
  have hnot : ¬Accident event binlogEvent.id impl := by
    intro haccident
    rw [pushRecord_accident haccident] at hsafe
    rcases hsafe with ⟨_, hnone⟩ | ⟨_, _, hnone, -⟩
    · cases hnone
    · cases hnone
  refine ⟨hnot, ?_⟩
  rintro ⟨⟨eventId, hvalue⟩, hqueue, hsize, hexpiry⟩
  rw [pushRecord_refused hvalue (fun hzero => hnot ⟨eventId, hvalue, .inl hzero⟩)
    (fun haccepts => absurd haccepts.expiry (not_lt_of_ge hexpiry))] at hsafe
  rcases hsafe with ⟨_, hsame⟩ | ⟨_, _, herror, -⟩
  · exact refused_ne hqueue hsize (congrArg Prod.fst (Option.some.inj hsame))
  · cases herror

/-- A record with this event. -/
def record (event : TQueueLogEvent) (data : Bytes) : BinlogEvent :=
  ⟨0, 0, 1, magic event, 0, 0, data, 0, []⟩

/-- The event 5 is added to a new queue. -/
theorem replay_safe_five : ∃ data, parseRecord (record ⟨1, 5, 100, [7], 0⟩ data)
      = .ok ⟨1, 5, 100, [7], 0⟩ ∧
    Safe ⟨1, 5, 100, [7], 0⟩ 1 (.new none)
      (replay (record ⟨1, 5, 100, [7], 0⟩ data) (.new none)) := by
  obtain ⟨data, hdata⟩ : ∃ data, TQueueLogEvent.store ⟨1, 5, 100, [7], 0⟩ = some data := ⟨_, rfl⟩
  have hparse : parseRecord (record ⟨1, 5, 100, [7], 0⟩ data) = .ok ⟨1, 5, 100, [7], 0⟩ :=
    parseRecord_store hdata rfl
  refine ⟨data, hparse, (replay_safe_iff (.new none) hparse).mpr
    ⟨?_, fun hleft => absurd hleft.2.2.2 (by decide)⟩⟩
  rintro ⟨eventId, hvalue, hcases⟩
  have hfive : eventId.value = 5 := hvalue
  have hmax : maxId = 2000000000 := rfl
  rcases hcases with hzero | ⟨hlast, -⟩
  · omega
  · omega

/-- Two well-formed records, one with the id 0 and one with the last id, are not survived. -/
theorem replay_aborts : ∃ zero last : BinlogEvent,
    parseRecord zero = .ok ⟨1, 0, 100, [7], 0⟩ ∧ replay zero (.new none) = none ∧
    parseRecord last = .ok ⟨1, 1999999999, 100, [7], 0⟩ ∧ replay last (.new none) = none := by
  obtain ⟨data, hdata⟩ : ∃ data, TQueueLogEvent.store ⟨1, 0, 100, [7], 0⟩ = some data := ⟨_, rfl⟩
  obtain ⟨data', hdata'⟩ : ∃ data, TQueueLogEvent.store ⟨1, 1999999999, 100, [7], 0⟩ = some data :=
    ⟨_, rfl⟩
  have hzero : parseRecord (record ⟨1, 0, 100, [7], 0⟩ data) = .ok ⟨1, 0, 100, [7], 0⟩ :=
    parseRecord_store hdata rfl
  have hlast : parseRecord (record ⟨1, 1999999999, 100, [7], 0⟩ data')
      = .ok ⟨1, 1999999999, 100, [7], 0⟩ := parseRecord_store hdata' rfl
  -- nothing else is wrong with the second event
  have haccepts : Accepts ((TQueueImpl.new none).queue 1)
      (TQueueLogEvent.rawEvent ⟨1, 1999999999, 100, [7], 0⟩ 1 ⟨1999999999, by decide⟩) :=
    ⟨by decide, by decide, by decide, by decide, by decide⟩
  refine ⟨_, _, hzero, ?_, hlast, ?_⟩
  · rw [replay_parsed hzero]
    exact pushRecord_accident ⟨.empty, rfl, .inl rfl⟩
  · rw [replay_parsed hlast]
    exact pushRecord_accident ⟨⟨1999999999, by decide⟩, rfl, .inr ⟨rfl, haccepts⟩⟩

end TQueueBinlog

end Tdlib.TQueue
