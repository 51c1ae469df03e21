import Tdlib.Binlog.Event
import Tdlib.Lib.LowerBound

/-!
# The event index

`BinlogEventsProcessor` keeps the events of a log in two parallel vectors ordered
by id. A slot's entry in `ids_` is twice the id of its event, plus one once the
event was erased, so that erasing keeps the order and the low bit tells the dead
slots. When more than three quarters of the slots are dead both vectors are
compacted.
-/

namespace Tdlib.Binlog

open Lib

inductive ProcessorError where
  /-- "Ignore rewrite log event .." -/
  | ignoreRewrite (event : BinlogEvent)
  /-- The id is not above the last one. -/
  | badOrder (offset size : Nat) (back fixedId : UInt64) (event : BinlogEvent) (totalEvents : Nat)
      (totalRawEventsSize : Int)
deriving DecidableEq

structure BinlogEventsProcessor where
  /-- Holds `id * 2 + was_deleted`. -/
  ids : List UInt64
  events : List BinlogEvent
  totalEvents : Nat
  emptyEvents : Nat
  lastId : UInt64
  offset : Nat
  totalRawEventsSize : Int
deriving DecidableEq

namespace BinlogEventsProcessor

def empty : BinlogEventsProcessor := ⟨[], [], 0, 0, 0, 0, 0⟩

/-- The loop of `compactify`: the slots whose low bit is clear move to the front. -/
def compactLoop : List UInt64 → List BinlogEvent → List UInt64 × List BinlogEvent
  | id :: ids, event :: events =>
    let (idsTo, eventsTo) := compactLoop ids events
    if id &&& 1 = 0 then (id :: idsTo, event :: eventsTo) else (idsTo, eventsTo)
  | _, _ => ([], [])

/-- `none` where a `CHECK` fails. -/
def compactify (p : BinlogEventsProcessor) : Option BinlogEventsProcessor :=
  if p.ids.length ≠ p.events.length then none else
  let (ids, events) := compactLoop p.ids p.events
  if ids.length ≠ events.length then none
  else some { p with ids, events, totalEvents := ids.length, emptyEvents := 0 }

/-- A new slot at the end. -/
def push (p : BinlogEventsProcessor) (event : BinlogEvent) (fixedId : UInt64) :
    BinlogEventsProcessor :=
  { p with
    lastId := event.id
    totalRawEventsSize := p.totalRawEventsSize + event.rawEvent.length
    totalEvents := p.totalEvents + 1
    ids := p.ids ++ [fixedId]
    events := p.events ++ [event] }

/-- The branch of `do_event` for a `Rewrite` of an id that is not above the last one. -/
def rewriteEvent (p : BinlogEventsProcessor) (event : BinlogEvent) (fixedId : UInt64) :
    Except ProcessorError BinlogEventsProcessor :=
  let pos := lowerBound p.ids fixedId
  if p.ids[pos]? ≠ some fixedId then .error (.ignoreRewrite event) else
  let oldSize : Int := p.events[pos]?.elim 0 fun old => old.rawEvent.length
  let size := p.totalRawEventsSize - oldSize
  if event.type = ServiceTypes.empty.toInt32 then
    .ok { p with
      ids := p.ids.set pos (fixedId + 1)
      events := p.events.modify pos BinlogEvent.clear
      emptyEvents := p.emptyEvents + 1
      totalRawEventsSize := size }
  else
    .ok { p with
      events := p.events.set pos (event.dropFlag .rewrite)
      totalRawEventsSize := size + event.rawEvent.length }

/-- The last branch of `do_event`: the id must be above the last one. -/
def appendEvent (p : BinlogEventsProcessor) (event : BinlogEvent) (fixedId : UInt64) :
    Except ProcessorError BinlogEventsProcessor :=
  match p.ids.getLast? with
  | some back =>
    if back < fixedId then .ok (p.push event fixedId)
    else .error (.badOrder p.offset p.ids.length back fixedId event p.totalEvents
      p.totalRawEventsSize)
  | none => .ok (p.push event fixedId)

/-- `do_event` up to the point where it considers compacting. -/
def applyEvent (p : BinlogEventsProcessor) (event : BinlogEvent) :
    Except ProcessorError BinlogEventsProcessor :=
  let p := { p with offset := event.offset }
  let fixedId := event.id * 2
  if event.has .rewrite && p.ids.getLast?.any fun back => back ≥ fixedId then
    p.rewriteEvent event fixedId
  else if event.type < 0 then .ok p
  else p.appendEvent event fixedId

/-- `add_event`. The outer `none` is a failed `CHECK` of `compactify`. -/
def doEvent (p : BinlogEventsProcessor) (event : BinlogEvent) :
    Option (Except ProcessorError BinlogEventsProcessor) :=
  match p.applyEvent event with
  | .error e => some (.error e)
  | .ok q =>
    if q.totalEvents > 10 ∧ q.emptyEvents * 4 > q.totalEvents * 3 then q.compactify.map .ok
    else some (.ok q)

/-- The loop of `for_each` after the slot `prev`: `none` where the order check fails. -/
def forEachLoop (prev : Option UInt64) :
    List UInt64 → List BinlogEvent → Option (List BinlogEvent)
  | [], _ => some []
  | _ :: _, [] => none
  | id :: ids, event :: events =>
    if prev.all fun p => p < id then
      (forEachLoop (some id) ids events).map fun rest =>
        if id &&& 1 = 0 then event :: rest else rest
    else none

/-- The events `for_each` hands to its callback, in order. -/
def forEach (p : BinlogEventsProcessor) : Option (List BinlogEvent) :=
  forEachLoop none p.ids p.events

/-- Feed a log to the index; `none` at the first error. -/
def addAll (p : BinlogEventsProcessor) : List BinlogEvent → Option BinlogEventsProcessor
  | [] => some p
  | event :: events =>
    match p.doEvent event with
    | some (.ok q) => q.addAll events
    | _ => none

end BinlogEventsProcessor

end Tdlib.Binlog
