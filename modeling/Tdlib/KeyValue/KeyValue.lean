import Tdlib.Binlog.Binlog
import Tdlib.Utils.OrderedEvents

/-!
# A key-value store over a concurrent log

`BinlogKeyValue` keeps a map in memory and logs each change of it. A call changes
the map and reserves sequence numbers for its events under a lock. The events are
made and sent only after the lock was released, so they reach the actor that owns
the log in any order; there an `OrderedEventsProcessor` puts them back into the
order of their numbers.

The system is the store, the messages that are on their way, and the actor. Any
message on its way may be delivered next.
-/

namespace Tdlib.KeyValue

open Tl Binlog

/-! ## The store -/

/-- `Event::store`. -/
def storeEvent (key value : Bytes) : Option Bytes := do
  let storedKey ← storeString key
  let storedValue ← storeString value
  return storedKey ++ storedValue

/-- `Event::parse`. The status of the parser is not looked at. -/
def parseEvent (data : Bytes) : Bytes × Bytes :=
  let (key, parser) := (TlParser.ofSlice data).fetchString
  let (value, _) := parser.fetchString
  (key, value)

/-- A key with its value and the id of the event that holds them. -/
structure Entry where
  key : Bytes
  value : Bytes
  id : UInt64
deriving DecidableEq

structure BinlogKeyValue where
  map : List Entry
  magic : Int32
deriving DecidableEq

def defaultMagic : Int32 := 0x2a280000

def magicOf (overrideMagic : Int32) : Int32 :=
  if overrideMagic ≠ 0 then overrideMagic else defaultMagic

/-- `emplace` does nothing where the key is there. -/
def emplace (map : List Entry) (entry : Entry) : List Entry :=
  if map.any fun e => e.key = entry.key then map else map ++ [entry]

/-- The callback of `init`. -/
def initCallback (map : List Entry) (event : BinlogEvent) : List Entry :=
  let (key, value) := parseEvent event.data
  emplace map ⟨key, value, event.id⟩

/-- The map that it makes of the events of a log. -/
def initMap (events : List BinlogEvent) : List Entry := events.foldl initCallback []

/-- The entry takes the place of the one with its key, if there is one. -/
def put (map : List Entry) (entry : Entry) : List Entry :=
  if map.any fun e => e.key = entry.key then
    map.map fun e => if e.key = entry.key then entry else e
  else map ++ [entry]

/-- What `add_event` sends to the actor. -/
structure Message where
  seqNo : UInt64
  rawEvent : Bytes
deriving DecidableEq

/-- What a call leaves behind: the store, the next sequence number, what it returns, and what it
sends. -/
structure Outcome where
  kv : BinlogKeyValue
  lastId : UInt64
  seqNo : UInt64
  messages : List Message
deriving DecidableEq

namespace BinlogKeyValue

variable (crc32 : Bytes → UInt32)

def set (kv : BinlogKeyValue) (lastId : UInt64) (key value : Bytes) : Option Outcome :=
  let old := kv.map.find? fun e => e.key = key
  if old.any fun e => e.value = value then some ⟨kv, lastId, 0, []⟩
  else do
    let oldId := old.elim 0 Entry.id
    let rewrite := oldId ≠ 0
    let id := if rewrite then oldId else lastId
    let data ← storeEvent key value
    let raw ← BinlogEvent.createRaw crc32 id kv.magic (if rewrite then Flags.rewrite.toInt32 else 0)
      data
    return ⟨{ kv with map := put kv.map ⟨key, value, id⟩ }, lastId + 1, lastId, [⟨lastId, raw⟩]⟩

def erase (kv : BinlogKeyValue) (lastId : UInt64) (key : Bytes) : Option Outcome :=
  match kv.map.find? fun e => e.key = key with
  | none => some ⟨kv, lastId, 0, []⟩
  | some old => do
      let raw ← BinlogEvent.createRaw crc32 old.id ServiceTypes.empty.toInt32
        Flags.rewrite.toInt32 []
      return ⟨{ kv with map := kv.map.filter fun e => e.key ≠ key }, lastId + 1, lastId,
        [⟨lastId, raw⟩]⟩

/-- One message for each id, with consecutive numbers. -/
def eraseMessages : UInt64 → List UInt64 → Option (List Message)
  | _, [] => some []
  | seqNo, id :: ids => do
      let raw ← BinlogEvent.createRaw crc32 id ServiceTypes.empty.toInt32 Flags.rewrite.toInt32 []
      let rest ← eraseMessages (seqNo + 1) ids
      return ⟨seqNo, raw⟩ :: rest

/-- The entries whose keys begin with `start`. -/
def beginning (kv : BinlogKeyValue) (start : Bytes) : List Entry :=
  kv.map.filter fun e => start.isPrefixOf e.key

/-- `order` is the order in which the hash map happens to be iterated over. The number of ids has to
fit in 32 bits. -/
def eraseByPrefix (kv : BinlogKeyValue) (lastId : UInt64) (order : List Entry → List Entry)
    (start : Bytes) : Option Outcome :=
  let ids := (order (kv.beginning start)).map Entry.id
  if ids.length < 0x80000000 then do
    let messages ← eraseMessages crc32 lastId ids
    return ⟨{ kv with map := kv.map.filter fun e => ¬ start.isPrefixOf e.key },
      lastId + UInt64.ofNat ids.length, lastId, messages⟩
  else none

end BinlogKeyValue

/-- The order of iteration over a hash map: any. -/
structure Iteration where
  order : List Entry → List Entry
  perm : ∀ entries, (order entries).Perm entries

inductive Call where
  | set (key value : Bytes)
  | erase (key : Bytes)
  | eraseByPrefix (iteration : Iteration) (start : Bytes)

def perform (crc32 : Bytes → UInt32) (kv : BinlogKeyValue) (lastId : UInt64) :
    Call → Option Outcome
  | .set key value => kv.set crc32 lastId key value
  | .erase key => kv.erase crc32 lastId key
  | .eraseByPrefix iteration start => kv.eraseByPrefix crc32 lastId iteration.order start

/-- The store and the next number after several calls. -/
def performAll (crc32 : Bytes → UInt32) (kv : BinlogKeyValue) (lastId : UInt64) :
    List Call → Option (BinlogKeyValue × UInt64)
  | [] => some (kv, lastId)
  | call :: calls => do
      let out ← perform crc32 kv lastId call
      performAll crc32 out.kv out.lastId calls

/-! ## The actor -/

structure BinlogActor where
  binlog : Binlog
  processor : OrderedEventsProcessor Bytes
deriving DecidableEq

section

variable (platform : Platform) (entropy : Entropy)

/-- The function that the processor calls for each event in its turn. -/
def doAddRawEvent (b : Binlog) (rawEvent : Bytes) : Option Binlog :=
  if rawEvent = [] then some b else b.addRawEvent platform entropy rawEvent

/-- Whether `try_flush` flushes depends on the clock. -/
def BinlogActor.addRawEvent (actor : BinlogActor) (message : Message) (flush : Bool) :
    Option BinlogActor := do
  let (processor, released) ← actor.processor.add message.seqNo message.rawEvent
  let b ← (released.map Prod.snd).foldlM (doAddRawEvent platform entropy) actor.binlog
  return ⟨if flush then b.flush else b, processor⟩

end

/-! ## The system -/

/-- The store, and the actor that writes its log. -/
structure System where
  kv : BinlogKeyValue
  /-- `last_id_` of `ConcurrentBinlog`: the next number. -/
  lastId : UInt64
  /-- Sent and not delivered yet. -/
  inFlight : List Message
  actor : BinlogActor
deriving DecidableEq

/-- What can happen next. -/
inductive Action where
  /-- A client makes a call. -/
  | call (call : Call)
  /-- The `i`-th of the messages on their way is delivered. The log may need random bytes. -/
  | deliver (entropy : Entropy) (i : Nat) (flush : Bool)
  /-- The timeout of the actor expires. -/
  | flush

section

variable (platform : Platform)

def step (s : System) : Action → Option System
  | .call call => do
      let out ← perform platform.crc32 s.kv s.lastId call
      return { s with kv := out.kv, lastId := out.lastId, inFlight := s.inFlight ++ out.messages }
  | .deliver entropy i flush =>
    match s.inFlight[i]? with
    | none => none
    | some message => do
        let actor ← s.actor.addRawEvent platform entropy message flush
        return { s with inFlight := s.inFlight.eraseIdx i, actor }
  | .flush => some { s with actor := { s.actor with binlog := s.actor.binlog.flush } }

def run (s : System) (actions : List Action) : Option System :=
  actions.foldlM (step platform) s

/-- `init` of a store on a file. -/
def start (entropy : Entropy) (file : Bytes) (dbKey : DbKey) (overrideMagic : Int32) :
    Option System :=
  match Binlog.init platform entropy file dbKey .empty with
  | some (.ok (b, events)) =>
    some ⟨⟨initMap events, magicOf overrideMagic⟩, b.lastId + 1, [], ⟨b, .new (b.lastId + 1)⟩⟩
  | _ => none

end

/-- The calls among some actions, in order. -/
def callsOf : List Action → List Call
  | [] => []
  | .call call :: actions => call :: callsOf actions
  | _ :: actions => callsOf actions

/-- The bytes of the log, in the file and on their way there. -/
def System.log (s : System) : Bytes := s.actor.binlog.file ++ s.actor.binlog.buffer

end Tdlib.KeyValue
