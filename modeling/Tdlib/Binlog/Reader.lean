import Tdlib.Binlog.Event
import Tdlib.Lib.Frames

/-!
# The incremental log reader

`BinlogReader` is fed bytes by its caller and asked for the next event. It first
waits for the four bytes of a length word, then for that many bytes; between two
calls it remembers only which of the two it is waiting for, and the length.

A caller is a schedule of deliveries and calls. The log code's own loop is one of
them, but nothing below depends on how it chooses its reads.
-/

namespace Tdlib.Binlog

open Lib Tl

inductive ReadState where
  | readLength
  | readEvent
deriving DecidableEq

structure BinlogReader where
  input : Bytes
  state : ReadState
  size : Nat
  offset : Nat
  expectedSize : Nat
  isEncrypted : Bool
deriving DecidableEq

inductive ReadError where
  /-- "Too big event [size:..]" -/
  | tooBig (size : Nat)
  /-- "Too small event [size:..]" -/
  | tooSmall (size : Nat)
  /-- "Event of size .. at offset .. out of .. [is_encrypted:..]" and a dump of the first bytes -/
  | badSize (size offset expectedSize : Nat) (isEncrypted : Bool)
  | event (status : BinlogEvent.Status)
deriving DecidableEq

/-- The code of the returned `Status`; the caller tells only `-2` apart. -/
def ReadError.code : ReadError → Int
  | .badSize .. => -2
  | _ => 0

inductive ReadResult where
  /-- That many bytes of input are needed. -/
  | need (size : Nat)
  /-- `0` was returned and the event was filled in. -/
  | event (event : BinlogEvent)
  | error (error : ReadError)
  /-- A `CHECK` failed. -/
  | abort
deriving DecidableEq

/-- `static_cast<size_t>` of the `int32` at the front of the input: negative lengths become huge. -/
def lengthWord (input : Bytes) : Nat :=
  (TlParser.ofSlice (input.take 4)).fetchInt.1.toInt64.toUInt64.toNat

namespace BinlogReader

/-- `set_input` on a fresh reader. -/
def start (input : Bytes) (isEncrypted : Bool) (expectedSize : Nat) : BinlogReader :=
  ⟨input, .readLength, 0, 0, expectedSize, isEncrypted⟩

section

variable (crc32 : Bytes → UInt32)

/-- The second half of `read_next`, once the length is known. -/
def readEvent (reader : BinlogReader) : ReadResult × BinlogReader :=
  if reader.input.length < reader.size then (.need reader.size, reader) else
  let raw := reader.input.take reader.size
  let reader := { reader with input := reader.input.drop reader.size }
  match BinlogEvent.init crc32 raw true with
  | none => (.abort, reader)
  | some (.error status) => (.error (.event status), reader)
  | some (.ok event) =>
    let offset := reader.offset + reader.size
    (.event { event with offset }, { reader with offset, state := .readLength })

def readNext (reader : BinlogReader) : ReadResult × BinlogReader :=
  match reader.state with
  | .readLength =>
    if reader.input.length < 4 then (.need 4, reader) else
    let size := lengthWord reader.input
    let reader := { reader with size }
    if size > BinlogEvent.maxSize then (.error (.tooBig size), reader)
    else if size < BinlogEvent.minSize then (.error (.tooSmall size), reader)
    else if size % 4 ≠ 0 then
      (.error (.badSize size reader.offset reader.expectedSize reader.isEncrypted), reader)
    else readEvent crc32 { reader with state := .readEvent }
  | .readEvent => readEvent crc32 reader

end

end BinlogReader

/-! ## Schedules -/

/-- What a caller does with a reader. -/
inductive Action where
  | deliver (chunk : Bytes)
  | read
deriving DecidableEq

/-- The reader and the events it has produced so far. -/
structure Progress where
  reader : BinlogReader
  events : List BinlogEvent
deriving DecidableEq

section

variable (crc32 : Bytes → UInt32)

/-- `none` once the reader reports an error or aborts. -/
def Progress.step (p : Progress) : Action → Option Progress
  | .deliver chunk => some { p with reader := { p.reader with input := p.reader.input ++ chunk } }
  | .read =>
    match p.reader.readNext crc32 with
    | (.need _, reader) => some { p with reader }
    | (.event event, reader) => some ⟨reader, p.events ++ [event]⟩
    | (.error _, _) => none
    | (.abort, _) => none

def Progress.run (p : Progress) (actions : List Action) : Option Progress :=
  actions.foldlM (Progress.step crc32) p

end

/-- The bytes a schedule hands over, in order. -/
def delivered : List Action → Bytes
  | [] => []
  | .deliver chunk :: actions => chunk ++ delivered actions
  | .read :: actions => delivered actions

/-! ## Logs -/

/-- A record whose image the reader takes: its size is aligned and not above `MAX_SIZE`. -/
structure LogRecord extends Record where
  aligned : toRecord.rawSize % 4 = 0
  bounded : toRecord.rawSize ≤ BinlogEvent.maxSize

section

variable (crc32 : Bytes → UInt32)

def LogRecord.image (r : LogRecord) : Bytes := r.toRecord.image crc32

/-- The bytes of a log. -/
def images (rs : List LogRecord) : Bytes := rs.flatMap (LogRecord.image crc32)

/-- The events of a log whose first byte is at `offset`. -/
def decodeFrom (offset : Nat) : List LogRecord → List BinlogEvent
  | [] => []
  | r :: rs => r.event crc32 (offset + r.rawSize) :: decodeFrom (offset + r.rawSize) rs

end

end Tdlib.Binlog
