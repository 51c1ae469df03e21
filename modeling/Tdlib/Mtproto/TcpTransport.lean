import Tdlib.Lib.Frames
import Tdlib.Lib.LittleEndian
import Tdlib.Utils.ByteFlow

/-!
# Messages in a stream of bytes

`IntermediateTransport` puts the size of a message before it, and may put some random bytes after
it. `ObfuscatedTransport` writes a transport header before the first message. When it emulates TLS,
what it writes is cut into records: a message that is too long for one, together with the header if
that was not written yet, is spread over several.

On the way back `TlsReaderByteFlow` takes the records apart and `readFromStream` the messages, both
of them from whatever has arrived. The stream cipher between the two keeps the bytes in their places
and is left out.
-/

namespace Tdlib.Mtproto.Tcp

open Tdlib.Lib

/-! ## `IntermediateTransport` -/

/-- What an attempt to read gives: the size that is needed, a quick acknowledgement, or a
message. -/
inductive Read where
  | wait (size : Nat)
  | quickAck (value : Nat)
  | message (data : List UInt8)
deriving DecidableEq

/-- The second component is what is left of the stream. -/
def readFromStream (stream : List UInt8) : Read × List UInt8 :=
  let headerSize := 4
  if stream.length < headerSize then (.wait headerSize, stream)
  else
    let dataSize := leNat (stream.take headerSize)
    if dataSize.testBit 31 then (.quickAck dataSize, stream.drop headerSize)
    else
      let totalSize := dataSize + headerSize
      if stream.length < totalSize then (.wait totalSize, stream)
      else (.message ((stream.drop headerSize).take dataSize), stream.drop totalSize)

/-- A message, and the random bytes drawn for it: `secure_uint32() % 16` of them. -/
structure Outgoing where
  message : List UInt8
  random : List UInt8
  random_lt : random.length < 16

/-- What the reader is to find: the message, with the padding if there is any. -/
def Outgoing.body (withPadding : Bool) (m : Outgoing) : List UInt8 :=
  m.message ++ if withPadding then m.random else []

/-- Fails where a `CHECK` does. -/
def writePrepareInplace (withPadding : Bool) (m : Outgoing) (quickAck : Bool) :
    Option (List UInt8) :=
  if m.message.length % 4 ≠ 0 then none
  else if 2 ^ 24 ≤ m.message.length then none
  else
    let size := if quickAck then m.message.length ||| 1 <<< 31 else m.message.length
    let appended := if withPadding then m.random else []
    some (leBytes 4 (size + appended.length) ++ (m.message ++ appended))

/-! ## Writing -/

def maxTlsPacketLength : Nat := 2878

def firstPrefix : List UInt8 := [0x14, 0x03, 0x03, 0x00, 0x01, 0x01]

/-- A record of the emulated TLS. -/
def tlsRecord (payload : List UInt8) : List UInt8 :=
  0x17 :: 0x03 :: 0x03 :: UInt8.ofNat (payload.length >>> 8 &&& 0xff)
    :: UInt8.ofNat (payload.length &&& 0xff) :: payload

structure ObfuscatedTransport where
  emulateTls : Bool
  withPadding : Bool
  header : List UInt8
  isFirstTlsPacket : Bool
  output : List UInt8
deriving DecidableEq

namespace ObfuscatedTransport

/-- After `init`, which draws the header. -/
def initial (emulateTls withPadding : Bool) (header : List UInt8) : ObfuscatedTransport :=
  ⟨emulateTls, withPadding, header, true, []⟩

def doWriteMain (t : ObfuscatedTransport) (message : List UInt8) : ObfuscatedTransport :=
  { t with header := [], output := t.output ++ (t.header ++ message) }

/-- `do_write_tls` for what goes into one record. -/
def doWriteTlsRecord (t : ObfuscatedTransport) (data : List UInt8) : Option ObfuscatedTransport :=
  let payload := t.header ++ data
  if maxTlsPacketLength < payload.length then none
  else
    some { t with
      header := []
      isFirstTlsPacket := false
      output := t.output ++
        ((if t.isFirstTlsPacket then firstPrefix else []) ++ tlsRecord payload) }

/-- The loop over the slices of a long message. -/
def writeSlices : Nat → ObfuscatedTransport → List UInt8 → Option ObfuscatedTransport
  | 0, _, _ => none
  | n + 1, t, slice =>
    if slice = [] then some t
    else
      let buf := slice.take (maxTlsPacketLength - t.header.length)
      match doWriteTlsRecord t buf with
      | some t' => writeSlices n t' (slice.drop buf.length)
      | none => none

/-- A slice may be empty once, when the header alone fills a record. -/
def doWriteTls (t : ObfuscatedTransport) (message : List UInt8) : Option ObfuscatedTransport :=
  if maxTlsPacketLength < t.header.length then none
  else if maxTlsPacketLength < message.length + t.header.length then
    writeSlices (message.length + 2) t message
  else doWriteTlsRecord t message

def write (t : ObfuscatedTransport) (m : Outgoing) (quickAck : Bool) : Option ObfuscatedTransport :=
  match writePrepareInplace t.withPadding m quickAck with
  | some message => if t.emulateTls then doWriteTls t message else some (doWriteMain t message)
  | none => none

/-- Messages without a quick acknowledgement. -/
def writeAll : ObfuscatedTransport → List Outgoing → Option ObfuscatedTransport
  | t, [] => some t
  | t, m :: messages =>
    match t.write m false with
    | some t' => writeAll t' messages
    | none => none

end ObfuscatedTransport

/-! ## Reading -/

namespace TlsReaderByteFlow

def loop (_ : Unit) (input : List UInt8) : Looped Unit :=
  match input with
  | b0 :: b1 :: b2 :: b3 :: b4 :: it =>
    if [b0, b1, b2] ≠ [0x17, 0x03, 0x03] then
      ⟨(), input, [], 0, some (.error
        "Invalid bytes at the beginning of a packet (emulated tls)"), false⟩
    else
      let len := b3.toNat <<< 8 ||| b4.toNat
      if it.length < len then ⟨(), input, [], 5 + len, none, false⟩
      else ⟨(), it.drop len, it.take len, 0, none, true⟩
  | _ => ⟨(), input, [], 5, none, false⟩

def initial : ByteFlow Unit := ⟨(), [], [], 0, none⟩

/-- Bytes arrive, and the flow is woken up. -/
def receive (flow : ByteFlow Unit) (piece : List UInt8) : ByteFlow Unit :=
  ByteFlow.wakeup loop { flow with input := flow.input ++ piece }

end TlsReaderByteFlow

/-- The reading half. `flow` has what has arrived as its input, and `stream` is what comes out of
the sink. What a client writes is read by somebody who first takes off the transport header: these
are the bytes to `skip`. A client has nothing to skip. -/
structure Reader where
  emulateTls : Bool
  flow : ByteFlow Unit
  stream : List UInt8
  skip : Nat

namespace Reader

def initial (emulateTls : Bool) (skip : Nat) : Reader :=
  ⟨emulateTls, TlsReaderByteFlow.initial, [], skip⟩

/-- The first flow woken up. Without TLS that is the cipher, which takes everything. -/
def woken (r : Reader) : ByteFlow Unit :=
  if r.emulateTls then ByteFlow.wakeup TlsReaderByteFlow.loop r.flow
  else { r.flow with input := [], output := r.flow.output ++ r.flow.input }

/-- What comes out goes to the sink unless there was an error. -/
def pump (r : Reader) : Reader :=
  if r.woken.status.isSome then { r with flow := r.woken }
  else { r with flow := { r.woken with output := [] }, stream := r.stream ++ r.woken.output }

def takeHeader (r : Reader) : Reader :=
  { r with stream := r.stream.drop r.skip, skip := r.skip - r.stream.length }

def readNext (r : Reader) : Read × Reader :=
  let r := r.pump.takeHeader
  ((readFromStream r.stream).1, { r with stream := (readFromStream r.stream).2 })

/-- One turn of the loop over `read_next`, with what was read before. -/
def turn : Reader × List Read → Round (Reader × List Read) (Reader × List Read)
  | (r, got) =>
    match r.readNext with
    | (.wait _, r') => .stop (r', got)
    | (read, r') => .again (r', got ++ [read])

/-- Everything that can be read is read. -/
def flushRead (r : Reader) : Reader × List Read :=
  (rounds turn (r.flow.input.length + r.flow.output.length + r.stream.length + 1) (r, [])).getD
    (r, [])

/-- Pieces arrive one after the other; the second component is all that was read. -/
def readAll : Reader → List (List UInt8) → List Read
  | _, [] => []
  | r, piece :: pieces =>
    let (r', got) := flushRead { r with flow := { r.flow with input := r.flow.input ++ piece } }
    got ++ readAll r' pieces

end Reader

end Tdlib.Mtproto.Tcp
