import Tdlib.Utils.Tl

/-!
# Binlog events and their raw images

An event lives in the log as one contiguous image: its total size, id, type,
flags, an unused word, the data, and the checksum of everything before it.
`createRaw` writes such an image and `init` reads one back; the rest of the log
code never looks inside an image except through these two.

The checksum is a parameter. Nothing here needs it to be a good checksum: an
image that was written carries the checksum of its own bytes, which is all that
`init` compares.
-/

namespace Tdlib.Binlog

open Lib Tl

/-! ## Events -/

inductive ServiceTypes where
  | header
  | empty
  | aesCtrEncryption
  | noEncryption
deriving DecidableEq

def ServiceTypes.toInt32 : ServiceTypes → Int32
  | .header => -1
  | .empty => -2
  | .aesCtrEncryption => -3
  | .noEncryption => -4

inductive Flags where
  | rewrite
  | part
deriving DecidableEq

/-- The bits of `Flags::Rewrite` and `Flags::Partial`. -/
def Flags.toInt32 : Flags → Int32
  | .rewrite => 1
  | .part => 2

structure BinlogEvent where
  /-- Where the event ends in the file; only the reader sets it. -/
  offset : Nat
  size : UInt32
  id : UInt64
  type : Int32
  flags : Int32
  extra : UInt64
  data : Bytes
  crc32 : UInt32
  rawEvent : Bytes
deriving DecidableEq

namespace BinlogEvent

def maxSize : Nat := 1 <<< 24

def headerSize : Nat := 4 + 8 + 4 + 4 + 8

def tailSize : Nat := 4

def minSize : Nat := headerSize + tailSize

def has (event : BinlogEvent) (flag : Flags) : Bool := event.flags &&& flag.toInt32 != 0

/-- `flags_ &= ~flag`; the raw image keeps the bit. -/
def dropFlag (event : BinlogEvent) (flag : Flags) : BinlogEvent :=
  { event with flags := event.flags &&& ~~~ flag.toInt32 }

/-- `clear()`: only the raw image is released. -/
def clear (event : BinlogEvent) : BinlogEvent := { event with rawEvent := [] }

inductive Status where
  /-- "crc mismatch [actual:..][expected:..]" -/
  | crcMismatch (actual expected : UInt32)
  /-- "Too small event" -/
  | tooSmall
  /-- "Size of event changed: [was:..][now:..]" -/
  | sizeChanged (was now : UInt32)
deriving DecidableEq

section

variable (crc32 : Bytes → UInt32)

/-- Everything the checksum covers. -/
def covered (id : UInt64) (type flags : Int32) (data : Bytes) : Bytes :=
  storeInt (UInt32.ofNat (data.length + minSize)).toInt32 ++ (storeLong id.toInt64 ++
    (storeInt type ++ (storeInt flags ++ (storeLong 0 ++ data))))

def image (id : UInt64) (type flags : Int32) (data : Bytes) : Bytes :=
  covered id type flags data ++ storeInt (crc32 (covered id type flags data)).toInt32

/-- `none` where `narrow_cast<int32>` of the size aborts. -/
def createRaw (id : UInt64) (type flags : Int32) (data : Bytes) : Option Bytes :=
  if data.length + minSize < 0x80000000 then some (image crc32 id type flags data) else none

/-- `none` where a `CHECK` aborts. `init` does not touch `offset_`, which is `0` here. -/
def init (rawEvent : Bytes) (checkCrc : Bool) : Option (Except Status BinlogEvent) :=
  let (size, parser) := (TlParser.ofSlice rawEvent).fetchInt
  let size := size.toUInt32
  if size.toNat ≠ rawEvent.length then none else
  let (id, parser) := parser.fetchLong
  let (type, parser) := parser.fetchInt
  let (flags, parser) := parser.fetchInt
  let (extra, parser) := parser.fetchLong
  if size.toNat < minSize then none else
  let (data, parser) := parser.fetchStringRaw (size.toNat - minSize)
  let (stored, _) := parser.fetchInt
  let calculated := crc32 (rawEvent.take (size.toNat - tailSize))
  if checkCrc && calculated != stored.toUInt32 then
    some (.error (.crcMismatch calculated stored.toUInt32))
  else
    some (.ok ⟨0, size, id.toUInt64, type, flags, extra.toUInt64, data, stored.toUInt32, rawEvent⟩)

def validate (event : BinlogEvent) : Option (Except Status Unit) :=
  if event.rawEvent.length < 4 then some (.error .tooSmall) else
  let size := (TlParser.ofSlice (event.rawEvent.take 4)).fetchInt.1.toUInt32
  if event.size ≠ size then some (.error (.sizeChanged event.size size)) else
  (init crc32 event.rawEvent true).map fun result => result.map fun _ => ()

end

end BinlogEvent

/-! ## Records

What a caller asks to be logged. The event that `init` makes of a record's image
is a function of the record. -/

structure Record where
  id : UInt64
  type : Int32
  flags : Int32
  data : Bytes
deriving DecidableEq

namespace Record

open BinlogEvent

def rawSize (r : Record) : Nat := r.data.length + minSize

def has (r : Record) (flag : Flags) : Bool := r.flags &&& flag.toInt32 != 0

/-- The part of an event its creator chose. -/
def ofEvent (event : BinlogEvent) : Record := ⟨event.id, event.type, event.flags, event.data⟩

section

variable (crc32 : Bytes → UInt32)

def image (r : Record) : Bytes := BinlogEvent.image crc32 r.id r.type r.flags r.data

/-- The event a record's image decodes to, when the image ends at `offset`. -/
def event (r : Record) (offset : Nat) : BinlogEvent :=
  ⟨offset, UInt32.ofNat r.rawSize, r.id, r.type, r.flags, 0, r.data,
    crc32 (covered r.id r.type r.flags r.data), r.image crc32⟩

theorem event_has (r : Record) (offset : Nat) (flag : Flags) :
    (r.event crc32 offset).has flag = r.has flag := rfl

@[simp] theorem length_covered (id : UInt64) (type flags : Int32) (data : Bytes) :
    (covered id type flags data).length = data.length + headerSize := by
  simp only [covered, List.length_append, length_storeInt, length_storeLong, headerSize]
  omega

@[simp] theorem length_image (r : Record) : (r.image crc32).length = r.rawSize := by
  rw [image, BinlogEvent.image, List.length_append, length_covered, length_storeInt, rawSize,
    minSize, tailSize, add_assoc]

variable {r : Record}

theorem createRaw_eq (h : r.rawSize < 0x80000000) :
    createRaw crc32 r.id r.type r.flags r.data = some (r.image crc32) := if_pos h

theorem minSize_le_rawSize (r : Record) : minSize ≤ r.rawSize := Nat.le_add_left _ _

theorem toNat_ofNat_rawSize (h : r.rawSize < 0x100000000) :
    (UInt32.ofNat r.rawSize).toNat = r.rawSize := by
  exact Nat.mod_eq_of_lt h

/-- An image, field by field. -/
theorem image_eq (r : Record) : r.image crc32 = storeInt (UInt32.ofNat r.rawSize).toInt32 ++
    (storeLong r.id.toInt64 ++ (storeInt r.type ++ (storeInt r.flags ++ (storeLong 0 ++ (r.data ++
      storeInt (crc32 (covered r.id r.type r.flags r.data)).toInt32))))) := by
  rw [image, BinlogEvent.image]
  simp only [covered, List.append_assoc]
  rfl

/-- **An image decodes to the event it was made for**, with its checksum verified or not. -/
theorem init_image (h : r.rawSize < 0x80000000) (checkCrc : Bool) :
    init crc32 (r.image crc32) checkCrc = some (.ok (r.event crc32 0)) := by
  have hsize : (UInt32.ofNat r.rawSize).toNat = r.rawSize := toNat_ofNat_rawSize (by omega)
  have hmin := minSize_le_rawSize r
  have hdata : r.rawSize - minSize = r.data.length := Nat.add_sub_cancel _ _
  have hcovered : (r.image crc32).take (r.rawSize - tailSize) = covered r.id r.type r.flags
    r.data :=
    List.take_left'
      (by rw [length_covered]; show _ = r.data.length + (headerSize + tailSize) - _; omega)
  have hlast : ∀ n,
      (TlParser.ok n (storeInt (crc32 (covered r.id r.type r.flags r.data)).toInt32)).fetchInt
      = ((crc32 (covered r.id r.type r.flags r.data)).toInt32, TlParser.ok n []) := by
    intro n
    simpa using TlParser.fetchInt_ok n (crc32 (covered r.id r.type r.flags r.data)).toInt32 []
  simp only [init, TlParser.ofSlice_eq, length_image]
  rw [image_eq]
  simp only [TlParser.fetchInt_ok, TlParser.fetchLong_ok, UInt32.toUInt32_toInt32, hsize, hdata,
    TlParser.fetchStringRaw_ok, hlast]
  rw [if_neg (by simp), if_neg (by omega), ← image_eq, hcovered]
  have hextra : Int64.toUInt64 0 = 0 := rfl
  simp [event, hextra]

/-- The size word at the front of an image. -/
theorem fetchInt_take_image (r : Record) :
    (TlParser.ofSlice ((r.image crc32).take 4)).fetchInt.1 = (UInt32.ofNat r.rawSize).toInt32 := by
  have h := TlParser.fetchInt_ok 4 (UInt32.ofNat r.rawSize).toInt32 []
  rw [image_eq, List.take_left' (length_storeInt _), TlParser.ofSlice_eq, length_storeInt]
  rw [List.append_nil] at h
  rw [h]

/-- Whatever happened to the other fields of an event, its untouched image validates. -/
theorem validate_image (h : r.rawSize < 0x80000000) {event : BinlogEvent}
    (hraw : event.rawEvent = r.image crc32) (hsize : event.size = UInt32.ofNat r.rawSize) :
    validate crc32 event = some (.ok ()) := by
  unfold validate
  rw [hraw, fetchInt_take_image, hsize]
  simp only [UInt32.toUInt32_toInt32, ne_eq]
  rw [init_image crc32 h]
  rfl

end

end Record

end Tdlib.Binlog
