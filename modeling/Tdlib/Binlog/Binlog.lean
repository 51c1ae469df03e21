import Tdlib.Binlog.Processor
import Tdlib.Binlog.Reader

/-!
# The log object

`Binlog` owns the file, the bytes not yet flushed to it, the index of what the
log means, and the events of a batch whose last event has not come yet. It is
opened by replaying the file, appended to by `add`, `rewrite` and `erase`, and
regenerated from the index when the file has grown too far beyond it.

The file is modelled by its plaintext, the bytes that pass the encrypting flow on
their way out and come back from it on load. Keys, hashes and random bytes come
from a `Platform`. Failures of the file system itself are not modelled.
-/

namespace Tdlib

open Tl

namespace Binlog

inductive DbKey where
  | empty
  | rawKey (data : Bytes)
  | password (data : Bytes)
deriving DecidableEq

def DbKey.isEmpty : DbKey → Bool
  | .empty => true
  | _ => false

/-- What the log takes from the libraries below it. -/
structure Platform where
  crc32 : Bytes → UInt32
  pbkdf2Sha256 : (password salt : Bytes) → (iterationCount : Nat) → Bytes
  hmacSha256 : (key message : Bytes) → Bytes
  /-- Whether the encrypted file holds nothing but zeros between two offsets. -/
  zerosOnDisk : (beginOffset endOffset : Nat) → Bool
  length_pbkdf2Sha256 : ∀ password salt iterationCount,
    (pbkdf2Sha256 password salt iterationCount).length = 32
  length_hmacSha256 : ∀ key message, (hmacSha256 key message).length = 32

/-- The random bytes one call may use. -/
structure Entropy where
  salt : Bytes
  iv : Bytes
  length_salt : salt.length = 32
  length_iv : iv.length = 16

inductive EncryptionType where
  | none
  | aesCtr
deriving DecidableEq

inductive State where
  | empty
  | load
  | reindex
  | run
deriving DecidableEq

/-! ## Encryption events -/

structure AesCtrEncryptionEvent where
  keySalt : Bytes
  iv : Bytes
  keyHash : Bytes
deriving DecidableEq

namespace AesCtrEncryptionEvent

def kdfIterationCount : Nat := 60002

def kdfFastIterationCount : Nat := 2

/-- `none` for the `CHECK` that there is a key. -/
def generateKey (platform : Platform) (event : AesCtrEncryptionEvent) : DbKey → Option Bytes
  | .empty => none
  | .rawKey data => some (platform.pbkdf2Sha256 data event.keySalt kdfFastIterationCount)
  | .password data => some (platform.pbkdf2Sha256 data event.keySalt kdfIterationCount)

/-- The message is the text "cucumbers everywhere". -/
def generateHash (platform : Platform) (key : Bytes) : Bytes :=
  platform.hmacSha256 key "cucumbers everywhere".toUTF8.data.toList

def store (event : AesCtrEncryptionEvent) : Option Bytes := do
  let salt ← storeString event.keySalt
  let iv ← storeString event.iv
  let hash ← storeString event.keyHash
  return storeInt 0 ++ (salt ++ (iv ++ hash))

/-- The status of the parser is not looked at. -/
def parse (data : Bytes) : AesCtrEncryptionEvent :=
  let (flags, parser) := (TlParser.ofSlice data).fetchInt
  let parser := if flags ≠ 0 then parser.setError "Invalid flags left, current bit is 0" else parser
  let (keySalt, parser) := parser.fetchString
  let (iv, parser) := parser.fetchString
  let (keyHash, _) := parser.fetchString
  ⟨keySalt, iv, keyHash⟩

end AesCtrEncryptionEvent

/-! ## Keys -/

/-- The members of the log object that have to do with keys. -/
structure Encryption where
  dbKey : DbKey
  dbKeyUsed : Bool
  oldDbKey : DbKey
  wrongPassword : Bool
  encryptionType : EncryptionType
  aesCtrKeySalt : Bytes
  aesCtrKey : Bytes
deriving DecidableEq

namespace Encryption

/-- `update_encryption`: the key and the vector must fit their fixed-size places. -/
def update (e : Encryption) (key iv : Bytes) : Option Encryption :=
  if key.length ≤ 32 ∧ iv.length ≤ 16 then
    some { e with aesCtrKey := key ++ e.aesCtrKey.drop key.length }
  else none

/-- The key that an encryption event with this salt asks for. -/
def eventKey (platform : Platform) (e : Encryption) (event : AesCtrEncryptionEvent) :
    Option Bytes :=
  if e.aesCtrKeySalt = event.keySalt then some e.aesCtrKey
  else if e.dbKey.isEmpty then some []
  else event.generateKey platform e.dbKey

/-- The hash decides whether the key, or else the old one, is the right one. -/
def checkKey (platform : Platform) (e : Encryption) (loading : Bool)
    (event : AesCtrEncryptionEvent) (key : Bytes) : Option (Encryption × Bytes) :=
  if AesCtrEncryptionEvent.generateHash platform key = event.keyHash then
    some ({ e with dbKeyUsed := true }, key)
  else if !loading then none
  else if e.oldDbKey.isEmpty then some ({ e with wrongPassword := true }, key)
  else do
    let key ← event.generateKey platform e.oldDbKey
    let wrong := AesCtrEncryptionEvent.generateHash platform key ≠ event.keyHash
    return ({ e with wrongPassword := e.wrongPassword || wrong }, key)

/-- What `do_event` does with the keys on an `AesCtrEncryption` event. -/
def onEvent (platform : Platform) (e : Encryption) (loading : Bool) (event : BinlogEvent) :
    Option Encryption := do
  let encryptionEvent := AesCtrEncryptionEvent.parse event.data
  let key ← e.eventKey platform encryptionEvent
  let (e, key) ← e.checkKey platform loading encryptionEvent key
  let e := { e with encryptionType := .aesCtr, aesCtrKeySalt := encryptionEvent.keySalt }
  e.update key encryptionEvent.iv

/-- The salt `reset_encryption` uses: the current one, or a random one where there is none. -/
def headerSalt (entropy : Entropy) (e : Encryption) : Bytes :=
  if e.aesCtrKeySalt = [] then entropy.salt else e.aesCtrKeySalt

/-- The key for that salt. -/
def headerKey (platform : Platform) (entropy : Entropy) (e : Encryption) : Option Bytes :=
  if e.aesCtrKeySalt = e.headerSalt entropy then some e.aesCtrKey
  else AesCtrEncryptionEvent.generateKey platform ⟨e.headerSalt entropy, entropy.iv, []⟩ e.dbKey

/-- The event that `reset_encryption` writes when there is a key. -/
def headerEvent (platform : Platform) (entropy : Entropy) (e : Encryption) :
    Option BinlogEvent := do
  let key ← e.headerKey platform entropy
  let keyHash := AesCtrEncryptionEvent.generateHash platform key
  let data ← AesCtrEncryptionEvent.store ⟨e.headerSalt entropy, entropy.iv, keyHash⟩
  let raw ← BinlogEvent.createRaw platform.crc32 0 ServiceTypes.aesCtrEncryption.toInt32 0 data
  match BinlogEvent.init platform.crc32 raw false with
  | some (.ok event) => some event
  | _ => none

end Encryption

end Binlog

open Binlog

/-- The log: its file, what is not written yet, and the index. -/
structure Binlog where
  /-- The contents of the file at `path_`. -/
  file : Bytes
  /-- What was appended and not flushed yet. -/
  buffer : Bytes
  encryption : Encryption
  fdSize : Nat
  fdEvents : Nat
  pendingEvents : List BinlogEvent
  processor : BinlogEventsProcessor
  lastId : UInt64
  state : State
deriving DecidableEq

namespace Binlog

/-- A constructed object that `init` has pointed at `file`. -/
def new (file : Bytes) (dbKey oldDbKey : DbKey) : Binlog where
  file := file
  buffer := []
  encryption := ⟨dbKey, false, oldDbKey, false, .none, [], List.replicate 32 0⟩
  fdSize := 0
  fdEvents := 0
  pendingEvents := []
  processor := .empty
  lastId := 0
  state := .empty

/-! ## Writing -/

def flush (b : Binlog) : Binlog :=
  if b.state = .load then b else { b with file := b.file ++ b.buffer, buffer := [] }

def lazyFlush (b : Binlog) : Binlog :=
  if b.buffer.length > 1 <<< 14 then b.flush else b

/-- Whether `debug_get_binlog_data` returns an empty string. -/
def debugDataEmpty (platform : Platform) (b : Binlog) (beginOffset endOffset : Nat) : Bool :=
  if beginOffset > endOffset then false
  else if beginOffset = endOffset then true
  else b.encryption.encryptionType = .aesCtr &&
    platform.zerosOnDisk beginOffset (min endOffset (beginOffset + 512))

/-- The branch of `do_event` for an `AesCtrEncryption` event. -/
def doEncryptionEvent (platform : Platform) (b : Binlog) (event : BinlogEvent) : Option Binlog := do
  let encryption ← b.encryption.onEvent platform (b.state = .load) event
  let b := { b with encryption }
  if b.state = .load then some b
  else if b.state = .reindex then some b.flush
  else none

/-- The first part of `do_event`: a running log validates the event and writes it. -/
def writeEvent (platform : Platform) (b : Binlog) (event : BinlogEvent) : Option Binlog :=
  if b.state = .run ∨ b.state = .reindex then
    match event.validate platform.crc32 with
    | some (.ok ()) => some { b with buffer := b.buffer ++ event.rawEvent }
    | _ => none
  else some b

/-- The second part: encryption events. -/
def keyEvent (platform : Platform) (b : Binlog) (event : BinlogEvent) : Option Binlog :=
  if event.type = ServiceTypes.aesCtrEncryption.toInt32 then b.doEncryptionEvent platform event
  else some b

/-- The end of `do_event`. -/
def countEvent (b : Binlog) (event : BinlogEvent) : Binlog :=
  { b with fdEvents := b.fdEvents + 1, fdSize := b.fdSize + event.rawEvent.length }

/-- The third part: the index takes the event, unless it is the one that is being written out. -/
def indexEvent (platform : Platform) (b : Binlog) (event : BinlogEvent) : Option Binlog :=
  if b.state = .reindex then some (b.countEvent event)
  else
    match b.processor.doEvent event with
    | none => none
    | some (.ok processor) => some ({ b with processor }.countEvent event)
    | some (.error _) =>
      -- while loading, a tail of zeros in an encrypted file is cut off; all else is fatal
      if b.state = .load ∧ b.debugDataEmpty platform b.fdSize b.file.length then
        some { b with file := b.file.take b.fdSize }
      else none

/-- `none` where the process aborts. -/
def doEvent (platform : Platform) (b : Binlog) (event : BinlogEvent) : Option Binlog := do
  let b ← b.writeEvent platform event
  let b ← b.keyEvent platform event
  b.indexEvent platform event

/-- `do_event` for each event in turn. -/
def doEvents (platform : Platform) (b : Binlog) (events : List BinlogEvent) : Option Binlog :=
  events.foldlM (doEvent platform) b

/-- An event that is part of a batch waits for the last event of the batch. -/
def doAddEvent (platform : Platform) (b : Binlog) (event : BinlogEvent) : Option Binlog :=
  if event.has .part then
    some { b with pendingEvents := b.pendingEvents ++ [event.dropFlag .part] }
  else do
    let b ← b.doEvents platform b.pendingEvents
    doEvent platform { b with pendingEvents := [] } event

/-! ## Regeneration -/

def resetEncryption (platform : Platform) (entropy : Entropy) (b : Binlog) : Option Binlog :=
  if b.encryption.dbKey.isEmpty then
    some { b with encryption := { b.encryption with encryptionType := .none } }
  else do
    let event ← b.encryption.headerEvent platform entropy
    b.doEvent platform event

/-- A new file is opened. The unflushed bytes of the old one are dropped: the index has their
events. -/
def startReindex (b : Binlog) : Binlog :=
  { b with
    state := .reindex, file := [], buffer := [], fdSize := 0, fdEvents := 0
    encryption := { b.encryption with encryptionType := .none } }

/-- All is written to the new file, whose size is compared with what was counted. -/
def finishReindex (b : Binlog) : Option Binlog :=
  if b.flush.fdSize = b.flush.file.length then some { b.flush with state := .run } else none

def doReindex (platform : Platform) (entropy : Entropy) (b : Binlog) : Option Binlog :=
  if b.state ≠ .run then none
  else do
    let b ← b.startReindex.resetEncryption platform entropy
    let events ← b.processor.forEach
    let b ← b.doEvents platform events
    b.finishReindex

def changeKey (platform : Platform) (entropy : Entropy) (b : Binlog) (newDbKey : DbKey) :
    Option Binlog :=
  doReindex platform entropy
    { b with encryption := { b.encryption with dbKey := newDbKey, aesCtrKeySalt := [] } }

/-! ## Appending -/

def needReindex (b : Binlog) (minSize rate : Nat) : Prop :=
  b.fdSize > minSize ∧ (b.fdSize / rate : Nat) > b.processor.totalRawEventsSize

instance (b : Binlog) (minSize rate : Nat) : Decidable (b.needReindex minSize rate) :=
  inferInstanceAs (Decidable (_ ∧ _))

/-- The end of `add_event`. -/
def regenerateIfNeeded (platform : Platform) (entropy : Entropy) (b : Binlog) : Option Binlog :=
  if b.state = .run ∧ (b.needReindex 50000 5 ∨ b.needReindex 100000 4 ∨ b.needReindex 300000 3 ∨
      b.needReindex 500000 2) then
    b.doReindex platform entropy
  else some b

def addEvent (platform : Platform) (entropy : Entropy) (b : Binlog) (event : BinlogEvent) :
    Option Binlog :=
  if event.size.toNat % 4 ≠ 0 then none
  else do
    let b ← b.doAddEvent platform event
    b.lazyFlush.regenerateIfNeeded platform entropy

def addRawEvent (platform : Platform) (entropy : Entropy) (b : Binlog) (rawEvent : Bytes) :
    Option Binlog :=
  match BinlogEvent.init platform.crc32 rawEvent false with
  | some (.ok event) => b.addEvent platform entropy event
  | _ => none

/-- `next_id` and the append that `add`, `rewrite` and `erase` share. -/
def append (platform : Platform) (entropy : Entropy) (b : Binlog) (id : UInt64) (type flags : Int32)
    (data : Bytes) : Option Binlog := do
  let raw ← BinlogEvent.createRaw platform.crc32 id type flags data
  addRawEvent platform entropy { b with lastId := b.lastId + 1 } raw

def add (platform : Platform) (entropy : Entropy) (b : Binlog) (type : Int32) (data : Bytes) :
    Option Binlog :=
  b.append platform entropy (b.lastId + 1) type 0 data

def rewrite (platform : Platform) (entropy : Entropy) (b : Binlog) (logEventId : UInt64)
    (type : Int32) (data : Bytes) : Option Binlog :=
  b.append platform entropy logEventId type Flags.rewrite.toInt32 data

def erase (platform : Platform) (entropy : Entropy) (b : Binlog) (logEventId : UInt64) :
    Option Binlog :=
  b.append platform entropy logEventId ServiceTypes.empty.toInt32 Flags.rewrite.toInt32 []

/-! ## Loading -/

/-- The loop of `load_binlog`. `unread` is what the file still holds; `fuel` bounds the passes. -/
def loadLoop (platform : Platform) : Nat → Binlog → BinlogReader → Bytes → Option Binlog
  | 0, _, _, _ => none
  | fuel + 1, b, reader, unread =>
    match reader.readNext platform.crc32 with
    | (.abort, _) => none
    | (.error error, reader) =>
      if error.code = -2 then
        if b.debugDataEmpty platform reader.offset b.file.length then
          some { b with file := b.file.take reader.offset }
        else none
      else some b
    | (.event event, reader) => do
        let b' ← b.doAddEvent platform event
        if b'.encryption.wrongPassword then some b'
        else
          -- a truncation has moved the file position to the new end
          let unread := if b'.file.length < b.file.length then [] else unread
          let isEncrypted := b'.encryption.encryptionType = .aesCtr
          loadLoop platform fuel b' { reader with isEncrypted } unread
    | (.need size, reader) =>
      let count := max size 4096
      let reader := { reader with input := reader.input ++ unread.take count }
      if reader.input.length < size then some b
      else loadLoop platform fuel b reader (unread.drop count)

/-- Each pass that goes on reads a byte or consumes one. -/
def loadFuel (file : Bytes) : Nat := 2 * file.length + 1

/-- The file is cut to the end of the last event that reached the index. An encrypted file is then
to be regenerated, since the cipher has already moved past the cut. -/
def truncateToOffset (b : Binlog) : Binlog :=
  if b.processor.offset ≠ b.file.length then
    { b with
      file := b.file.take b.processor.offset
      encryption := { b.encryption with dbKeyUsed := false } }
  else b

/-- What follows the loop, with the events handed to the callback. -/
def finishLoad (b : Binlog) : Option (Binlog × List BinlogEvent) := do
  let events ← b.processor.forEach
  if b.fdSize = b.processor.offset then
    some ({ b.truncateToOffset with state := .run, buffer := [] }, events)
  else none

def startLoad (b : Binlog) : Binlog := { b with state := .load }

def loadBinlog (platform : Platform) (b : Binlog) : Option (Binlog × List BinlogEvent) := do
  let reader := BinlogReader.start [] (b.encryption.encryptionType = .aesCtr) b.file.length
  let b ← loadLoop platform (loadFuel b.file) b.startLoad reader b.file
  if b.encryption.wrongPassword then some (b, []) else b.finishLoad

/-- `init` of a fresh object on a file: `none` where the process aborts, an error for a wrong
password, otherwise the opened log and the events handed to the callback. -/
def init (platform : Platform) (entropy : Entropy) (file : Bytes) (dbKey oldDbKey : DbKey) :
    Option (Except Unit (Binlog × List BinlogEvent)) := do
  let (b, events) ← (new file dbKey oldDbKey).loadBinlog platform
  let b := { b with lastId := b.processor.lastId }
  let e := b.encryption
  if e.wrongPassword then some (.error ())
  else if (!e.dbKey.isEmpty && !e.dbKeyUsed) || (e.dbKey.isEmpty && e.encryptionType ≠ .none) then
    let b ← doReindex platform entropy { b with encryption := { e with aesCtrKeySalt := [] } }
    some (.ok (b, events))
  else some (.ok (b, events))

end Binlog

end Tdlib
