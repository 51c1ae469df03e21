import Tdlib.Lib.FileBytes
import Tdlib.Lib.Ordered
import Tdlib.Files.Transfer

/-!
# A download with hashes

The data centre of a file may redirect a download to a content delivery network, which is not
trusted. From then on the file is checked: the data centre sends the hashes of blocks of the file,
and the blocks are read back and compared one after another, as far as all parts are ready. The
download ends when everything was checked.

Blocks and parts have different sizes, and the last block may reach over the end of the file. Then
the file is hashed up to its end, if everything is ready.

The hash function is a parameter. The `log` is not in the program. It has the writes to the file and
the blocks that were read back and had the right hash, with the newest first. `none` stands for a
failed `CHECK`.
-/

namespace Tdlib.Files

open Tdlib.Lib

namespace PartsManager

def isStreamingLimitReached (d : PartsManager) : PartsManager × Bool :=
  if d.streamingLimit = 0 then (d, false)
  else
    let d := d.updateFirstNotReadyPart
    let partI := d.firstStreamingNotReadyPart
    -- past the last part the limit goes on at the first one
    let partI := if !d.unknownSizeFlag && partI == d.partCount then d.firstNotReadyPart else partI
    if partI = d.partCount then (d, false) else (d, !d.isPartInStreamingLimit partI)

def mayFinish (d : PartsManager) : PartsManager × Bool :=
  let (d, reached) := d.isStreamingLimitReached
  (d, reached || d.ready)

def finish (d : PartsManager) : PartsManager × Except Error Unit :=
  if d.ready then (d, .ok ())
  else
    let (d, reached) := d.isStreamingLimitReached
    if reached then (d, .error { message := "FILE_DOWNLOAD_LIMIT" })
    else (d, .error { message := "File transferring not finished" })

def getUncheckedReadyPrefixSize (d : PartsManager) : PartsManager × Nat :=
  let d := d.updateFirstNotReadyPart
  let count := d.firstNotReadyPart
  if count = 0 then (d, 0)
  else
    let part := d.getPart (count - 1)
    (d, if d.unknownSizeFlag then part.offset else min (part.offset + part.size) d.size)

end PartsManager

structure HashInfo where
  offset : Nat
  size : Nat
  hash : List UInt8
deriving DecidableEq

/-- What was done to the file. -/
inductive Action where
  | write (offset : Nat) (bytes : List UInt8)
  | check (info : HashInfo) (bytes : List UInt8)
deriving DecidableEq

structure CheckInfo where
  needCheck : Bool := false
  changed : Bool := false
  checkedPrefixSize : Nat := 0
  /-- The offsets that are asked for. -/
  queries : List Nat := []
deriving DecidableEq

structure Downloader where
  transfer : Transfer
  needCheck : Bool := false
  onlyCheck : Bool := false
  hashInfo : Ordered (fun info : HashInfo => info.offset) := .empty _
  hasHashQuery : Bool := false
  file : List UInt8 := []
  log : List Action := []

namespace Downloader

/-- A download begins, with a file that may have ready parts. A file that was found on the disk is
only checked. -/
def start (d : PartsManager) (file : List UInt8) (onlyCheck : Bool) : Downloader where
  transfer := .start (if onlyCheck then d.setCheckedPrefixSize 0 else d)
  needCheck := onlyCheck
  onlyCheck := onlyCheck
  file := file

def addHashInfo (t : Downloader) (hashes : List HashInfo) : Downloader :=
  { t with hashInfo := hashes.foldl (fun hashInfo hash => (hashInfo.emplace hash).1) t.hashInfo }

/-- The block with the position, among those that begin there or before the last one. -/
def findHash (t : Downloader) (checkedPrefixSize : Nat) : Option HashInfo :=
  ((t.hashInfo.toList.takeWhile fun info => info.offset ≤ checkedPrefixSize).getLast?).filter
    fun info => checkedPrefixSize < info.offset + info.size

section

variable (sha256 : List UInt8 → List UInt8)

/-- The rounds of `check_loop`. The first number bounds them, and every round goes on by at least
one byte. -/
def checkRounds (t : Downloader) (readyPrefixSize : Nat) (isReady : Bool) :
    Nat → Nat → Bool → List Action → Except Error (CheckInfo × List Action)
  | 0, checkedPrefixSize, changed, log =>
      .ok ({ needCheck := true, changed, checkedPrefixSize }, log)
  | n + 1, checkedPrefixSize, changed, log =>
    if readyPrefixSize ≤ checkedPrefixSize then
      .ok ({ needCheck := true, changed, checkedPrefixSize }, log)
    else
      match t.findHash checkedPrefixSize with
      | some info =>
        if readyPrefixSize < info.offset + info.size ∧ ¬isReady then
          .ok ({ needCheck := true, changed, checkedPrefixSize }, log)
        else
          let endOffset := min (info.offset + info.size) readyPrefixSize
          let bytes := pread t.file info.offset (endOffset - info.offset)
          if bytes.length ≠ endOffset - info.offset then
            .error { message := "Failed to read file to check hash" }
          else if sha256 bytes ≠ info.hash then
            if t.onlyCheck then .error { message := "FILE_DOWNLOAD_RESTART" }
            else .error { message := "Hash mismatch" }
          else
            checkRounds t readyPrefixSize isReady n endOffset true (.check info bytes :: log)
      | none =>
        .ok ({ needCheck := true, changed, checkedPrefixSize,
               queries := if t.hasHashQuery then [] else [checkedPrefixSize] }, log)

def checkLoop (t : Downloader) (checkedPrefixSize readyPrefixSize : Nat) (isReady : Bool) :
    Except Error (CheckInfo × List Action) :=
  if ¬t.needCheck then .ok ({}, t.log)
  else
    checkRounds sha256 t readyPrefixSize isReady (readyPrefixSize - checkedPrefixSize)
      checkedPrefixSize false t.log

/-- The end of `do_loop` before new parts are started. The result says whether the download is
finished. -/
def tryFinish (t : Downloader) (parts : PartsManager) : Downloader × Except Error Bool :=
  let (parts, mayFinish) := parts.mayFinish
  if mayFinish then
    let (parts, result) := parts.finish
    ({ t with transfer := { t.transfer with parts } }, result.map fun _ => true)
  else ({ t with transfer := { t.transfer with parts } }, .ok false)

def doLoop (t : Downloader) : Option (Downloader × Except Error Bool) :=
  let (parts, readyPrefixSize) := t.transfer.parts.getUncheckedReadyPrefixSize
  let t := { t with transfer := { t.transfer with parts } }
  match t.checkLoop sha256 parts.checkedPrefixSize readyPrefixSize parts.uncheckedReady with
  | .error error => some (t, .error error)
  | .ok (info, log) =>
    let t := { t with log, hasHashQuery := t.hasHashQuery || !info.queries.isEmpty }
    if info.needCheck then
      parts.setNeedCheck.map fun parts =>
        t.tryFinish (parts.setCheckedPrefixSize info.checkedPrefixSize)
    else some (t.tryFinish parts)

/-! ## Events -/

/-- What can happen to a download. -/
inductive Event where
  | startPart
  /-- A part comes back with bytes. -/
  | partOk (id : Nat) (bytes : List UInt8)
  /-- A part comes back and is started again. -/
  | partRestart (id : Nat)
  | partError (id : Nat)
  /-- The data centre redirects the download, with hashes. -/
  | cdnRedirect (id : Nat) (hashes : List HashInfo)
  /-- The data centre has sent a part to the network again, with hashes. -/
  | reupload (id : Nat) (hashes : List HashInfo)
  | fileHashes (hashes : List HashInfo)
  | fileHashesError
  | setStreamingOffset (offset limit : Int)
  | setStreamingLimit (limit : Int)
  | loop

def stop (t : Downloader) : Downloader :=
  { t with transfer := { t.transfer with stopFlag := true } }

/-- `process_part`, and then `on_part_ok`. -/
def partOk (t : Downloader) (id : Nat) (bytes : List UInt8) : Option Downloader :=
  if t.transfer.askedSize id < bytes.length then some t.stop
  else
    let offset := t.transfer.parts.partSize * id
    let t := if bytes = [] then t else { t with
      file := pwrite 0 t.file offset bytes
      log := .write offset bytes :: t.log }
    (t.transfer.step (.partOk id bytes.length)).map fun transfer => { t with transfer }

def partRestart (t : Downloader) (id : Nat) : Option Downloader :=
  (t.transfer.step (.partFailed id)).map fun transfer => { t with transfer }

def Allowed (t : Downloader) : Event → Prop
  | .partOk id _ | .partRestart id | .partError id | .cdnRedirect id _ | .reupload id _ =>
    t.transfer.stopFlag = false ∧ ∃ size, (id, size) ∈ t.transfer.partMap
  | .setStreamingOffset _ _ => True
  | .setStreamingLimit _ => True
  | _ => t.transfer.stopFlag = false

def step (t : Downloader) : Event → Option Downloader
  | .startPart => (t.transfer.step .startPart).map fun transfer => { t with transfer }
  | .partOk id bytes => t.partOk id bytes
  | .partRestart id => t.partRestart id
  | .partError _ => some t.stop
  | .cdnRedirect id hashes => ({ t with needCheck := true }.addHashInfo hashes).partRestart id
  | .reupload id hashes => (t.addHashInfo hashes).partRestart id
  | .fileHashes hashes => some ({ t with hasHashQuery := false }.addHashInfo hashes)
  | .fileHashesError => some t.stop
  | .setStreamingOffset offset limit =>
    (t.transfer.step (.setStreamingOffset offset limit)).map fun transfer => { t with transfer }
  | .setStreamingLimit limit =>
    (t.transfer.step (.setStreamingLimit limit)).map fun transfer => { t with transfer }
  | .loop => (t.doLoop sha256).map fun (t, result) =>
    match result with
    | .ok false => t
    | _ => t.stop

instance (t : Downloader) (id : Nat) : Decidable (∃ size, (id, size) ∈ t.transfer.partMap) :=
  decidable_of_iff (∃ part ∈ t.transfer.partMap, part.1 = id)
    ⟨fun ⟨part, hmem, hid⟩ => ⟨part.2, hid ▸ hmem⟩, fun ⟨size, hmem⟩ => ⟨(id, size), hmem, rfl⟩⟩

instance (t : Downloader) : (event : Event) → Decidable (t.Allowed event)
  | .partOk _ _ | .partRestart _ | .partError _ | .cdnRedirect _ _ | .reupload _ _ =>
    inferInstanceAs (Decidable (_ ∧ _))
  | .setStreamingOffset _ _ | .setStreamingLimit _ => inferInstanceAs (Decidable True)
  | .startPart | .fileHashes _ | .fileHashesError | .loop => inferInstanceAs (Decidable (_ = _))

/-- What comes out of events one after another, if all of them are allowed. -/
def runEvents : Downloader → List Event → Option Downloader
  | t, [] => some t
  | t, event :: events =>
    if t.Allowed event then (t.step sha256 event).bind fun t => runEvents t events else none

/-- A run of a download, in which anything may happen. -/
inductive Run (t0 : Downloader) : Downloader → Prop where
  | refl : Run t0 t0
  | step {t t' : Downloader} (event : Event) (h : Run t0 t) (hallowed : t.Allowed event)
      (hstep : t.step sha256 event = some t') : Run t0 t'

end

end Downloader

end Tdlib.Files
