import Tdlib.Lib.Skip

/-!
# The parts of a file

A file is transferred in parts of `partSize` bytes, any number of them at a time. The
`PartsManager` says which part is next and keeps count of what is ready. It need not know the size
of the file: then it asks for one part after another, learns a lower bound from every part that
has bytes and an upper bound from every part that has fewer than `partSize`, and knows the size
when the bounds meet.

The order of the parts is that of the file, or begins with a streaming offset. A streaming limit
says how many bytes are wanted from there on, and if they go past the end of the file, they go on
at its beginning.

`none` stands for a failed `CHECK`. Sizes and numbers of parts are natural numbers. What a caller
may give as a negative number is an `Int`, and so is what is computed with it.
-/

namespace Tdlib.Files

open Tdlib.Lib

inductive PartStatus where
  | empty
  | pending
  | ready
deriving DecidableEq

structure Error where
  code : Int := 0
  message : String
deriving DecidableEq

/-- A value in a message. -/
def tag (name : String) (value : Nat) : String := "[" ++ name ++ ":" ++ toString value ++ "]"

structure Part where
  /-- `none` is the number -1 of the part that stands for nothing. -/
  id : Option Nat
  offset : Nat
  size : Nat
deriving DecidableEq

def maxPartCount : Nat := 4000
def maxPartSize : Nat := 0x80000
def maxFileSize : Nat := maxPartSize * maxPartCount
def int64Max : Nat := 0x7fffffffffffffff

/-- Which parts of a file are there, under way or missing. -/
structure PartsManager where
  isUpload : Bool := false
  needCheck : Bool := false
  checkedPrefixSize : Nat := 0
  knownPrefixFlag : Bool := false
  knownPrefixSize : Nat := 0
  size : Nat := 0
  expectedSize : Nat := 0
  minSize : Nat := 0
  maxSize : Nat := 0
  unknownSizeFlag : Bool := false
  readySize : Nat := 0
  streamingReadySize : Nat := 0
  partSize : Nat := 0
  partCount : Nat := 0
  pendingCount : Int := 0
  firstEmptyPart : Nat := 0
  firstNotReadyPart : Nat := 0
  streamingOffset : Nat := 0
  streamingLimit : Int := 0
  firstStreamingEmptyPart : Nat := 0
  firstStreamingNotReadyPart : Nat := 0
  partStatus : List PartStatus := []
  usePartCountLimit : Bool := false
deriving DecidableEq

def calcPartCount (size partSize : Nat) : Nat := (size + partSize - 1) / partSize

namespace PartsManager

/-! ## Sizes and parts -/

def getSize (d : PartsManager) : Option Nat :=
  if d.unknownSizeFlag then none else some d.size

/-- What `get_part` takes for the size of the file. -/
def totalSize (d : PartsManager) : Nat :=
  if d.unknownSizeFlag then d.maxSize else d.size

def getPart (d : PartsManager) (id : Nat) : Part :=
  let offset := d.partSize * id
  ⟨some id, offset, if d.totalSize < offset then 0 else min d.partSize (d.totalSize - offset)⟩

def getEmptyPart : Part := ⟨none, 0, 0⟩

def getExpectedSize (d : PartsManager) : Nat :=
  if d.unknownSizeFlag then max 0x80000 (d.readySize * 2) else d.size

/-- `is_part_in_streaming_limit`, for a part that exists. -/
def isPartInStreamingLimit (d : PartsManager) (partI : Nat) : Bool :=
  let offsetBegin : Int := partI * d.partSize
  let offsetEnd : Int := offsetBegin + (d.getPart partI).size
  let isIntersectWith (first last : Int) : Bool := max first offsetBegin < min last offsetEnd
  let streamingEnd : Int := d.streamingOffset + d.streamingLimit
  if (d.getExpectedSize : Int) ≤ offsetBegin then false
  else if d.streamingLimit = 0 then true
  else
    isIntersectWith d.streamingOffset streamingEnd ||
      -- past the end of the file the limit goes on at its beginning
      (!d.unknownSizeFlag && decide (streamingEnd > d.size) &&
        isIntersectWith 0 (streamingEnd - d.size))

/-- The bytes that are ready of what is wanted. -/
def readyInStreamingLimit (d : PartsManager) : Nat :=
  ∑ partI ∈ Finset.range d.partCount,
    if d.isPartInStreamingLimit partI ∧ d.partStatus[partI]? = some .ready
    then (d.getPart partI).size else 0

/-! ## Cursors -/

def updateFirstEmptyPart (d : PartsManager) : PartsManager :=
  let firstEmptyPart := skipWhile (fun status => status ≠ .empty) d.partStatus d.firstEmptyPart
  { d with
    firstEmptyPart := firstEmptyPart
    firstStreamingEmptyPart :=
      if d.streamingOffset = 0 then firstEmptyPart
      else skipWhile (fun status => status ≠ .empty) d.partStatus d.firstStreamingEmptyPart }

def updateFirstNotReadyPart (d : PartsManager) : PartsManager :=
  let firstNotReadyPart := skipWhile (fun status => status = .ready) d.partStatus
    d.firstNotReadyPart
  { d with
    firstNotReadyPart := firstNotReadyPart
    firstStreamingNotReadyPart :=
      if d.streamingOffset = 0 then firstNotReadyPart
      else skipWhile (fun status => status = .ready) d.partStatus d.firstStreamingNotReadyPart }

/-! ## Streaming -/

def setStreamingLimit (d : PartsManager) (limit : Int) : PartsManager :=
  let d := { d with streamingLimit := limit }
  { d with streamingReadySize := if limit = 0 then 0 else d.readyInStreamingLimit }

/-- The end of `set_streaming_offset`, which returns the first part that is not ready. -/
def finishStreaming (d : PartsManager) (limit : Int) : PartsManager × Nat :=
  let d := (d.setStreamingLimit limit).updateFirstNotReadyPart
  (d, d.firstStreamingNotReadyPart)

def setStreamingOffset (d : PartsManager) (offset limit : Int) : Option (PartsManager × Nat) :=
  if offset < 0 ∨ d.needCheck ∨ (¬d.unknownSizeFlag ∧ d.size < offset) then
    -- an offset that is not 0 is logged, with the size of the file
    if offset ≠ 0 ∧ d.getSize = none then none
    else some ({ d with streamingOffset := 0 }.finishStreaming limit)
  else
    let partI := offset.toNat / d.partSize
    if d.usePartCountLimit ∧ maxPartCount ≤ partI then
      some ({ d with streamingOffset := 0 }.finishStreaming limit)
    -- the number of a part is an `int`
    else if 0x80000000 ≤ partI then none
    else
      some ({ d with
        streamingOffset := offset.toNat
        firstStreamingEmptyPart := partI
        firstStreamingNotReadyPart := partI
        partCount := max d.partCount partI
        partStatus :=
          d.partStatus ++ List.replicate (partI - d.partCount) PartStatus.empty }.finishStreaming
            limit)

/-- A number of bytes in whole parts, which is computed in `size_t`. -/
def roundUp (d : PartsManager) (x : Int) : Int :=
  ((x + d.partSize - 1) % 0x10000000000000000 / d.partSize * d.partSize).bmod 0x10000000000000000

/-- How many bytes are wanted, in whole parts. -/
def streamingSize (d : PartsManager) : Int :=
  let expectedSize : Int := d.getExpectedSize
  let streamingBegin : Int := d.streamingOffset / d.partSize * d.partSize
  let streamingEnd := d.roundUp (d.streamingOffset + d.streamingLimit)
  if d.unknownSizeFlag then
    if streamingBegin < expectedSize then
      min (expectedSize - streamingBegin) (streamingEnd - streamingBegin)
    else 0
  else if expectedSize < streamingEnd then
    if d.streamingOffset < d.expectedSize then
      let suffix := d.expectedSize - streamingBegin
      let total := d.streamingLimit - (d.expectedSize - d.streamingOffset)
      min expectedSize (d.roundUp total + suffix)
    else min expectedSize (d.roundUp d.streamingLimit)
  else streamingEnd - streamingBegin

def getEstimatedExtra (d : PartsManager) : Option Int :=
  if d.streamingLimit ≠ 0 then
    if d.readyInStreamingLimit ≠ d.streamingReadySize then none
    else
      let res := d.streamingSize - d.streamingReadySize
      if res < 0 then none else some res
  else some (d.getExpectedSize - d.readySize)

/-! ## Parts that are started and done -/

def onPartStart (d : PartsManager) (id : Nat) : PartsManager :=
  { d with partStatus := d.partStatus.set id .pending, pendingCount := d.pendingCount + 1 }

/-- The end of `start_part`: the part is started if it is wanted. -/
def startPartAt (d : PartsManager) (partI : Nat) : Option (PartsManager × Except Error Part) :=
  if d.partCount ≤ partI then none
  else if ¬d.isPartInStreamingLimit partI then some (d, .ok getEmptyPart)
  else if d.partStatus[partI]? ≠ some .empty then none
  else some (d.onPartStart partI, .ok (d.getPart partI))

/-- A part is appended, if there may be one more. -/
def startNewPart (d : PartsManager) (partI : Nat) : Option (PartsManager × Except Error Part) :=
  let d := { d with partCount := d.partCount + 1 }
  if maxPartCount + (if d.usePartCountLimit then 0 else 64) < d.partCount then
    if d.isUpload then some (d, .error { message := "Too big file with unknown size" })
    else some (d, .error { message := "FILE_DOWNLOAD_RESTART_INCREASE_PART_SIZE" })
  else { d with partStatus := d.partStatus ++ [PartStatus.empty] }.startPartAt partI

def startPart (d : PartsManager) : Option (PartsManager × Except Error Part) :=
  let d := d.updateFirstEmptyPart
  let partI := d.firstStreamingEmptyPart
  if d.knownPrefixFlag ∧ d.knownPrefixSize / d.partSize ≤ partI then
    some (d, .error ⟨1, "Wait for prefix to be known"⟩)
  else if partI = d.partCount then
    if d.unknownSizeFlag then d.startNewPart partI
    else if d.firstEmptyPart < d.partCount then d.startPartAt d.firstEmptyPart
    else some (d, .ok getEmptyPart)
  else d.startPartAt partI

/-- What the first lines of `on_part_ok` do. -/
def onPartReady (d : PartsManager) (id actualSize : Nat) : PartsManager :=
  let d := { d with
    pendingCount := d.pendingCount - 1
    partStatus := d.partStatus.set id .ready
    readySize := d.readySize + actualSize }
  { d with
    streamingReadySize :=
      if 0 < d.streamingLimit ∧ d.isPartInStreamingLimit id then d.streamingReadySize + actualSize
      else d.streamingReadySize }

/-- The bounds of a size that is not known. -/
def updateBounds (d : PartsManager) (endOffset actualSize : Nat) : PartsManager :=
  { d with
    maxSize := if actualSize < d.partSize then min d.maxSize endOffset else d.maxSize
    minSize := if actualSize ≠ 0 then max d.minSize endOffset else d.minSize }

def onPartOk (d : PartsManager) (id partSize actualSize : Nat) :
    Option (PartsManager × Except Error Unit) :=
  if d.partStatus[id]? ≠ some .pending then none
  else
    let d := d.onPartReady id actualSize
    let offset := d.partSize * id
    let endOffset := offset + actualSize
    if d.unknownSizeFlag then
      if partSize ≠ d.partSize then none
      else
        let d := d.updateBounds endOffset actualSize
        if d.maxSize < d.minSize then
          some (d, .error ⟨0, "Failed to transfer file: " ++ tag "min_size" d.minSize ++
            tag "max_size" d.maxSize⟩)
        else if d.minSize = d.maxSize then
          some ({ d with unknownSizeFlag := false, size := d.minSize }, .ok ())
        else some (d, .ok ())
    else if (actualSize < partSize ∧ offset < d.size) ∨ (d.size ≤ offset ∧ 0 < actualSize) then
      some (d, .error ⟨0, "Failed to transfer file: " ++ tag "size" d.size ++ tag "offset" offset ++
        tag "transferred size" actualSize ++ tag "part size" partSize⟩)
    else some (d, .ok ())

def onPartFailed (d : PartsManager) (id : Nat) : Option PartsManager :=
  if d.partStatus[id]? ≠ some .pending then none
  else
    some { d with
      pendingCount := d.pendingCount - 1
      partStatus := d.partStatus.set id .empty
      firstEmptyPart := min id d.firstEmptyPart
      firstStreamingEmptyPart :=
        if d.streamingOffset = 0 then id
        else if d.streamingOffset / d.partSize ≤ id ∧ id < d.firstStreamingEmptyPart then id
        else d.firstStreamingEmptyPart }

/-! ## Readiness -/

def uncheckedReady (d : PartsManager) : Bool :=
  !d.unknownSizeFlag && d.readySize == d.size

def ready (d : PartsManager) : Bool :=
  d.uncheckedReady && (!d.needCheck || d.checkedPrefixSize == d.size)

/-- `set_need_check`. The offset is 0, so nothing is logged. -/
def setNeedCheck (d : PartsManager) : Option PartsManager :=
  ({ d with needCheck := true }.setStreamingOffset 0 0).map Prod.fst

def setCheckedPrefixSize (d : PartsManager) (size : Nat) : PartsManager :=
  { d with checkedPrefixSize := size }

def getReadyPrefixCount (d : PartsManager) : PartsManager × Nat :=
  let d := d.updateFirstNotReadyPart
  (d, if d.needCheck then min (d.checkedPrefixSize / d.partSize) d.firstNotReadyPart
    else d.firstNotReadyPart)

/-! ## Initialisation -/

/-- The loop over the parts that are ready. -/
def initReadyParts : List Nat → PartsManager → Option (Except Error PartsManager)
  | [], d => some (.ok d)
  | i :: readyParts, d =>
    if d.knownPrefixFlag ∧ d.knownPrefixSize / d.partSize ≤ i then
      if d.isUpload then some (.error { message := "FILE_UPLOAD_RESTART" }) else none
    else if d.isUpload ∧ d.partCount ≤ i then
      some (.error { message := "FILE_UPLOAD_RESTART" })
    else if d.partCount ≤ i then none
    else
      initReadyParts readyParts { d with
        partStatus := d.partStatus.set i .ready
        readySize := d.readySize + (d.getPart i).size }

def initCommon (d : PartsManager) (readyParts : List Nat) : Option (Except Error PartsManager) :=
  (initReadyParts readyParts { d with
    readySize := 0
    streamingReadySize := 0
    pendingCount := 0
    firstEmptyPart := 0
    firstNotReadyPart := 0
    partStatus := List.replicate d.partCount .empty }).map fun r => r.map fun d =>
      let (d, readyPrefixCount) := d.getReadyPrefixCount
      { d with checkedPrefixSize := readyPrefixCount * d.partSize }

/-- The part size is doubled until there are not too many parts. The first argument bounds the
number of rounds, of which there are at most four before the part size is too big. -/
def growPartSize (expectedSize : Nat) : Nat → Nat → Option Nat
  | 0, _ => none
  | n + 1, partSize =>
    if maxPartCount < calcPartCount expectedSize partSize then
      if maxPartSize < partSize * 2 then none else growPartSize expectedSize n (partSize * 2)
    else some partSize

def initNoSize (d : PartsManager) (partSize : Nat) (readyParts : List Nat) :
    Option (Except Error PartsManager) :=
  let chosen :=
    if partSize ≠ 0 then some partSize
    else
      (growPartSize d.expectedSize 6 0x8000).map fun partSize =>
        if partSize < maxPartSize then partSize * 2 else partSize
  chosen.bind fun partSize =>
    { d with
      unknownSizeFlag := true
      size := 0
      minSize := 0
      maxSize := int64Max
      partSize := partSize
      partCount := readyParts.foldl (fun a b => max a (b + 1)) 0 }.initCommon readyParts

def initKnownSize (d : PartsManager) (size partSize : Nat) (readyParts : List Nat) :
    Option (Except Error PartsManager) :=
  let init (partSize : Nat) : Option (Except Error PartsManager) :=
    if d.usePartCountLimit ∧ maxPartCount < calcPartCount d.expectedSize partSize then none
    else
      { d with
        unknownSizeFlag := false
        size := size
        partSize := partSize
        partCount := calcPartCount size partSize }.initCommon readyParts
  if partSize ≠ 0 then
    if d.usePartCountLimit ∧ maxPartCount < calcPartCount d.expectedSize partSize then
      if d.isUpload then some (.error { message := "FILE_UPLOAD_RESTART" }) else none
    else init partSize
  else (growPartSize d.expectedSize 5 0x10000).bind init

/-- `init` of a new manager. -/
def init (size expectedSize : Nat) (isSizeFinal : Bool) (partSize : Nat) (readyParts : List Nat)
    (usePartCountLimit isUpload : Bool) : Option (Except Error PartsManager) :=
  let d : PartsManager := { isUpload, usePartCountLimit, expectedSize }
  if expectedSize < size then none
  else if maxFileSize < expectedSize then some (.error { message := "Too big file" })
  else if ¬isSizeFinal then
    { d with knownPrefixFlag := true, knownPrefixSize := size }.initNoSize partSize readyParts
  else if size = 0 then d.initNoSize partSize readyParts
  else d.initKnownSize size partSize readyParts

end PartsManager

end Tdlib.Files
