import Tdlib.Binlog.Binlog
import Tdlib.Binlog.ReaderProof
import Tdlib.Binlog.ProcessorProof

/-!
# Opening a log replays its records

`replay` is what loading does to a log without faults: each event in turn goes
through `do_add_event` while the object is in the `Load` state, and the index
accepts it. The loop of `load_binlog`, with its reads of at least 4096 bytes and
its reader that may stop in the middle of an event, comes to the same thing
(`loadLoop_eq`).

Replaying never looks at the file, so what holds of a log holds of every file
that contains it.
-/

namespace Tdlib.Binlog

open Lib Tl BinlogEvent List LogRecord
open Option (bind_eq_bind bind_eq_some_iff bind_some)

variable (platform : Platform)

/-! ## Replaying -/

/-- What an event does to the keys of a log being loaded. -/
def Encryption.replay (e : Encryption) (event : BinlogEvent) : Option Encryption :=
  if event.type = ServiceTypes.aesCtrEncryption.toInt32 then e.onEvent platform true event
  else some e

/-- `do_event` in the `Load` state, when the index accepts the event. -/
def replayEvent (b : Binlog) (event : BinlogEvent) : Option Binlog := do
  let encryption ← b.encryption.replay platform event
  match b.processor.doEvent event with
  | some (.ok processor) => some ({ b with encryption, processor }.countEvent event)
  | _ => none

/-- `do_add_event` in the `Load` state. -/
def replayAdd (b : Binlog) (event : BinlogEvent) : Option Binlog :=
  if event.has .part then
    some { b with pendingEvents := b.pendingEvents ++ [event.dropFlag .part] }
  else do
    let b ← b.pendingEvents.foldlM (replayEvent platform) b
    replayEvent platform { b with pendingEvents := [] } event

/-- A log without faults: `none` at the first event that is refused or needs another password. -/
def replay (b : Binlog) : List BinlogEvent → Option Binlog
  | [] => some b
  | event :: events => do
      let b ← replayAdd platform b event
      if b.encryption.wrongPassword then none else b.replay events

variable {platform} {b c : Binlog} {event : BinlogEvent} {events : List BinlogEvent}

/-- What one accepted event does while loading. -/
theorem replayEvent_eq_some (h : replayEvent platform b event = some c) :
    ∃ encryption processor, b.encryption.replay platform event = some encryption ∧
      b.processor.doEvent event = some (.ok processor) ∧
      c = { b with encryption, processor }.countEvent event := by
  obtain ⟨encryption, henc, h⟩ := bind_eq_some_iff.mp h
  split at h
  · rename_i processor hproc
    exact ⟨encryption, processor, henc, hproc, (Option.some.inj h).symm⟩
  · cases h

theorem replayAdd_alone (hpart : event.has .part = false) (hpending : b.pendingEvents = [])
    {encryption : Encryption} (henc : b.encryption.replay platform event = some encryption)
    {processor : BinlogEventsProcessor} (hproc : b.processor.doEvent event = some (.ok processor)) :
    replayAdd platform b event
      = some ({ b with encryption, processor, pendingEvents := [] }.countEvent event) := by
  rw [replayAdd, hpart, hpending]
  show replayEvent platform { b with pendingEvents := [] } event = _
  rw [replayEvent]
  rw [henc, bind_eq_bind, bind_some, hproc]

theorem keyEvent_load (hstate : b.state = .load) {encryption : Encryption}
    (h : b.encryption.replay platform event = some encryption) :
    b.keyEvent platform event = some { b with encryption } := by
  unfold Encryption.replay at h
  unfold keyEvent doEncryptionEvent
  split at h
  · rename_i htype
    rw [if_pos htype, hstate]
    simp only [decide_true, h, bind_eq_bind, bind_some, if_true]
  · rename_i htype
    rw [if_neg htype, ← Option.some.inj h]

/-- While loading, `do_event` does what replaying does. -/
theorem doEvent_of_replay (hstate : b.state = .load)
    (h : replayEvent platform b event = some c) : b.doEvent platform event = some c := by
  obtain ⟨encryption, processor, henc, hproc, rfl⟩ := replayEvent_eq_some h
  have hwrite : b.writeEvent platform event = some b := if_neg (by simp [hstate])
  rw [doEvent, hwrite, bind_eq_bind, bind_some, keyEvent_load hstate henc, bind_some, indexEvent]
  rw [hproc, if_neg (by simp [hstate])]

/-- Replaying does not look at the file, and leaves all but its own members alone. -/
theorem replayEvent_file (file : Bytes) : replayEvent platform { b with file } event
    = (replayEvent platform b event).map fun c => { c with file } := by
  unfold replayEvent
  cases b.encryption.replay platform event with
  | none => rfl
  | some encryption =>
    cases b.processor.doEvent event with
    | none => rfl
    | some result => cases result <;> rfl

/-- The members that replaying leaves alone. -/
structure SameFile (b c : Binlog) : Prop where
  file : c.file = b.file
  buffer : c.buffer = b.buffer
  state : c.state = b.state
  lastId : c.lastId = b.lastId

theorem SameFile.refl (b : Binlog) : SameFile b b := ⟨rfl, rfl, rfl, rfl⟩

theorem SameFile.trans {a : Binlog} (h : SameFile a b) (h' : SameFile b c) : SameFile a c :=
  ⟨h'.file.trans h.file, h'.buffer.trans h.buffer, h'.state.trans h.state, h'.lastId.trans h.lastId⟩

theorem replayEvent_sameFile (h : replayEvent platform b event = some c) : SameFile b c := by
  obtain ⟨_, _, _, _, rfl⟩ := replayEvent_eq_some h
  exact ⟨rfl, rfl, rfl, rfl⟩

theorem foldlM_replay_sameFile (h : events.foldlM (replayEvent platform) b = some c) :
    SameFile b c := by
  induction events generalizing b with
  | nil =>
    cases h
    exact .refl _
  | cons e es ih =>
    obtain ⟨d, hd, h⟩ := bind_eq_some_iff.mp h
    exact (replayEvent_sameFile hd).trans (ih h)

theorem replayAdd_sameFile (h : replayAdd platform b event = some c) : SameFile b c := by
  unfold replayAdd at h
  split at h
  · cases h
    exact ⟨rfl, rfl, rfl, rfl⟩
  · obtain ⟨d, hd, h⟩ := bind_eq_some_iff.mp h
    have hsame : SameFile { d with pendingEvents := [] } c := replayEvent_sameFile h
    exact (foldlM_replay_sameFile hd).trans ⟨hsame.file, hsame.buffer, hsame.state, hsame.lastId⟩

/-- Waiting events that are replayed: all of `do_event`, one after another. -/
theorem doEvents_of_replay (hstate : b.state = .load)
    (h : events.foldlM (replayEvent platform) b = some c) :
    b.doEvents platform events = some c := by
  induction events generalizing b with
  | nil => exact h
  | cons e es ih =>
    obtain ⟨d, hd, h⟩ := bind_eq_some_iff.mp h
    rw [doEvents, foldlM_cons, doEvent_of_replay hstate hd]
    exact ih ((replayEvent_sameFile hd).state.trans hstate) h

theorem doAddEvent_of_replay (hstate : b.state = .load)
    (h : replayAdd platform b event = some c) : b.doAddEvent platform event = some c := by
  unfold replayAdd at h
  unfold doAddEvent
  split at h
  · rename_i hpart
    rw [if_pos hpart]
    exact h
  · rename_i hpart
    obtain ⟨d, hd, h⟩ := bind_eq_some_iff.mp h
    rw [if_neg hpart, doEvents_of_replay hstate hd]
    exact doEvent_of_replay (b := { d with pendingEvents := [] })
      ((foldlM_replay_sameFile hd).state.trans hstate) h

theorem foldlM_replay_file (file : Bytes) :
    events.foldlM (replayEvent platform) { b with file }
      = (events.foldlM (replayEvent platform) b).map fun c => { c with file } := by
  induction events generalizing b with
  | nil => rfl
  | cons e es ih =>
    rw [foldlM_cons, foldlM_cons, replayEvent_file]
    cases replayEvent platform b e with
    | none => rfl
    | some d => exact ih

theorem replayAdd_file (file : Bytes) : replayAdd platform { b with file } event
    = (replayAdd platform b event).map fun c => { c with file } := by
  unfold replayAdd
  split
  · rfl
  rw [foldlM_replay_file]
  cases b.pendingEvents.foldlM (replayEvent platform) b with
  | none => rfl
  | some d => exact replayEvent_file (b := { d with pendingEvents := [] }) file

variable (platform b events) in
/-- **Replaying is about the records, not about the file they are in.** -/
theorem replay_file (file : Bytes) : replay platform { b with file } events
    = (replay platform b events).map fun c => { c with file } := by
  induction events generalizing b with
  | nil => rfl
  | cons e es ih =>
    rw [replay, replay, replayAdd_file]
    cases replayAdd platform b e with
    | none => rfl
    | some d =>
      show (if d.encryption.wrongPassword then none else _) = Option.map _ (ite _ _ _)
      split
      · rfl
      · exact ih d

theorem replay_cons (h : replay platform b (event :: events) = some c) :
    ∃ d, replayAdd platform b event = some d ∧ d.encryption.wrongPassword = false ∧
      replay platform d events = some c := by
  obtain ⟨d, hd, h⟩ := bind_eq_some_iff.mp h
  split at h
  · cases h
  · rename_i hpw
    exact ⟨d, hd, by simpa using hpw, h⟩

theorem replay_sameFile (h : replay platform b events = some c) : SameFile b c := by
  induction events generalizing b with
  | nil =>
    cases h
    exact .refl _
  | cons e es ih =>
    obtain ⟨d, hd, _, h⟩ := replay_cons h
    exact (replayAdd_sameFile hd).trans (ih h)

theorem replay_wrongPassword (hpw : b.encryption.wrongPassword = false)
    (h : replay platform b events = some c) : c.encryption.wrongPassword = false := by
  induction events generalizing b with
  | nil =>
    cases h
    exact hpw
  | cons e es ih =>
    obtain ⟨d, _, hd, h⟩ := replay_cons h
    exact ih hd h

theorem replay_append (as bs : List BinlogEvent) :
    replay platform b (as ++ bs) = (replay platform b as).bind fun c => replay platform c bs := by
  induction as generalizing b with
  | nil => rfl
  | cons e es ih =>
    rw [cons_append, replay, replay]
    cases replayAdd platform b e with
    | none => rfl
    | some d =>
      show ite _ _ _ = bind (ite _ _ _) _
      split
      · rfl
      · exact ih

/-! ## The loop of `load_binlog` -/

variable {log : List LogRecord} {reader : BinlogReader}

theorem Before.setInput (h : Before platform.crc32 log reader) {input : Bytes}
    (hinput : input <+: images platform.crc32 log) (isEncrypted : Bool) :
    Before platform.crc32 log { reader with input, isEncrypted } := ⟨hinput, h.size⟩

/-- **The loop replays the whole events of the file**, and stops at the end or in front of a
piece. -/
theorem loadLoop_eq (hstate : b.state = .load) (fuel : Nat) (unread : Bytes)
    (hbefore : Before platform.crc32 log reader)
    (hcut : reader.input ++ unread <+: images platform.crc32 log)
    (hfuel : reader.input.length + 2 * unread.length < fuel)
    (h : replay platform b (decodeFrom platform.crc32 reader.offset
      (whole (image platform.crc32) log (reader.input ++ unread).length)) = some c) :
    loadLoop platform fuel b reader unread = some c := by
  induction fuel generalizing b reader unread log with
  | zero => exact absurd hfuel (Nat.not_lt_zero _)
  | succ fuel ih =>
    rw [loadLoop]
    by_cases hnext : ∃ r ts, log = r :: ts ∧ r.rawSize ≤ reader.input.length
    · -- an event comes out
      obtain ⟨r, ts, rfl, hlen⟩ := hnext
      have hmin := minSize_le r
      have hfit : (image platform.crc32 r).length ≤ (reader.input ++ unread).length := by
        rw [length_image, length_append]; omega
      rw [whole_cons_of_le hfit] at h
      obtain ⟨d, hd, hpw, h⟩ := replay_cons h
      have hadd := doAddEvent_of_replay hstate hd
      have hsame := replayAdd_sameFile hd
      rw [readNext_event hbefore hlen]
      dsimp only
      rw [hadd]
      simp only [bind_eq_bind, bind_some, hpw,
        hsame.file, lt_irrefl]
      have hpast := hbefore.past hlen
      have hdrop : reader.input.drop r.rawSize ++ unread <+: images platform.crc32 ts := by
        rw [← drop_append_of_le_length hlen]
        exact (take_drop_of_image hcut (by rw [length_append]; omega)).2
      refine ih (hsame.state.trans hstate) unread (hpast.setInput hpast.input _) hdrop ?_ ?_
      · show (reader.input.drop r.rawSize).length + 2 * unread.length < fuel
        rw [length_drop]
        omega
      show replay platform d (decodeFrom platform.crc32 (reader.offset + r.rawSize)
        (whole _ ts (reader.input.drop r.rawSize ++ unread).length)) = some c
      have : (reader.input.drop r.rawSize ++ unread).length
          = (reader.input ++ unread).length - (image platform.crc32 r).length := by
        rw [length_image, length_append, length_append, length_drop]
        omega
      rw [this]
      exact h
    -- the reader asks for more
    have hlack : ∀ r ts, log = r :: ts → reader.input.length < r.rawSize := by
      intro r ts heq
      by_contra hge
      exact hnext ⟨r, ts, heq, by omega⟩
    obtain ⟨n, reader', hread, hn, hfirst, hinput, hoffset, hbefore'⟩ :=
      readNext_need hbefore hlack
    rw [hread]
    dsimp only
    have htake : (reader'.input ++ unread.take (max n 4096)) ++ unread.drop (max n 4096)
        = reader.input ++ unread := by
      rw [hinput, append_assoc, take_append_drop]
    by_cases hshort : (reader'.input ++ unread.take (max n 4096)).length < n
    · -- the file is at its end, and what is left is less than an event
      rw [if_pos hshort]
      rw [hinput, length_append, length_take] at hshort
      have hnone : whole (image platform.crc32) log (reader.input ++ unread).length
          = [] := by
        cases log with
        | nil => rfl
        | cons r ts =>
          have := hfirst r ts rfl
          refine whole_cons_of_lt ?_
          rw [length_image, length_append]
          omega
      rw [hnone] at h
      exact h
    rw [if_neg hshort]
    have hinitial : reader'.input ++ unread.take (max n 4096) <+: images platform.crc32 log :=
      (prefix_append _ _).trans (by rw [htake]; exact hcut)
    have hnext : Before platform.crc32 log
        { reader' with input := reader'.input ++ unread.take (max n 4096) } :=
      ⟨hinitial, hbefore'.size⟩
    refine ih hstate (unread.drop (max n 4096)) hnext (by rw [htake]; exact hcut) ?_ ?_
    · rw [length_append, length_take] at hshort ⊢
      rw [length_drop]
      rw [hinput] at hshort ⊢
      omega
    · rw [htake, hoffset]
      exact h

/-! ## Where replaying stands -/

/-- The event carries the untouched image of a record. -/
def Written (crc32 : Bytes → UInt32) (event : BinlogEvent) : Prop :=
  ∃ r : Record, r.rawSize < 0x80000000 ∧ event.rawEvent = r.image crc32 ∧
    event.size = UInt32.ofNat r.rawSize

theorem Written.dropFlag {crc32 : Bytes → UInt32} (h : Written crc32 event) (flag : Flags) :
    Written crc32 (event.dropFlag flag) := h

theorem LogRecord.written (crc32 : Bytes → UInt32) (r : LogRecord) (offset : Nat) :
    Written crc32 (r.event crc32 offset) := ⟨r.toRecord, r.rawSize_lt, rfl, rfl⟩

variable (platform) in
/-- The index is sound and stands where the replayed bytes end. -/
structure Sound (b : Binlog) : Prop where
  inv : Inv b.processor
  offset : b.processor.offset = b.fdSize
  written : ∀ e ∈ b.processor.live, Written platform.crc32 e

theorem replayEvent_sound (h : Sound platform b) (hwritten : Written platform.crc32 event)
    (hoffset : event.offset = b.fdSize + event.rawEvent.length)
    (hreplay : replayEvent platform b event = some c) :
    Sound platform c ∧ c.fdSize = event.offset ∧ c.pendingEvents = b.pendingEvents := by
  obtain ⟨encryption, processor, _, hproc, rfl⟩ := replayEvent_eq_some hreplay
  obtain ⟨hinv, hoff⟩ := h.inv.doEvent hproc
  refine ⟨⟨hinv, hoff.trans hoffset, ?_⟩, hoffset.symm, rfl⟩
  exact h.inv.doEvent_all hproc h.written (fun _ => hwritten) fun _ _ => hwritten.dropFlag _

/-- A waiting batch that starts where the replayed bytes end. -/
theorem foldlM_replay_sound {ws : List LogRecord} (h : Sound platform b)
    (hfold : ((decodeFrom platform.crc32 b.fdSize ws).map (·.dropFlag .part)).foldlM
      (replayEvent platform) b = some c) :
    Sound platform c ∧ c.fdSize = b.fdSize + (images platform.crc32 ws).length := by
  induction ws generalizing b with
  | nil =>
    cases hfold
    exact ⟨h, rfl⟩
  | cons r ws ih =>
    obtain ⟨d, hd, hfold⟩ := bind_eq_some_iff.mp hfold
    have hlen : b.fdSize + r.rawSize = b.fdSize + (r.image platform.crc32).length := by
      rw [length_image]
    obtain ⟨hsound, hsize, _⟩ := replayEvent_sound h
      ((written platform.crc32 r (b.fdSize + r.rawSize)).dropFlag .part) hlen hd
    have hsize : d.fdSize = b.fdSize + r.rawSize := hsize
    rw [← hsize] at hfold
    obtain ⟨hc, hcsize⟩ := ih hsound hfold
    refine ⟨hc, ?_⟩
    rw [hcsize, hsize, images_cons, length_append, length_image, add_assoc]

variable (platform) in
/-- `done` was replayed, except for the batch `waiting` at its end. -/
structure Replayed (done waiting : List LogRecord) (b : Binlog) : Prop where
  sound : Sound platform b
  pending : b.pendingEvents
    = (decodeFrom platform.crc32 b.fdSize waiting).map (·.dropFlag .part)
  size : b.fdSize + (images platform.crc32 waiting).length = (images platform.crc32 done).length

/-- The batch that waits after one more record. -/
def nextWaiting (waiting : List LogRecord) (r : LogRecord) : List LogRecord :=
  if r.has .part then waiting ++ [r] else []

variable {done waiting : List LogRecord}

theorem Replayed.step {r : LogRecord} (h : Replayed platform done waiting b)
    (hadd : replayAdd platform b (r.event platform.crc32
      ((images platform.crc32 done).length + r.rawSize)) = some c) :
    Replayed platform (done ++ [r]) (nextWaiting waiting r) c := by
  have himg : (images platform.crc32 [r]).length = r.rawSize := by
    rw [images_cons, length_append, length_image]
    rfl
  unfold replayAdd at hadd
  unfold nextWaiting
  rw [Record.event_has] at hadd
  split at hadd
  · rename_i hpart
    cases hadd
    rw [if_pos hpart]
    refine ⟨⟨h.sound.inv, h.sound.offset, h.sound.written⟩, ?_, ?_⟩
    · rw [decodeFrom_append, map_append, ← h.pending, h.size]
      rfl
    · show b.fdSize + _ = _
      rw [images_append, images_append, length_append, length_append, ← h.size]
      omega
  rename_i hpart
  rw [if_neg hpart]
  obtain ⟨d, hd, hadd⟩ := bind_eq_some_iff.mp hadd
  rw [h.pending] at hd
  obtain ⟨hsound, hsize⟩ := foldlM_replay_sound h.sound hd
  rw [h.size] at hsize
  have hlen : (images platform.crc32 done).length + r.rawSize
      = d.fdSize + (r.image platform.crc32).length := by
    rw [length_image, hsize]
  obtain ⟨hc, hcsize, hpending⟩ := replayEvent_sound (b := { d with pendingEvents := [] })
    ⟨hsound.inv, hsound.offset, hsound.written⟩
    (written platform.crc32 r _) hlen hadd
  refine ⟨hc, hpending, ?_⟩
  rw [images_append, length_append, himg, hcsize]
  rfl

/-- The batch that waits after several records. -/
def waitingAfter (waiting : List LogRecord) (rs : List LogRecord) : List LogRecord :=
  rs.foldl nextWaiting waiting

theorem Replayed.replay (h : Replayed platform done waiting b) (rs : List LogRecord)
    (hreplay : replay platform b
      (decodeFrom platform.crc32 (images platform.crc32 done).length rs) = some c) :
    Replayed platform (done ++ rs) (waitingAfter waiting rs) c := by
  induction rs generalizing done waiting b with
  | nil =>
    cases hreplay
    rw [append_nil]
    exact h
  | cons r rs ih =>
    obtain ⟨d, hd, _, hrest⟩ := replay_cons hreplay
    have hlen : (images platform.crc32 done).length + r.rawSize
        = (images platform.crc32 (done ++ [r])).length := by
      rw [images_append, length_append, images_cons, length_append, length_image]
      rfl
    rw [hlen] at hrest
    have := ih (h.step hd) hrest
    rwa [append_assoc] at this

variable (platform) in
theorem Replayed.start (file : Bytes) (dbKey oldDbKey : DbKey) :
    Replayed platform [] [] (new file dbKey oldDbKey).startLoad :=
  ⟨⟨inv_empty, rfl, fun e he => absurd he (by
    simp [startLoad, new, BinlogEventsProcessor.empty, BinlogEventsProcessor.live, liveEvents])⟩,
    rfl, rfl⟩

/-! ## Loading a file -/

/-- A log whose records can be replayed opens to what was replayed. -/
theorem loadBinlog_images {dbKey oldDbKey : DbKey}
    (hreplay : replay platform (new (images platform.crc32 log) dbKey oldDbKey).startLoad
      (decodeFrom platform.crc32 0 log) = some c)
    (hpw : c.encryption.wrongPassword = false) :
    (new (images platform.crc32 log) dbKey oldDbKey).loadBinlog platform = c.finishLoad := by
  have hwhole : whole (image platform.crc32) log
      ([] ++ images platform.crc32 log).length = log := whole_flatMap log
  have hbefore : Before platform.crc32 log
      (BinlogReader.start [] false (images platform.crc32 log).length) :=
    ⟨ nil_prefix, nofun⟩
  have hloop := loadLoop_eq (b := (new (images platform.crc32 log) dbKey oldDbKey).startLoad) rfl
    (loadFuel (images platform.crc32 log)) (images platform.crc32 log) hbefore
    (prefix_refl _) (by show 0 + 2 * _ < 2 * _ + 1; omega)
    (by
      show replay platform _ (decodeFrom platform.crc32 0 (whole _ log
        ([] ++ images platform.crc32 log).length)) = some c
      rw [hwhole]
      exact hreplay)
  rw [loadBinlog]
  show (loadLoop platform (loadFuel (images platform.crc32 log)) (startLoad _)
    (BinlogReader.start [] false (images platform.crc32 log).length)
    (images platform.crc32 log)).bind _ = _
  rw [hloop]
  show (if c.encryption.wrongPassword then _ else _) = _
  rw [hpw]
  rfl

end Tdlib.Binlog
