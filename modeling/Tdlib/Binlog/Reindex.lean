import Tdlib.Binlog.Load

/-!
# Regeneration

`do_reindex` writes a new file from the index: an encryption event if there is a
key, then the image of every live event as it was first written. An image keeps
the flags its event came with. A rewritten event therefore goes back into the log
as a `Rewrite`, of an id that nothing before it in the new file has; reading it
takes the branch for additions, because the events are written in the order of
their ids.

A live event whose type is negative would be taken for a service event there. The
log lets a caller make one, by rewriting an event to such a type, and loses it.
-/

namespace Tdlib.Binlog

open Lib Tl BinlogEvent List ServiceTypes
open Option (bind_eq_bind bind_eq_some_iff bind_some)

variable {platform : Platform} {entropy : Entropy} {b c d : Binlog} {event : BinlogEvent}
  {events : List BinlogEvent}

/-! ## Writing out -/

/-- `c` is `b` with `bytes` written after all the rest, in the file or on its way there. -/
structure Wrote (b : Binlog) (bytes : Bytes) (c : Binlog) : Prop where
  written : c.file ++ c.buffer = b.file ++ b.buffer ++ bytes
  state : c.state = b.state
  processor : c.processor = b.processor
  pending : c.pendingEvents = b.pendingEvents
  lastId : c.lastId = b.lastId
  size : c.fdSize = b.fdSize + bytes.length

theorem Wrote.refl (b : Binlog) : Wrote b [] b :=
  ⟨(append_nil _).symm, rfl, rfl, rfl, rfl, rfl⟩

theorem Wrote.trans {x y : Bytes} (h : Wrote b x c) (h' : Wrote c y d) : Wrote b (x ++ y) d :=
  ⟨by rw [h'.written, h.written, append_assoc _ x], h'.state.trans h.state,
    h'.processor.trans h.processor, h'.pending.trans h.pending, h'.lastId.trans h.lastId,
    by rw [h'.size, h.size, length_append, add_assoc]⟩

theorem flush_eq (h : b.state ≠ .load) :
    b.flush = { b with file := b.file ++ b.buffer, buffer := [] } := if_neg h

/-- During regeneration an event is written and nothing else happens to the index. -/
theorem doEvent_reindex (hstate : b.state = .reindex) (h : b.doEvent platform event = some c) :
    Wrote b event.rawEvent c := by
  obtain ⟨b1, h1, h⟩ := bind_eq_some_iff.mp h
  obtain ⟨b2, h2, h3⟩ := bind_eq_some_iff.mp h
  have hb1 : b1 = { b with buffer := b.buffer ++ event.rawEvent } := by
    rw [writeEvent, if_pos (.inr hstate)] at h1
    split at h1
    · exact (Option.some.inj h1).symm
    · cases h1
  have hstate1 : b1.state = .reindex := by rw [hb1]; exact hstate
  -- an encryption event flushes what was written, any other one changes nothing
  obtain ⟨encryption, file, buffer, rfl, hwritten⟩ : ∃ encryption file buffer,
      b2 = { b1 with encryption, file, buffer } ∧ file ++ buffer = b1.file ++ b1.buffer := by
    unfold keyEvent at h2
    split at h2
    · obtain ⟨encryption, _, h2⟩ := bind_eq_some_iff.mp h2
      rw [if_neg (by simp [hstate1]), if_pos hstate1, flush_eq (by simp [hstate1])] at h2
      exact ⟨encryption, _, _, (Option.some.inj h2).symm, append_nil _⟩
    · exact ⟨_, _, _, (Option.some.inj h2).symm, rfl⟩
  rw [indexEvent, if_pos hstate1] at h3
  cases h3
  subst hb1
  exact ⟨hwritten.trans (append_assoc _ _ _).symm, rfl, rfl, rfl, rfl, rfl⟩

theorem doEvents_reindex (hstate : b.state = .reindex) (h : b.doEvents platform events = some c) :
    Wrote b (events.flatMap (·.rawEvent)) c := by
  induction events generalizing b with
  | nil =>
    cases h
    exact .refl _
  | cons e es ih =>
    obtain ⟨d, hd, h⟩ := bind_eq_some_iff.mp h
    have hw := doEvent_reindex hstate hd
    exact hw.trans (ih (hw.state.trans hstate) h)

variable {crc32 : Bytes → UInt32} {q : BinlogEventsProcessor} {rs : List LogRecord}
  {dbKey oldDbKey : DbKey} {r : Record}

theorem Written.validate (h : Written crc32 event) : event.validate crc32 = some (.ok ()) := by
  obtain ⟨r, hsize, hraw, heq⟩ := h
  exact Record.validate_image crc32 hsize hraw heq

/-- An image that is there validates, and is written. -/
theorem doEvent_reindex_ok (hstate : b.state = .reindex) (hw : Written platform.crc32 event)
    (htype : event.type ≠ aesCtrEncryption.toInt32) :
    ∃ c, b.doEvent platform event = some c ∧ c.encryption = b.encryption := by
  refine ⟨({ b with buffer := b.buffer ++ event.rawEvent } : Binlog).countEvent event, ?_, rfl⟩
  rw [doEvent, writeEvent, if_pos (.inr hstate), hw.validate]
  simp only [bind_eq_bind, bind_some]
  rw [keyEvent, if_neg htype, bind_some, indexEvent, if_pos hstate]

theorem doEvents_reindex_ok (hstate : b.state = .reindex)
    (hevents : ∀ e ∈ events, Written platform.crc32 e ∧
      e.type ≠ aesCtrEncryption.toInt32) :
    ∃ c, b.doEvents platform events = some c ∧ c.encryption = b.encryption := by
  induction events generalizing b with
  | nil => exact ⟨b, rfl, rfl⟩
  | cons e es ih =>
    obtain ⟨he, htype⟩ := hevents e mem_cons_self
    obtain ⟨d, hd, hdenc⟩ := doEvent_reindex_ok hstate he htype
    obtain ⟨c, hc, hcenc⟩ := ih ((doEvent_reindex hstate hd).state.trans hstate)
      (forall_mem_cons.1 hevents).2
    refine ⟨c, ?_, hcenc.trans hdenc⟩
    rw [doEvents, foldlM_cons, hd]
    exact hc

/-- The bytes that go in front of a regenerated file. -/
def IsHeader (platform : Platform) (header : Bytes) : Prop :=
  header = [] ∨ ∃ (e : Encryption) (entropy : Entropy) (event : BinlogEvent),
    e.headerEvent platform entropy = some event ∧ header = event.rawEvent

/-- What a regenerated log is: the same index, and a file with its live events. -/
structure Regenerated (platform : Platform) (b c : Binlog) : Prop where
  state : c.state = .run
  processor : c.processor = b.processor
  pending : c.pendingEvents = b.pendingEvents
  lastId : c.lastId = b.lastId
  buffer : c.buffer = []
  file : ∃ header, IsHeader platform header ∧
    c.file = header ++ b.processor.live.flatMap (·.rawEvent)

/-- **Regenerating writes out the live events.** -/
theorem doReindex_regenerated (hinv : Inv b.processor)
    (h : b.doReindex platform entropy = some c) : Regenerated platform b c := by
  unfold doReindex at h
  split at h
  · cases h
  obtain ⟨b1, h1, h⟩ := bind_eq_some_iff.mp h
  have hheader : ∃ header, IsHeader platform header ∧ Wrote b.startReindex header b1 := by
    unfold resetEncryption at h1
    split at h1
    · cases h1
      exact ⟨[], .inl rfl, rfl, rfl, rfl, rfl, rfl, rfl⟩
    · obtain ⟨event, hevent, h1⟩ := bind_eq_some_iff.mp h1
      exact ⟨event.rawEvent, .inr ⟨_, entropy, event, hevent, rfl⟩, doEvent_reindex rfl h1⟩
  obtain ⟨header, hheader, hwrote⟩ := hheader
  obtain ⟨events, hevents, h⟩ := bind_eq_some_iff.mp h
  rw [hwrote.processor] at hevents
  obtain rfl := Option.some.inj (hinv.forEach_eq.symm.trans hevents)
  obtain ⟨b2, h2, h⟩ := bind_eq_some_iff.mp h
  have hall := hwrote.trans (doEvents_reindex hwrote.state h2)
  have hstate : b2.state = .reindex := hall.state
  unfold finishReindex at h
  split at h
  · cases h
    rw [flush_eq (by simp [hstate])]
    exact ⟨rfl, hall.processor, hall.pending, hall.lastId, rfl, header, hheader, hall.written⟩
  · cases h

/-- Once the header is written, and with images that validate, regeneration succeeds. -/
theorem doReindex_after_header {header : Bytes} (hstate : b.state = .run)
    (hreset : b.startReindex.resetEncryption platform entropy = some d)
    (hheader : Wrote b.startReindex header d) (hinv : Inv b.processor)
    (hevents : ∀ e ∈ b.processor.live, Written platform.crc32 e ∧
      e.type ≠ aesCtrEncryption.toInt32) :
    ∃ c, b.doReindex platform entropy = some c ∧ c.encryption = d.encryption ∧
      c.file = header ++ b.processor.live.flatMap (·.rawEvent) := by
  obtain ⟨b2, h2, henc⟩ := doEvents_reindex_ok hheader.state hevents
  have hw := hheader.trans (doEvents_reindex hheader.state h2)
  have hflush := flush_eq (b := b2) (by rw [hw.state]; simp [startReindex])
  have hfile : b2.file ++ b2.buffer = header ++ b.processor.live.flatMap (·.rawEvent) := hw.written
  refine ⟨{ b2.flush with state := .run }, ?_, ?_, ?_⟩
  · unfold doReindex
    rw [if_neg (by simp [hstate]), hreset]
    show (d.processor.forEach).bind _ = _
    rw [hheader.processor, show b.startReindex.processor.forEach = _ from hinv.forEach_eq]
    show (d.doEvents platform b.processor.live).bind _ = _
    rw [h2]
    refine if_pos ?_
    rw [hflush]
    rw [hfile, hw.size]
    exact zero_add _
  · rw [hflush]
    exact henc
  · rw [hflush]
    exact hfile

theorem doReindex_plain (hstate : b.state = .run) (hkey : b.encryption.dbKey = .empty)
    (hinv : Inv b.processor) (hevents : ∀ e ∈ b.processor.live, Written platform.crc32 e ∧
      e.type ≠ aesCtrEncryption.toInt32) (entropy : Entropy) :
    ∃ c, b.doReindex platform entropy = some c ∧
      c.encryption = { b.encryption with encryptionType := .none } ∧
      c.file = b.processor.live.flatMap (·.rawEvent) :=
  doReindex_after_header hstate (if_pos (by show b.encryption.dbKey.isEmpty = true; rw [hkey]; rfl))
    (.refl b.startReindex) hinv hevents

/-! ## Reading back -/

/-- A record that a regenerated file holds: an event of its own, with no batch to wait for. -/
def Plain (r : LogRecord) : Prop := ¬ r.type < 0 ∧ r.has .part = false

theorem ne_aesCtrEncryption {type : Int32} (h : ¬ type < 0) :
    type ≠ aesCtrEncryption.toInt32 := by
  rintro rfl
  exact h (by decide)

variable (platform) in
/-- A record that neither waits nor has to do with keys goes to the index. -/
theorem replayAdd_ok {r : LogRecord} {offset : Nat}
    (htype : r.type ≠ aesCtrEncryption.toInt32) (hpart : r.has .part = false)
    (hpending : b.pendingEvents = [])
    (hq : b.processor.doEvent (r.event platform.crc32 offset) = some (.ok q)) :
    replayAdd platform b (r.event platform.crc32 offset)
      = some (({ b with processor := q, pendingEvents := [] } : Binlog).countEvent
        (r.event platform.crc32 offset)) :=
  replayAdd_alone ((Record.event_has ..).trans hpart) hpending (if_neg htype) hq

/-- `c` is `b` after the records of `rs`, the first of which starts at `offset`, were all added. -/
structure AllAdded (crc32 : Bytes → UInt32) (b : Binlog) (offset : Nat) (rs : List LogRecord)
    (c : Binlog) : Prop where
  inv : Inv c.processor
  live : c.processor.live = b.processor.live ++ decodeFrom crc32 offset rs
  /-- No slots but those of the records are new. -/
  keys : (c.processor.ids.map slotKey).Sublist
    (b.processor.ids.map slotKey ++ rs.map fun r => slotKey (r.id * 2))
  lastId : c.processor.lastId = (rs.getLast?.map (·.id)).getD b.processor.lastId
  pending : c.pendingEvents = []
  encryption : c.encryption = b.encryption
  same : SameFile b c

variable (platform) in
/-- **Records in the order of their slots are all added**, whatever flags they carry. -/
theorem replay_plain (offset : Nat) (hinv : Inv b.processor) (hpending : b.pendingEvents = [])
    (hpw : b.encryption.wrongPassword = false) (hplain : ∀ r ∈ rs, Plain r)
    (hsorted : rs.Pairwise fun x y => slotKey (x.id * 2) < slotKey (y.id * 2))
    (habove : ∀ id ∈ b.processor.ids, ∀ r ∈ rs, slotKey id < slotKey (r.id * 2)) :
    ∃ c, replay platform b (decodeFrom platform.crc32 offset rs) = some c ∧
      AllAdded platform.crc32 b offset rs c := by
  induction rs generalizing b offset with
  | nil =>
    refine ⟨b, rfl, hinv, (append_nil _).symm, ?_, rfl, hpending, rfl, .refl b⟩
    rw [map_nil, append_nil]
  | cons r rs ih =>
    have hr := hplain r mem_cons_self
    rw [pairwise_cons] at hsorted
    have hbelow : KeysBelow b.processor (r.event platform.crc32 (offset + r.rawSize)) :=
      fun id hid => habove id hid r mem_cons_self
    have htype : ¬ (r.event platform.crc32 (offset + r.rawSize)).type < 0 := hr.1
    obtain ⟨_, happly, hout⟩ := hinv.apply_add htype hbelow
    obtain ⟨q, hq, hout⟩ := hout.doEvent happly
    have hadd := replayAdd_ok platform (ne_aesCtrEncryption hr.1) hr.2 hpending hq
    let d : Binlog := ({ b with processor := q, pendingEvents := [] } : Binlog).countEvent
      (r.event platform.crc32 (offset + r.rawSize))
    have hkeys : ∀ id ∈ q.ids, ∀ r' ∈ rs, slotKey id < slotKey (r'.id * 2) := by
      intro id hid r' hr'
      rcases mem_append.mp (hout.keys.subset (mem_map_of_mem hid)) with hold | hnew
      · obtain ⟨id', hid', heq⟩ := mem_map.mp hold
        rw [← heq]
        exact habove id' hid' r' (mem_cons_of_mem _ hr')
      · rw [mem_singleton.mp hnew]
        exact hsorted.1 r' hr'
    obtain ⟨c, hc, hadded⟩ := ih (b := d) (offset + r.rawSize)
      hout.inv rfl hpw (forall_mem_cons.1 hplain).2 hsorted.2 hkeys
    refine ⟨c, ?_, hadded.inv, ?_, ?_, ?_, hadded.pending, hadded.encryption,
      hadded.same.file, hadded.same.buffer, hadded.same.state, hadded.same.lastId⟩
    · rw [decodeFrom, replay, hadd]
      show (if b.encryption.wrongPassword then none else replay platform d _) = _
      rw [hpw]
      exact hc
    · rw [hadded.live]
      show q.live ++ _ = _
      rw [hout.live, append_assoc]
      rfl
    · refine hadded.keys.trans ?_
      rw [map_cons, ← singleton_append, ← append_assoc]
      exact hout.keys.append (List.Sublist.refl _)
    · rw [hadded.lastId]
      cases rs with
      | nil => exact hout.lastId
      | cons r' rs =>
        rfl

/-- What opening a file of such records gives. -/
structure Opened (crc32 : Bytes → UInt32) (rs : List LogRecord) (b : Binlog) : Prop where
  state : b.state = .run
  pending : b.pendingEvents = []
  key : b.encryption.dbKey = .empty
  inv : Inv b.processor
  live : b.processor.live = decodeFrom crc32 0 rs
  lastId_eq : b.lastId = b.processor.lastId

theorem waitingAfter_parts (h : ∀ r ∈ rs, r.has .part = false) : waitingAfter [] rs = [] := by
  induction rs with
  | nil => rfl
  | cons r rs ih =>
    have hnext : nextWaiting [] r = [] := by
      rw [nextWaiting, h r mem_cons_self]
      rfl
    rw [waitingAfter, foldl_cons, hnext]
    exact ih (forall_mem_cons.1 h).2

/-- `init` is content with the key: it need not regenerate the file for it. -/
def Encryption.Recognised (e : Encryption) : Prop :=
  ((!e.dbKey.isEmpty && !e.dbKeyUsed) || (e.dbKey.isEmpty && e.encryptionType ≠ .none)) = false

/-- A log that was loaded and needed no other key is open. -/
theorem init_of_load {file : Bytes}
    (hload : (new file dbKey oldDbKey).loadBinlog platform = some (b, events))
    (hpw : b.encryption.wrongPassword = false) (hkey : b.encryption.Recognised) :
    init platform entropy file dbKey oldDbKey
      = some (.ok ({ b with lastId := b.processor.lastId }, events)) := by
  rw [init, hload]
  dsimp only [bind_eq_bind, bind_some]
  rw [if_neg (by simp [hpw])]
  rw [show ((!b.encryption.dbKey.isEmpty && !b.encryption.dbKeyUsed) ||
    (b.encryption.dbKey.isEmpty && b.encryption.encryptionType ≠ .none)) = false from hkey]
  simp

/-- **A log whose records replay, and of which no event waits, loads to what was replayed.** -/
theorem load_images
    (hreplay : replay platform (new (images platform.crc32 rs) dbKey oldDbKey).startLoad
      (decodeFrom platform.crc32 0 rs) = some c)
    (hpw : c.encryption.wrongPassword = false) (hwaiting : waitingAfter [] rs = []) :
    (new (images platform.crc32 rs) dbKey oldDbKey).loadBinlog platform
        = some ({ c with state := .run, buffer := [] }, c.processor.live) ∧
      c.file = images platform.crc32 rs := by
  have hreplayed := (Replayed.start platform (images platform.crc32 rs) dbKey oldDbKey).replay rs
    hreplay
  rw [hwaiting, nil_append] at hreplayed
  have hfile : c.file = images platform.crc32 rs := (replay_sameFile hreplay).file
  have hsize : c.fdSize = c.file.length := by
    rw [hfile, ← hreplayed.size]
    rfl
  have hoffset : c.processor.offset = c.fdSize := hreplayed.sound.offset
  refine ⟨?_, hfile⟩
  have hkeep : c.truncateToOffset = c := if_neg (by rw [hoffset, hsize, not_not])
  rw [loadBinlog_images hreplay hpw, finishLoad, hreplayed.sound.inv.forEach_eq, hkeep]
  exact if_pos hoffset.symm

variable (platform) in
/-- **A file of plain records in the order of their slots opens to exactly these.** -/
theorem init_images (rs : List LogRecord) (hplain : ∀ r ∈ rs, Plain r)
    (hsorted : rs.Pairwise fun x y => slotKey (x.id * 2) < slotKey (y.id * 2)) (entropy : Entropy) :
    ∃ b, init platform entropy (images platform.crc32 rs) .empty .empty
        = some (.ok (b, decodeFrom platform.crc32 0 rs)) ∧ Opened platform.crc32 rs b := by
  obtain ⟨c, hc, hinv, hlive, _, _, hpending, henc, _⟩ := replay_plain platform
    (b := (new (images platform.crc32 rs) .empty .empty).startLoad) 0 inv_empty rfl rfl
    hplain hsorted
      (nofun)
  obtain ⟨hload, _⟩ := load_images hc (by rw [henc]; rfl)
    (waitingAfter_parts fun r hr => (hplain r hr).2)
  have hkey : c.encryption.Recognised := by
    rw [henc]
    rfl
  rw [hlive] at hload
  exact ⟨{ c with state := .run, buffer := [], lastId := c.processor.lastId },
    init_of_load hload (by rw [henc]; rfl) hkey,
    rfl, hpending, by rw [henc]; rfl, hinv, hlive, rfl⟩

/-! ## Appending -/

/-- A running log writes the event and its index takes it. -/
theorem doEvent_run (hstate : b.state = .run) (h : b.doEvent platform event = some c) :
    ∃ q, b.processor.doEvent event = some (.ok q) ∧
      c = ({ b with buffer := b.buffer ++ event.rawEvent, processor := q } : Binlog).countEvent
        event := by
  obtain ⟨b1, h1, h⟩ := bind_eq_some_iff.mp h
  obtain ⟨b2, h2, h3⟩ := bind_eq_some_iff.mp h
  have hb1 : b1 = { b with buffer := b.buffer ++ event.rawEvent } := by
    rw [writeEvent, if_pos (.inl hstate)] at h1
    split at h1
    · exact (Option.some.inj h1).symm
    · cases h1
  have hb2 : b2 = b1 := by
    unfold keyEvent at h2
    split at h2
    · -- an encryption event stops a running log
      obtain ⟨encryption, _, h2⟩ := bind_eq_some_iff.mp h2
      rw [if_neg (by simp [hb1, hstate]), if_neg (by simp [hb1, hstate])] at h2
      cases h2
    · exact (Option.some.inj h2).symm
  subst hb2 hb1
  rw [indexEvent, if_neg (by simp [hstate])] at h3
  split at h3
  · cases h3
  · rename_i q hq
    exact ⟨q, hq, (Option.some.inj h3).symm⟩
  · rw [if_neg (by simp [hstate])] at h3
    cases h3

/-- Where nothing waits, a whole event is taken at once. -/
theorem doAddEvent_eq (hpending : b.pendingEvents = []) (hpart : event.has .part = false) :
    b.doAddEvent platform event = b.doEvent platform event := by
  rw [doAddEvent, hpart, hpending]
  show doEvent platform { b with pendingEvents := [] } event = _
  rw [← hpending]

/-- The event that `add`, `rewrite` and `erase` make of their arguments, and what becomes of it. -/
theorem append_eq_some (h : b.append platform entropy r.id r.type r.flags r.data = some c) :
    r.rawSize % 4 = 0 ∧ ∃ d, doAddEvent platform { b with lastId := b.lastId + 1 }
        (r.event platform.crc32 0) = some d ∧
      d.lazyFlush.regenerateIfNeeded platform entropy = some c := by
  obtain ⟨raw, hraw, h⟩ := bind_eq_some_iff.mp h
  have hsize : r.rawSize < 0x80000000 := by
    unfold createRaw at hraw
    split at hraw
    · assumption
    · cases hraw
  rw [Record.createRaw_eq platform.crc32 hsize] at hraw
  cases hraw
  rw [addRawEvent, Record.init_image platform.crc32 hsize] at h
  dsimp only at h
  unfold addEvent at h
  split at h
  · cases h
  rename_i halign
  have halign : r.rawSize % 4 = 0 := by
    have heq : (r.event platform.crc32 0).size.toNat = r.rawSize :=
      Record.toNat_ofNat_rawSize (by omega)
    rw [heq] at halign
    omega
  obtain ⟨d, hd, h⟩ := bind_eq_some_iff.mp h
  exact ⟨halign, d, hd, h⟩

/-- The same read forwards, for an image. -/
theorem addRawEvent_eq (hsize : r.rawSize < 0x80000000) (halign : r.rawSize % 4 = 0)
    (hd : b.doAddEvent platform (r.event platform.crc32 0) = some d) :
    b.addRawEvent platform entropy (r.image platform.crc32)
      = d.lazyFlush.regenerateIfNeeded platform entropy := by
  have heq : (r.event platform.crc32 0).size.toNat = r.rawSize :=
    Record.toNat_ofNat_rawSize (by omega)
  rw [addRawEvent, Record.init_image platform.crc32 hsize]
  show addEvent platform entropy _ _ = _
  rw [addEvent, heq, if_neg (by omega), hd]
  rfl

theorem append_eq (hsize : r.rawSize < 0x80000000) :
    b.append platform entropy r.id r.type r.flags r.data
      = addRawEvent platform entropy { b with lastId := b.lastId + 1 }
        (r.image platform.crc32) := by
  rw [append, Record.createRaw_eq platform.crc32 hsize]
  rfl

theorem doEvent_run_ok (hstate : b.state = .run) (hw : Written platform.crc32 event)
    (htype : event.type ≠ aesCtrEncryption.toInt32)
    (hq : b.processor.doEvent event = some (.ok q)) :
    b.doEvent platform event
      = some (({ b with buffer := b.buffer ++ event.rawEvent, processor := q } : Binlog).countEvent
        event) := by
  rw [doEvent, writeEvent, if_pos (.inl hstate), hw.validate]
  simp only [bind_eq_bind, bind_some]
  rw [keyEvent, if_neg htype, bind_some, indexEvent, if_neg (by simp [hstate]), hq]

/-- Flushing only moves bytes from the buffer to the file. -/
theorem lazyFlush_eq (b : Binlog) : ∃ file buffer, b.lazyFlush = { b with file, buffer } ∧
    file ++ buffer = b.file ++ b.buffer := by
  unfold lazyFlush
  split
  · unfold flush
    split
    · exact ⟨_, _, rfl, rfl⟩
    · exact ⟨_, _, rfl, append_nil _⟩
  · exact ⟨b.file, b.buffer, rfl, rfl⟩

/-- The log right after an event was appended and before it may be regenerated. -/
structure Appended (crc32 : Bytes → UInt32) (b : Binlog) (r : Record) (q : BinlogEventsProcessor)
    (d : Binlog) : Prop where
  state : d.state = .run
  pending : d.pendingEvents = []
  processor : d.processor = q
  encryption : d.encryption = b.encryption
  size : d.fdSize = b.fdSize + r.rawSize
  written : d.file ++ d.buffer = b.file ++ b.buffer ++ r.image crc32

variable (entropy) in
/-- **An event the index takes is appended.** -/
theorem addRawEvent_run_ok (hstate : b.state = .run) (hpending : b.pendingEvents = [])
    (hsize : r.rawSize < 0x80000000) (halign : r.rawSize % 4 = 0) (hpart : r.has .part = false)
    (htype : r.type ≠ aesCtrEncryption.toInt32)
    (hq : b.processor.doEvent (r.event platform.crc32 0) = some (.ok q)) :
    ∃ d, b.addRawEvent platform entropy (r.image platform.crc32)
        = d.regenerateIfNeeded platform entropy ∧ Appended platform.crc32 b r q d := by
  have hadd := (doAddEvent_eq hpending
    ((Record.event_has platform.crc32 r 0 .part).trans hpart)).trans
    (doEvent_run_ok hstate ⟨r, hsize, rfl, rfl⟩ htype hq)
  obtain ⟨file, buffer, hflush, hwritten⟩ := lazyFlush_eq (({ b with
    buffer := b.buffer ++ r.image platform.crc32, processor := q } : Binlog).countEvent
      (r.event platform.crc32 0))
  refine ⟨_, addRawEvent_eq hsize halign hadd, ?_⟩
  show Appended platform.crc32 b r q (lazyFlush (countEvent { b with
    buffer := b.buffer ++ r.image platform.crc32, processor := q } (r.event platform.crc32 0)))
  rw [hflush]
  refine ⟨hstate, hpending, rfl, rfl, ?_, ?_⟩
  · show b.fdSize + (r.image platform.crc32).length = _
    rw [Record.length_image]
  · rw [hwritten, append_assoc]
    rfl

/-- The event still is what its image says, and its image is a plain record. -/
structure StoredAs (crc32 : Bytes → UInt32) (event : BinlogEvent) (r : LogRecord) : Prop where
  raw : event.rawEvent = r.image crc32
  size : event.size = UInt32.ofNat r.rawSize
  id : event.id = r.id
  type : event.type = r.type
  data : event.data = r.data
  plain : Plain r

theorem StoredAs.dropFlag {r : LogRecord} (h : StoredAs crc32 event r) (flag : Flags) :
    StoredAs crc32 (event.dropFlag flag) r :=
  ⟨h.raw, h.size, h.id, h.type, h.data, h.plain⟩

theorem writable_of_stored (h : ∀ e ∈ events, ∃ r, StoredAs crc32 e r) :
    ∀ e ∈ events, Written crc32 e ∧ e.type ≠ aesCtrEncryption.toInt32 := by
  intro e he
  obtain ⟨r, hr⟩ := h e he
  exact ⟨⟨r.toRecord, r.rawSize_lt, hr.raw, hr.size⟩, hr.type ▸ ne_aesCtrEncryption hr.plain.1⟩

/-- An event that the reader will take back can be written out when the index has taken it. -/
theorem stored_doEvent {p : BinlogEventsProcessor} {r : LogRecord} {offset : Nat} (hinv : Inv p)
    (hstored : ∀ e ∈ p.live, ∃ r, StoredAs crc32 e r) (hpart : r.has .part = false)
    (hrewrite : r.has .rewrite = true → ¬ r.type < 0 ∨ r.type = empty.toInt32)
    (hq : p.doEvent (r.event crc32 offset) = some (.ok q)) :
    ∀ e ∈ q.live, ∃ r, StoredAs crc32 e r := by
  have hself : ¬ r.type < 0 → StoredAs crc32 (r.event crc32 offset) r := fun htype =>
    ⟨rfl, rfl, rfl, rfl, rfl, htype, hpart⟩
  refine hinv.doEvent_all hq hstored (fun htype => ⟨r, hself htype⟩) fun hflag hempty => ?_
  exact ⟨r, (hself ((hrewrite hflag).resolve_right hempty)).dropFlag _⟩

variable (platform) in
/-- A running log without a key, whose live events can all be written out and read back. -/
structure Running (b : Binlog) : Prop where
  state : b.state = .run
  pending : b.pendingEvents = []
  key : b.encryption.dbKey = .empty
  inv : Inv b.processor
  stored : ∀ e ∈ b.processor.live, ∃ r, StoredAs platform.crc32 e r

section

variable (h : Running platform b)
include h

/-- What flushing may change does not matter to it. -/
theorem Running.congr (hstate : c.state = b.state) (hpending : c.pendingEvents = b.pendingEvents)
    (hkey : c.encryption.dbKey = b.encryption.dbKey) (hproc : c.processor = b.processor) :
    Running platform c :=
  ⟨hstate.trans h.state, hpending.trans h.pending, hkey.trans h.key, by rw [hproc]; exact h.inv,
    by rw [hproc]; exact h.stored⟩

theorem Running.lazyFlush : Running platform b.lazyFlush := by
  obtain ⟨file, buffer, heq, _⟩ := lazyFlush_eq b
  rw [heq]
  exact h.congr rfl rfl rfl rfl

theorem Running.doReindex (hc : b.doReindex platform entropy = some c) : Running platform c := by
  have hreg := doReindex_regenerated h.inv hc
  obtain ⟨c', hc', henc, _⟩ := doReindex_plain h.state h.key h.inv
    (writable_of_stored h.stored) entropy
  obtain rfl := Option.some.inj (hc.symm.trans hc')
  exact h.congr (hreg.state.trans h.state.symm) hreg.pending (by rw [henc]) hreg.processor

theorem Running.regenerate (hc : b.regenerateIfNeeded platform entropy = some c) :
    Running platform c := by
  unfold regenerateIfNeeded at hc
  split at hc
  · exact h.doReindex hc
  · cases hc
    exact h

theorem Running.doAddEvent {r : LogRecord} (hpart : r.has .part = false)
    (hrewrite : r.has .rewrite = true → ¬ r.type < 0 ∨ r.type = empty.toInt32)
    (hc : b.doAddEvent platform (r.event platform.crc32 0) = some c) : Running platform c := by
  rw [doAddEvent_eq h.pending ((Record.event_has platform.crc32 r.toRecord 0 _).trans hpart)] at hc
  obtain ⟨q, hq, rfl⟩ := doEvent_run h.state hc
  exact ⟨h.state, h.pending, h.key, (h.inv.doEvent hq).1,
    stored_doEvent h.inv h.stored hpart hrewrite hq⟩

/-- **Every append keeps the log running**, if its event is one the reader will take back. -/
theorem Running.append (hsize : r.rawSize ≤ maxSize) (hpart : r.has .part = false)
    (hrewrite : r.has .rewrite = true → ¬ r.type < 0 ∨ r.type = empty.toInt32)
    (hc : b.append platform entropy r.id r.type r.flags r.data = some c) : Running platform c := by
  obtain ⟨halign, d, hd, hc⟩ := append_eq_some hc
  have hb : Running platform { b with lastId := b.lastId + 1 } := h.congr rfl rfl rfl rfl
  exact (hb.doAddEvent (r := ⟨r, halign, hsize⟩) hpart hrewrite hd).lazyFlush.regenerate hc

end

/-! ## A regenerated log means the same -/

/-- What `for_each` shows of an event: its id, type and data. -/
def content (event : BinlogEvent) : UInt64 × Int32 × Bytes := (event.id, event.type, event.data)

theorem exists_records (h : ∀ e ∈ events, ∃ r, StoredAs crc32 e r) :
    ∃ rs, List.Forall₂ (StoredAs crc32) events rs := by
  induction events with
  | nil => exact ⟨[], .nil⟩
  | cons e es ih =>
    obtain ⟨r, hr⟩ := h e mem_cons_self
    obtain ⟨rs, hrs⟩ := ih (forall_mem_cons.1 h).2
    exact ⟨r :: rs, .cons hr hrs⟩

/-- The records behind a list of stored events. -/
theorem stored_records (h : List.Forall₂ (StoredAs crc32) events rs) (offset : Nat) :
    events.flatMap (·.rawEvent) = images crc32 rs ∧ (∀ r ∈ rs, Plain r) ∧
      rs.map (·.id) = events.map (·.id) ∧
      (decodeFrom crc32 offset rs).map content = events.map content := by
  induction h generalizing offset with
  | nil => exact ⟨rfl, forall_mem_nil _, rfl, rfl⟩
  | @cons e r es rs her _ ih =>
    obtain ⟨hraw, hplain, hids, hcontent⟩ := ih (offset + r.rawSize)
    refine ⟨?_, ?_, ?_, ?_⟩
    · rw [flatMap_cons, images_cons, hraw, her.raw]
    · intro x hx
      rcases mem_cons.mp hx with rfl | hx
      · exact her.plain
      · exact hplain x hx
    · rw [map_cons, map_cons, hids, her.id]
    · rw [decodeFrom, map_cons, map_cons, hcontent, content, content, her.id, her.type, her.data]
      rfl

theorem mem_decodeFrom {offset : Nat} (h : event ∈ decodeFrom crc32 offset rs) :
    ∃ r ∈ rs, ∃ n, event = r.event crc32 n := by
  induction rs generalizing offset with
  | nil => cases h
  | cons r rs ih =>
    rcases mem_cons.mp h with rfl | h
    · exact ⟨r, mem_cons_self, _, rfl⟩
    · obtain ⟨x, hx, n, hn⟩ := ih h
      exact ⟨x, mem_cons_of_mem _ hx, n, hn⟩

theorem Opened.running (h : Opened platform.crc32 rs b) (hplain : ∀ r ∈ rs, Plain r) :
    Running platform b := by
  refine ⟨h.state, h.pending, h.key, h.inv, fun e he => ?_⟩
  rw [h.live] at he
  obtain ⟨r, hr, n, rfl⟩ := mem_decodeFrom he
  exact ⟨r, rfl, rfl, rfl, rfl, rfl, hplain r hr⟩

/-- The ids of the live events are in the order of the slots. -/
theorem Inv.stored_sorted {p : BinlogEventsProcessor} (h : Inv p)
    (hrs : List.Forall₂ (StoredAs crc32) p.live rs) :
    rs.Pairwise fun x y => slotKey (x.id * 2) < slotKey (y.id * 2) := by
  have hlive : (p.live.map (·.id)).Pairwise fun x y => slotKey (x * 2) < slotKey (y * 2) :=
    pairwise_map.mpr h.live_sorted
  rw [← (stored_records hrs 0).2.2.1, pairwise_map] at hlive
  exact hlive

/-- **Regenerating and reopening keeps ids, types, data and their order.** -/
theorem Running.reopen (h : Running platform b) (entropy entropy' : Entropy) :
    ∃ c d events, b.doReindex platform entropy = some c ∧
      c.file = b.processor.live.flatMap (·.rawEvent) ∧
      init platform entropy' c.file .empty .empty = some (.ok (d, events)) ∧
      d.processor.live.map content = b.processor.live.map content ∧
      d.lastId = d.processor.lastId ∧ Running platform d := by
  obtain ⟨c, hc, _, hfile⟩ :=
    doReindex_plain h.state h.key h.inv (writable_of_stored h.stored) entropy
  obtain ⟨rs, hrs⟩ := exists_records h.stored
  obtain ⟨hraw, hplain, _, hcontent⟩ := stored_records hrs 0
  obtain ⟨d, hd, hopened⟩ := init_images platform rs hplain (h.inv.stored_sorted hrs) entropy'
  refine ⟨c, d, _, hc, hfile, by rw [hfile, hraw]; exact hd, ?_, hopened.lastId_eq,
    hopened.running hplain⟩
  rw [hopened.live, hcontent]

/-- The states of an unencrypted log. Rewrites keep to types of events (or erase), and no image is
larger than the reader takes. -/
inductive Reachable (platform : Platform) : Binlog → Prop where
  | opened {b : Binlog} {entropy : Entropy} {events : List BinlogEvent} :
      init platform entropy [] .empty .empty = some (.ok (b, events)) → Reachable platform b
  | add {b c : Binlog} {entropy : Entropy} {type : Int32} {data : Bytes} :
      Reachable platform b → data.length + minSize ≤ maxSize →
      b.add platform entropy type data = some c → Reachable platform c
  | rewrite {b c : Binlog} {entropy : Entropy} {id : UInt64} {type : Int32} {data : Bytes} :
      Reachable platform b → data.length + minSize ≤ maxSize →
      ¬ type < 0 ∨ type = ServiceTypes.empty.toInt32 →
      b.rewrite platform entropy id type data = some c → Reachable platform c
  | erase {b c : Binlog} {entropy : Entropy} {id : UInt64} :
      Reachable platform b → b.erase platform entropy id = some c → Reachable platform c
  | reindex {b c : Binlog} {entropy : Entropy} :
      Reachable platform b → b.doReindex platform entropy = some c → Reachable platform c
  | reload {b c d : Binlog} {entropy entropy' : Entropy} {events : List BinlogEvent} :
      Reachable platform b → b.doReindex platform entropy = some c →
      init platform entropy' c.file .empty .empty = some (.ok (d, events)) → Reachable platform d

theorem has_zero (h : r.flags = 0) (flag : Flags) : r.has flag = false := by
  rw [Record.has, h]
  cases flag <;> decide

theorem has_part_of_rewrite (h : r.flags = Flags.rewrite.toInt32) : r.has .part = false := by
  rw [Record.has, h]
  decide

theorem Reachable.running (h : Reachable platform b) : Running platform b := by
  induction h with
  | @opened b entropy events hinit =>
    obtain ⟨b', hb', hopened⟩ := init_images platform [] (forall_mem_nil _) .nil
      entropy
    cases Option.some.inj (hinit.symm.trans hb')
    exact hopened.running nofun
  | @add b c entropy type data _ hsize hadd ih =>
    exact ih.append (r := ⟨_, type, 0, data⟩) hsize (has_zero rfl _)
      (fun h => absurd h (by rw [has_zero rfl]; simp)) hadd
  | @rewrite b c entropy id type data _ hsize htype hrewrite ih =>
    exact ih.append (r := ⟨id, type, Flags.rewrite.toInt32, data⟩) hsize (has_part_of_rewrite rfl)
      (fun _ => htype) hrewrite
  | @erase b c entropy id _ herase ih =>
    exact ih.append (r := ⟨id, empty.toInt32, Flags.rewrite.toInt32, []⟩)
      (show 0 + minSize ≤ maxSize by decide) (has_part_of_rewrite rfl) (fun _ => .inr rfl) herase
  | reindex _ hc ih => exact ih.doReindex hc
  | @reload b c d entropy entropy' events _ hc hd ih =>
    obtain ⟨c', d', events', hc', _, hd', _, _, hrun⟩ := ih.reopen entropy entropy'
    obtain rfl := Option.some.inj (hc.symm.trans hc')
    cases Option.some.inj (hd.symm.trans hd')
    exact hrun

/-- **A regenerated file opens to the same ids, types and data in the same order**, and the log that
opens is again one of which all this holds, with its own last id to continue from. -/
theorem regeneration_preserves {platform : Platform} {b : Binlog} (h : Reachable platform b)
    (entropy entropy' : Entropy) :
    ∃ c d events before after, b.doReindex platform entropy = some c ∧
      b.processor.forEach = some before ∧ c.file = before.flatMap (·.rawEvent) ∧
      init platform entropy' c.file .empty .empty = some (.ok (d, events)) ∧
      d.processor.forEach = some after ∧ after.map content = before.map content ∧
      d.lastId = d.processor.lastId ∧ Reachable platform d := by
  obtain ⟨c, d, events, hc, hfile, hd, hcontent, hlast, hrun⟩ := h.running.reopen entropy entropy'
  exact ⟨c, d, events, _, _, hc, h.running.inv.forEach_eq, hfile, hd, hrun.inv.forEach_eq, hcontent,
    hlast, .reload h hc hd⟩

/-- A platform whose checksum and hashes are all zero, for runs on fixed inputs. -/
def Platform.zeros : Platform where
  crc32 _ := 0
  pbkdf2Sha256 _ _ _ := replicate 32 0
  hmacSha256 _ _ := replicate 32 0
  zerosOnDisk _ _ := false
  length_pbkdf2Sha256 _ _ _ := rfl
  length_hmacSha256 _ _ := rfl

def Entropy.zeros : Entropy := ⟨replicate 32 0, replicate 16 0, rfl, rfl⟩

/-- The log that opens from an unencrypted file, if one does. -/
def openPlain (file : Bytes) : Option Binlog :=
  match init .zeros .zeros file .empty .empty with
  | some (.ok (b, _)) => some b
  | _ => none

/-- What a log shows, before and after it is regenerated and reopened. -/
def beforeAndAfter (b : Binlog) :
    Option (List (UInt64 × Int32 × Bytes) × List (UInt64 × Int32 × Bytes)) := do
  let before ← b.processor.forEach
  let c ← b.doReindex .zeros .zeros
  let d ← openPlain c.file
  let after ← d.processor.forEach
  return (before.map content, after.map content)

/-- A file that starts with an image above `MAX_SIZE` opens empty. -/
theorem init_oversized (hbig : maxSize < r.rawSize) (hlt : r.rawSize < 0x80000000)
    (platform : Platform) (entropy : Entropy) :
    ∃ d, init platform entropy (r.image platform.crc32) .empty .empty = some (.ok (d, [])) ∧
      d.processor = .empty := by
  have hlen := Record.length_image platform.crc32 r
  have hmax : 0x1000000 < r.rawSize := hbig
  have htake : ((r.image platform.crc32).take 4096).length = 4096 := by
    rw [length_take]
    omega
  have hword : lengthWord ((r.image platform.crc32).take 4096) = r.rawSize :=
    lengthWord_image platform.crc32 hlt (by rw [htake]; omega)
      (( take_prefix _ _).trans (prefix_append _ []))
  let b := (new (r.image platform.crc32) .empty .empty).startLoad
  -- the first pass reads 4096 bytes, the second one rejects the length
  have hloop : loadLoop platform (loadFuel (r.image platform.crc32)) b
      (.start [] false (r.image platform.crc32).length) (r.image platform.crc32) = some b := by
    obtain ⟨fuel, hfuel⟩ : ∃ fuel, loadFuel (r.image platform.crc32) = fuel + 1 + 1 :=
      ⟨2 * r.rawSize - 1, by rw [loadFuel]; omega⟩
    have hneed : (BinlogReader.start [] false (r.image platform.crc32).length).readNext
        platform.crc32 = (.need 4, .start [] false (r.image platform.crc32).length) := rfl
    rw [hfuel, loadLoop, hneed]
    dsimp only
    rw [loadLoop, BinlogReader.readNext]
    simp only [BinlogReader.start, nil_append, show max 4 4096 = 4096 from rfl]
    rw [hword, if_pos hbig]
    rfl
  have hload : (new (r.image platform.crc32) .empty .empty).loadBinlog platform
      = some ({ b.truncateToOffset with state := .run, buffer := [] }, []) := by
    rw [loadBinlog]
    show (loadLoop platform (loadFuel (r.image platform.crc32)) (startLoad _)
      (.start [] false (r.image platform.crc32).length) (r.image platform.crc32)).bind _ = _
    rw [hloop]
    rfl
  have hkeep : b.truncateToOffset.processor = .empty ∧
      b.truncateToOffset.encryption = b.encryption := by
    unfold truncateToOffset
    split <;> exact ⟨rfl, rfl⟩
  have hkey : b.truncateToOffset.encryption.Recognised := by
    rfl
  exact ⟨_, init_of_load hload (by rw [hkeep.2]; rfl) hkey, hkeep.1⟩

/-- The first event of a log, however large it is. -/
structure First (crc32 : Bytes → UInt32) (r : Record) (d : Binlog) : Prop where
  state : d.state = .run
  key : d.encryption.dbKey = .empty
  inv : Inv d.processor
  live : d.processor.live = [r.event crc32 0]
  written : d.file ++ d.buffer = r.image crc32

variable (platform) in
/-- It is taken, and the file is not regenerated for it. -/
theorem addRawEvent_first (hlt : r.rawSize < 0x80000000) (halign : r.rawSize % 4 = 0)
    (htype : ¬ r.type < 0) (hflags : r.flags = 0) (lastId : UInt64) (entropy : Entropy) :
    ∃ d, addRawEvent platform entropy { new [] .empty .empty with state := .run, lastId }
        (r.image platform.crc32) = some d ∧ First platform.crc32 r d := by
  let event := r.event platform.crc32 0
  have hplain : ¬ event.type < 0 := htype
  obtain ⟨_, happly, hout⟩ := inv_empty.apply_add hplain fun id hid => absurd hid (by
    simp [BinlogEventsProcessor.empty])
  obtain ⟨q, hq, hout⟩ := hout.doEvent happly
  have hlive : q.live = [event] := hout.live
  obtain ⟨d, hadd, hd⟩ := addRawEvent_run_ok entropy
    (b := { new [] .empty .empty with state := .run, lastId }) rfl rfl hlt halign
    (has_zero hflags _) (ne_aesCtrEncryption hplain) hq
  -- the file is no larger than the one live event
  have htotal : d.processor.totalRawEventsSize = d.fdSize := by
    rw [hd.processor, hout.inv.raw, hlive, hd.size]
    show ((r.image platform.crc32).length : Int) + 0 = ((0 + r.rawSize : Nat) : Int)
    rw [Record.length_image, zero_add, Int.add_zero]
  have hneed : ∀ minSize rate, ¬ d.needReindex minSize rate := by
    rintro minSize rate ⟨_, h⟩
    have hle := Nat.div_le_self d.fdSize rate
    omega
  have hkeep : d.regenerateIfNeeded platform entropy = some d := if_neg (by simp [hneed])
  exact ⟨d, hadd.trans hkeep, hd.state, by rw [hd.encryption]; rfl,
    by rw [hd.processor]; exact hout.inv, by rw [hd.processor]; exact hlive, hd.written⟩

/-- An event above `MAX_SIZE` is taken by `add` and lost by regenerating and reopening. -/
theorem oversized_lost {data : Bytes} (hbig : maxSize < data.length + minSize)
    (hlt : data.length + minSize < 0x80000000) (halign : (data.length + minSize) % 4 = 0) :
    ∃ b, ((openPlain []).bind fun b => b.add .zeros .zeros 0 data) = some b ∧
      beforeAndAfter b = some ([(1, 0, data)], []) := by
  let r : Record := ⟨1, 0, 0, data⟩
  have hopen : openPlain [] = some { new [] .empty .empty with state := .run } := rfl
  have hplain : ¬ r.type < 0 := show ¬ 0 < 0 by decide
  obtain ⟨d, hadd, hd⟩ := addRawEvent_first .zeros (r := r) hlt halign hplain rfl 1 .zeros
  refine ⟨d, by rw [hopen]; exact (append_eq (r := r) hlt).trans hadd, ?_⟩
  have hw : Written Platform.zeros.crc32 (r.event Platform.zeros.crc32 0) := ⟨r, hlt, rfl, rfl⟩
  obtain ⟨c, hc, _, hfile⟩ := doReindex_plain hd.state hd.key hd.inv (fun e he => by
    rw [hd.live] at he
    rw [mem_singleton.mp he]
    exact ⟨hw, ne_aesCtrEncryption hplain⟩) .zeros
  have himage : c.file = r.image Platform.zeros.crc32 := by
    rw [hfile, hd.live]
    exact append_nil _
  obtain ⟨x, hx, hproc⟩ := init_oversized (r := r) hbig hlt .zeros .zeros
  have hreopen : openPlain c.file = some x := by rw [himage, openPlain, hx]
  rw [beforeAndAfter, hd.inv.forEach_eq, hd.live, hc]
  show ((openPlain c.file).bind fun d => _) = _
  rw [hreopen]
  show (x.processor.forEach).bind _ = _
  rw [hproc]
  rfl

/-- An event rewritten to a negative type is lost, and so is one that is too big. -/
theorem regeneration_loses :
    (((openPlain []).bind fun b => b.add .zeros .zeros 0 []).bind fun b =>
      b.rewrite .zeros .zeros 1 (-1) []).bind beforeAndAfter = some ([(1, -1, [])], []) ∧
    ∃ b, ((openPlain []).bind fun b => b.add .zeros .zeros 0 (replicate maxSize 0)) = some b ∧
      beforeAndAfter b = some ([(1, 0, replicate maxSize 0)], []) := by
  refine ⟨by rfl, oversized_lost ?_ ?_ ?_⟩ <;> rw [length_replicate] <;> decide

/-- A log in which one event was rewritten and another one erased. -/
def usedLog : Option Binlog := do
  let b ← openPlain []
  let b ← b.add .zeros .zeros 5 [1, 2, 3, 4]
  let b ← b.add .zeros .zeros 6 []
  let b ← b.rewrite .zeros .zeros 1 7 [5, 6, 7, 8]
  b.erase .zeros .zeros 2

theorem regeneration_preserves_used : ∃ b, usedLog = some b ∧
    ∃ c d events before after, b.doReindex .zeros .zeros = some c ∧
      b.processor.forEach = some before ∧ c.file = before.flatMap (·.rawEvent) ∧
      init .zeros .zeros c.file .empty .empty = some (.ok (d, events)) ∧
      d.processor.forEach = some after ∧ after.map content = before.map content ∧
      d.lastId = d.processor.lastId ∧ Reachable .zeros d := by
  obtain ⟨b, hb⟩ : ∃ b, usedLog = some b := Option.isSome_iff_exists.mp (by decide)
  have h := hb
  unfold usedLog at h
  obtain ⟨b0, h0, h⟩ := bind_eq_some_iff.mp h
  obtain ⟨b1, h1, h⟩ := bind_eq_some_iff.mp h
  obtain ⟨b2, h2, h⟩ := bind_eq_some_iff.mp h
  obtain ⟨b3, h3, h4⟩ := bind_eq_some_iff.mp h
  have hopen : init .zeros .zeros [] .empty .empty = some (.ok (b0, [])) := by
    cases h0
    rfl
  refine ⟨b, hb, regeneration_preserves (.erase (.rewrite (.add (.add (.opened hopen) ?_ h1) ?_ h2)
    ?_ (.inl ?_) h3) h4) .zeros .zeros⟩ <;> decide

end Tdlib.Binlog
