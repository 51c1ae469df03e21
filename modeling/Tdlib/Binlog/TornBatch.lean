import Tdlib.Binlog.Reindex

/-!
# A torn batch

Events that carry the `Partial` flag wait in `pending_events_` for the last event
of their batch. When a crash cuts a batch short, the file ends with such events
and no last one. Loading truncates them away from the file, and they are not in
the index; but they are still waiting, and the object does not forget them. The
next event that is appended, whatever it is, ends the batch: all of it is written
and applied (`append_applies_batch`).

So the batch stays out exactly as long as nothing is appended.
-/

namespace Tdlib.Binlog

open Lib Tl BinlogEvent List

variable {platform : Platform} {entropy : Entropy} {b c : Binlog} {events : List BinlogEvent}

/-! ## Calls -/

/-- A call on an open log, with the random bytes it may use. -/
inductive Call where
  | add (entropy : Entropy) (type : Int32) (data : Bytes)
  | rewrite (entropy : Entropy) (id : UInt64) (type : Int32) (data : Bytes)
  | erase (entropy : Entropy) (id : UInt64)
  | flush
  | changeKey (entropy : Entropy) (key : DbKey)

/-- Calls that append nothing. -/
def Call.Quiet : Call → Prop
  | .flush | .changeKey .. => True
  | _ => False

def step (platform : Platform) (b : Binlog) : Call → Option Binlog
  | .add entropy type data => b.add platform entropy type data
  | .rewrite entropy logEventId type data => b.rewrite platform entropy logEventId type data
  | .erase entropy logEventId => b.erase platform entropy logEventId
  | .flush => some b.flush
  | .changeKey entropy key => b.changeKey platform entropy key

def runCalls (platform : Platform) (b : Binlog) (calls : List Call) : Option Binlog :=
  calls.foldlM (step platform) b

/-! ## Loading a torn file -/

/-- The waiting events of a batch that starts at `offset`. -/
def batch (crc32 : Bytes → UInt32) (offset : Nat) (torn : List LogRecord) : List BinlogEvent :=
  (decodeFrom crc32 offset torn).map (·.dropFlag .part)

/-- Partial events are put aside. -/
theorem replay_torn {torn : List LogRecord} (htorn : ∀ r ∈ torn, r.has .part = true)
    (hpw : b.encryption.wrongPassword = false) (offset : Nat) :
    replay platform b (decodeFrom platform.crc32 offset torn)
      = some { b with pendingEvents := b.pendingEvents ++ batch platform.crc32 offset torn } := by
  induction torn generalizing b offset with
  | nil =>
    show some b = some { b with pendingEvents := b.pendingEvents ++ [] }
    rw [append_nil]
  | cons r torn ih =>
    have hr := htorn r mem_cons_self
    have hadd : replayAdd platform b (r.event platform.crc32 (offset + r.rawSize)) = some { b with
        pendingEvents := b.pendingEvents ++
          [(r.event platform.crc32 (offset + r.rawSize)).dropFlag .part] } :=
      if_pos ((Record.event_has platform.crc32 r.toRecord _ .part).trans hr)
    rw [decodeFrom, replay, hadd]
    show (if b.encryption.wrongPassword then none else replay platform _ _) = _
    rw [hpw]
    refine (ih (b := { b with pendingEvents := b.pendingEvents ++ _ })
      (forall_mem_cons.1 htorn).2 hpw _).trans ?_
    rw [append_assoc]
    rfl

/-- A batch is complete when its last event is not partial. -/
def Complete (good : List LogRecord) : Prop := ∀ r ∈ good.getLast?, r.has .part = false

theorem waitingAfter_complete {good : List LogRecord} (h : Complete good) :
    waitingAfter [] good = [] := by
  rcases eq_nil_or_concat good with rfl | ⟨rs, r, rfl⟩
  · rfl
  · rw [concat_eq_append]
    have hr := h r (by simp)
    rw [waitingAfter, foldl_append, foldl_cons, nextWaiting, hr]
    rfl

variable (platform) in
/-- The torn file: a log without faults, then at least one event of a batch and not its last. -/
structure Torn (good torn : List LogRecord) (dbKey oldDbKey : DbKey) (r : Binlog) : Prop where
  /-- The log without the batch replays to `r`. -/
  replayed : replay platform (new (images platform.crc32 good) dbKey oldDbKey).startLoad
    (decodeFrom platform.crc32 0 good) = some r
  complete : Complete good
  parts : ∀ x ∈ torn, x.has .part = true
  nonempty : torn ≠ []

variable {good torn : List LogRecord} {dbKey oldDbKey : DbKey} {r : Binlog}

section

variable (h : Torn platform good torn dbKey oldDbKey r)
include h

theorem Torn.replayed_log : Replayed platform good [] r := by
  have := (Replayed.start platform (images platform.crc32 good) dbKey oldDbKey).replay good
    h.replayed
  rwa [waitingAfter_complete h.complete] at this

theorem Torn.wrongPassword :
    r.encryption.wrongPassword = false := replay_wrongPassword rfl h.replayed

theorem Torn.offset :
    r.fdSize = (images platform.crc32 good).length ∧ r.processor.offset = r.fdSize :=
  ⟨h.replayed_log.size, h.replayed_log.sound.offset⟩

/-- The file without the batch opens to `r`. -/
theorem Torn.load_good :
    (new (images platform.crc32 good) dbKey oldDbKey).loadBinlog platform
      = some ({ r with state := .run, buffer := [] }, r.processor.live) :=
  (load_images h.replayed h.wrongPassword (waitingAfter_complete h.complete)).1

/-- **The torn file opens to the same index and the same file, with the batch waiting.** -/
theorem Torn.load_torn :
    (new (images platform.crc32 (good ++ torn)) dbKey oldDbKey).loadBinlog platform
      = some ({ r with
          state := .run, buffer := []
          encryption := { r.encryption with dbKeyUsed := false }
          pendingEvents := batch platform.crc32 (images platform.crc32 good).length torn },
        r.processor.live) := by
  have hpending : r.pendingEvents = [] := h.replayed_log.pending
  have hfile : r.file = images platform.crc32 good := (replay_sameFile h.replayed).file
  have hreplay :
      replay platform (new (images platform.crc32 (good ++ torn)) dbKey oldDbKey).startLoad
      (decodeFrom platform.crc32 0 (good ++ torn)) = some { r with
        file := images platform.crc32 (good ++ torn)
        pendingEvents := batch platform.crc32 (images platform.crc32 good).length torn } := by
    have hgood := replay_file platform (new (images platform.crc32 good) dbKey oldDbKey).startLoad
      (decodeFrom platform.crc32 0 good) (images platform.crc32 (good ++ torn))
    rw [h.replayed] at hgood
    rw [decodeFrom_append, replay_append]
    show (replay platform { (new (images platform.crc32 good) dbKey oldDbKey).startLoad with
      file := images platform.crc32 (good ++ torn) } _).bind _ = _
    rw [hgood, zero_add]
    show replay platform { r with file := images platform.crc32 (good ++ torn) } _ = _
    rw [replay_torn (b := { r with file := images platform.crc32 (good ++ torn) }) h.parts
      h.wrongPassword]
    rw [hpending]
    rfl
  have hlen : r.processor.offset ≠ (images platform.crc32 (good ++ torn)).length := by
    obtain ⟨x, xs, rfl⟩ := exists_cons_of_ne_nil h.nonempty
    have := LogRecord.minSize_le x
    rw [h.offset.2, h.offset.1, images_append, images_cons, length_append, length_append,
      LogRecord.length_image]
    omega
  have hcut : (images platform.crc32 (good ++ torn)).take r.processor.offset = r.file := by
    rw [hfile, images_append, h.offset.2, h.offset.1, take_left' rfl]
  rw [loadBinlog_images hreplay h.wrongPassword, finishLoad, h.replayed_log.sound.inv.forEach_eq,
    truncateToOffset, if_pos hlen]
  rw [hcut]
  exact if_pos h.offset.2.symm

end

/-! ## Keeping the batch out -/

variable (platform) in
/-- The batch is neither in the index nor written: the index is that of the file without it, and
the file is that file, or was regenerated from that index. -/
structure KeptOut (good torn : List LogRecord) (r b : Binlog) : Prop where
  state : b.state = .run
  waiting : b.pendingEvents = batch platform.crc32 (images platform.crc32 good).length torn
  processor : b.processor = r.processor
  lastId : b.lastId = r.processor.lastId
  file : b.file ++ b.buffer = images platform.crc32 good ∨
    ∃ header, IsHeader platform header ∧
      b.file ++ b.buffer = header ++ r.processor.live.flatMap (·.rawEvent)

theorem KeptOut.flush (h : KeptOut platform good torn r b) :
    KeptOut platform good torn r b.flush := by
  rw [flush_eq (by simp [h.state])]
  refine ⟨h.state, h.waiting, h.processor, h.lastId, ?_⟩
  rw [append_nil]
  exact h.file

theorem KeptOut.doReindex (h : KeptOut platform good torn r b) (hinv : Inv r.processor)
    {b' : Binlog} (hc : b'.doReindex platform entropy = some c) (hproc : b'.processor = b.processor)
    (hpending : b'.pendingEvents = b.pendingEvents) (hlast : b'.lastId = b.lastId) :
    KeptOut platform good torn r c := by
  rw [h.processor] at hproc
  have hreg := doReindex_regenerated (by rw [hproc]; exact hinv) hc
  obtain ⟨header, hheader, hfile⟩ := hreg.file
  refine ⟨hreg.state, hreg.pending.trans (hpending.trans h.waiting), hreg.processor.trans hproc,
    hreg.lastId.trans (hlast.trans h.lastId), .inr ⟨header, hheader, ?_⟩⟩
  rw [hreg.buffer, append_nil, hfile, hproc]

variable {call : Call}

theorem KeptOut.step (h : KeptOut platform good torn r b) (hinv : Inv r.processor)
    (hquiet : call.Quiet) (hc : b.step platform call = some c) :
    KeptOut platform good torn r c := by
  cases call with
  | add | rewrite | erase => cases hquiet
  | flush =>
    cases hc
    exact h.flush
  | changeKey entropy key =>
    exact h.doReindex hinv hc rfl rfl rfl

/-- The callback sees what the file without the batch holds. -/
theorem Torn.keptOut_init (h : Torn platform good torn dbKey oldDbKey r)
    (hinit : init platform entropy (images platform.crc32 (good ++ torn)) dbKey oldDbKey
      = some (.ok (b, events))) : KeptOut platform good torn r b ∧ events = r.processor.live := by
  have hfile : r.file = images platform.crc32 good := (replay_sameFile h.replayed).file
  rw [init, h.load_torn] at hinit
  dsimp only [Option.bind_eq_bind, Option.bind_some] at hinit
  have hopened : KeptOut platform good torn r { r with
      state := .run, buffer := [], encryption := { r.encryption with dbKeyUsed := false }
      pendingEvents := batch platform.crc32 (images platform.crc32 good).length torn
      lastId := r.processor.lastId } :=
    ⟨rfl, rfl, rfl, rfl, .inl (by rw [← hfile]; exact append_nil _)⟩
  split at hinit
  · cases hinit
  split at hinit
  · obtain ⟨c, hc, hinit⟩ := Option.bind_eq_some_iff.mp hinit
    cases hinit
    exact ⟨hopened.doReindex h.replayed_log.sound.inv hc rfl rfl rfl, rfl⟩
  · cases hinit
    exact ⟨hopened, rfl⟩

/-! ## Letting the batch in -/

theorem addAll_append {p : BinlogEventsProcessor} (as bs : List BinlogEvent) :
    p.addAll (as ++ bs) = (p.addAll as).bind fun q => q.addAll bs := by
  induction as generalizing p with
  | nil => rfl
  | cons e es ih =>
    rw [cons_append, BinlogEventsProcessor.addAll, BinlogEventsProcessor.addAll]
    split
    · exact ih
    · rfl

/-- A running log writes the events it is given and applies them. -/
theorem doEvents_run (hstate : b.state = .run) (h : b.doEvents platform events = some c) :
    c.state = .run ∧ c.file ++ c.buffer = b.file ++ b.buffer ++ events.flatMap (·.rawEvent) ∧
      b.processor.addAll events = some c.processor := by
  induction events generalizing b with
  | nil =>
    cases h
    exact ⟨hstate, (append_nil _).symm, rfl⟩
  | cons e es ih =>
    obtain ⟨d, hd, h⟩ := Option.bind_eq_some_iff.mp h
    obtain ⟨q, hq, heq⟩ := doEvent_run hstate hd
    have hproc : d.processor = q := by rw [heq]; rfl
    have hfile : d.file ++ d.buffer = b.file ++ b.buffer ++ e.rawEvent := by
      rw [heq, append_assoc]
      rfl
    obtain ⟨hc, hwritten, hall⟩ := ih (b := d) (by rw [heq]; exact hstate) h
    refine ⟨hc, ?_, ?_⟩
    · rw [hwritten, hfile, flatMap_cons, append_assoc]
    · rw [BinlogEventsProcessor.addAll, hq, ← hproc]
      exact hall

/-- **Whatever is appended ends the batch**: its events are written and applied in front of it. -/
theorem append_applies_batch {x : Record} (hstate : b.state = .run) (hpart : x.has .part = false)
    (h : b.append platform entropy x.id x.type x.flags x.data = some c) :
    ∃ d : Binlog, d.regenerateIfNeeded platform entropy = some c ∧
      d.file ++ d.buffer = b.file ++ b.buffer ++
        (b.pendingEvents ++ [x.event platform.crc32 0]).flatMap (·.rawEvent) ∧
      b.processor.addAll (b.pendingEvents ++ [x.event platform.crc32 0]) = some d.processor := by
  obtain ⟨_, d, hd, hc⟩ := append_eq_some h
  obtain ⟨file, buffer, hflush, hfile⟩ := lazyFlush_eq d
  rw [hflush] at hc
  refine ⟨_, hc, ?_⟩
  rw [hfile]
  rw [doAddEvent, if_neg (by simp [Record.event_has, hpart])] at hd
  obtain ⟨e, he, hd⟩ := Option.bind_eq_some_iff.mp hd
  obtain ⟨hestate, hwritten, hall⟩ := doEvents_run (b := { b with lastId := b.lastId + 1 })
    hstate he
  obtain ⟨q, hq, rfl⟩ := doEvent_run (b := { e with pendingEvents := [] }) hestate hd
  refine ⟨?_, ?_⟩
  · show e.file ++ (e.buffer ++ _) = _
    rw [← append_assoc, hwritten, flatMap_append, flatMap_singleton, append_assoc]
  · rw [addAll_append, hall, Option.bind_some, BinlogEventsProcessor.addAll, hq]
    rfl

/-- The event that a call appends. -/
def Call.event (crc32 : Bytes → UInt32) (b : Binlog) : Call → Option BinlogEvent
  | .add _ type data => some (Record.event crc32 ⟨b.lastId + 1, type, 0, data⟩ 0)
  | .rewrite _ logEventId type data =>
    some (Record.event crc32 ⟨logEventId, type, Flags.rewrite.toInt32, data⟩ 0)
  | .erase _ logEventId => some (Record.event crc32
      ⟨logEventId, ServiceTypes.empty.toInt32, Flags.rewrite.toInt32, []⟩ 0)
  | .flush | .changeKey .. => none

variable (platform) in
/-- The call writes `waiting` in front of its own event, and the index takes it all. -/
def LetsIn (waiting : List BinlogEvent) (b : Binlog) (call : Call) : Prop :=
  ∃ event entropy d, call.event platform.crc32 b = some event ∧
    b.step platform call = regenerateIfNeeded platform entropy d ∧
    d.file ++ d.buffer = b.file ++ b.buffer ++ (waiting ++ [event]).flatMap (·.rawEvent) ∧
    b.processor.addAll (waiting ++ [event]) = some d.processor

variable (platform) in
/-- Some call of the run lets `waiting` in. -/
def LetIn (waiting : List BinlogEvent) (b : Binlog) (calls : List Call) : Prop :=
  ∃ before call after d, calls = before ++ call :: after ∧ b.runCalls platform before = some d ∧
    LetsIn platform waiting d call

/-- An open log, with `waiting` put aside. -/
structure OpenWith (waiting : List BinlogEvent) (b : Binlog) : Prop where
  state : b.state = .run
  inv : Inv b.processor
  pending : b.pendingEvents = waiting

variable {waiting : List BinlogEvent} {calls : List Call}

theorem OpenWith.doReindex (h : OpenWith waiting b) (hc : b.doReindex platform entropy = some c) :
    OpenWith waiting c := by
  have hreg := doReindex_regenerated h.inv hc
  exact ⟨hreg.state, by rw [hreg.processor]; exact h.inv, hreg.pending.trans h.pending⟩

theorem OpenWith.letsIn {x : Record} (h : OpenWith waiting b) (hpart : x.has .part = false)
    (hevent : call.event platform.crc32 b = some (x.event platform.crc32 0))
    (hstep : b.step platform call = b.append platform entropy x.id x.type x.flags x.data)
    (hc : b.step platform call = some c) : LetsIn platform waiting b call := by
  obtain ⟨d, hd, hwritten, hall⟩ := append_applies_batch h.state hpart (hstep.symm.trans hc)
  rw [h.pending] at hwritten hall
  exact ⟨_, entropy, d, hevent, hc.trans hd.symm, hwritten, hall⟩

/-- A call that appends nothing leaves the batch waiting, any other one lets it in. -/
theorem OpenWith.step (h : OpenWith waiting b) (hc : b.step platform call = some c) :
    call.Quiet ∧ OpenWith waiting c ∨ LetsIn platform waiting b call := by
  cases call with
  | add entropy type data =>
    exact .inr (h.letsIn (x := ⟨b.lastId + 1, type, 0, data⟩) (has_zero rfl _) rfl rfl hc)
  | rewrite entropy logEventId type data =>
    exact .inr (h.letsIn (x := ⟨logEventId, type, Flags.rewrite.toInt32, data⟩)
      (has_part_of_rewrite rfl) rfl rfl hc)
  | erase entropy logEventId =>
    exact .inr (h.letsIn (x := ⟨logEventId, _, Flags.rewrite.toInt32, []⟩)
      (has_part_of_rewrite rfl) rfl rfl hc)
  | flush =>
    cases hc
    rw [flush_eq (by simp [h.state])]
    exact .inl ⟨trivial, h.state, h.inv, h.pending⟩
  | changeKey entropy key =>
    have hb : OpenWith waiting { b with
        encryption := { b.encryption with dbKey := key, aesCtrKeySalt := [] } } :=
      ⟨h.state, h.inv, h.pending⟩
    exact .inl ⟨trivial, hb.doReindex hc⟩

/-- **A run either appends nothing or lets the batch in.** -/
theorem OpenWith.run (h : OpenWith waiting b) (hrun : b.runCalls platform calls = some c) :
    (∀ call ∈ calls, call.Quiet) ∨ LetIn platform waiting b calls := by
  induction calls generalizing b with
  | nil => exact .inl nofun
  | cons call calls ih =>
    obtain ⟨d, hd, hrun⟩ := Option.bind_eq_some_iff.mp hrun
    rcases h.step hd with ⟨hquiet, h'⟩ | hlets
    · rcases ih h' hrun with hall | ⟨before, x, after, e, heq, hbefore, hlets⟩
      · exact .inl (forall_mem_cons.mpr ⟨hquiet, hall⟩)
      · refine .inr ⟨call :: before, x, after, e, by rw [heq]; rfl, ?_, hlets⟩
        rw [runCalls, foldlM_cons, hd]
        exact hbefore
    · exact .inr ⟨[], call, calls, b, rfl, rfl, hlets⟩

theorem LetIn.not_quiet (h : LetIn platform waiting b calls) : ∃ call ∈ calls, ¬ call.Quiet := by
  obtain ⟨before, call, after, d, rfl, _, event, _, _, hevent, _⟩ := h
  refine ⟨call, by simp, fun hquiet => ?_⟩
  cases call with
  | add | rewrite | erase => exact hquiet
  | flush | changeKey => cases hevent

theorem KeptOut.run (h : KeptOut platform good torn r b) (hinv : Inv r.processor)
    (hquiet : ∀ call ∈ calls, call.Quiet) (hrun : b.runCalls platform calls = some c) :
    KeptOut platform good torn r c := by
  induction calls generalizing b with
  | nil =>
    cases hrun
    exact h
  | cons call calls ih =>
    obtain ⟨d, hd, hrun⟩ := Option.bind_eq_some_iff.mp hrun
    exact ih (h.step hinv (hquiet call mem_cons_self) hd)
      (forall_mem_cons.1 hquiet).2 hrun

/-- **The torn batch stays out of the log exactly as long as nothing is appended.** The log opens as
if the batch had never been written. After any calls its index and its file are those of the log
without the batch, and no call has let the batch in, if and only if no call appended an event. -/
theorem torn_batch_kept_out_iff {platform : Platform} {entropy : Entropy}
    {good torn : List LogRecord}
    {dbKey oldDbKey : DbKey} {r b c : Binlog} {events : List BinlogEvent} {calls : List Call}
    (h : Torn platform good torn dbKey oldDbKey r)
    (hinit : init platform entropy (images platform.crc32 (good ++ torn)) dbKey oldDbKey
      = some (.ok (b, events)))
    (hrun : b.runCalls platform calls = some c) :
    (new (images platform.crc32 good) dbKey oldDbKey).loadBinlog platform
        = some ({ r with state := .run, buffer := [] }, events) ∧
      KeptOut platform good torn r b ∧
      (¬ LetIn platform (batch platform.crc32 (images platform.crc32 good).length torn) b calls ∧
          KeptOut platform good torn r c ↔ ∀ call ∈ calls, call.Quiet) := by
  have hinv := h.replayed_log.sound.inv
  obtain ⟨hb, hevents⟩ := h.keptOut_init hinit
  have hopen : OpenWith _ b := ⟨hb.state, by rw [hb.processor]; exact hinv, hb.waiting⟩
  refine ⟨?_, hb, fun hc => (hopen.run hrun).resolve_right hc.1, fun hquiet => ⟨fun hin => ?_, ?_⟩⟩
  · rw [h.load_good, hevents]
  · obtain ⟨call, hcall, hloud⟩ := hin.not_quiet
    exact hloud (hquiet call hcall)
  · exact hb.run hinv hquiet hrun

/-- Two events. -/
def twoEvents : List LogRecord :=
  [⟨⟨1, 0, 0, []⟩, by decide, by decide⟩, ⟨⟨2, 0, 0, []⟩, by decide, by decide⟩]

/-- The first part of a batch, which erases the first of them. -/
def tornErase : List LogRecord :=
  [⟨⟨1, ServiceTypes.empty.toInt32, Flags.rewrite.toInt32 ||| Flags.part.toInt32, []⟩,
    by decide, by decide⟩]

/-- The event that is then added. -/
def thirdEvent : LogRecord := ⟨⟨3, 0, 0, []⟩, by decide, by decide⟩

/-- The ids in the index and the bytes of the log, once the file is opened and an event is added. -/
def afterAdd (file : Bytes) : Option (List UInt64 × Bytes) := do
  let b ← openPlain file
  let c ← b.add .zeros .zeros 0 []
  let events ← c.processor.forEach
  return (events.map (·.id), c.file ++ c.buffer)

/-- Adding an event to the torn log erases the first event; without the batch it stays. -/
theorem torn_erase_applied :
    afterAdd (images Platform.zeros.crc32 (twoEvents ++ tornErase))
        = some ([2, 3], images Platform.zeros.crc32 (twoEvents ++ tornErase ++ [thirdEvent])) ∧
      afterAdd (images Platform.zeros.crc32 twoEvents)
        = some ([1, 2, 3], images Platform.zeros.crc32 (twoEvents ++ [thirdEvent])) := by
  constructor <;> rfl

/-- The torn log is opened and flushed. -/
theorem torn_batch_kept_out_flush : ∃ r b c events,
    Torn .zeros twoEvents tornErase .empty .empty r ∧
      init .zeros .zeros (images Platform.zeros.crc32 (twoEvents ++ tornErase)) .empty .empty
        = some (.ok (b, events)) ∧
      b.runCalls .zeros [.flush] = some c ∧
      (new (images Platform.zeros.crc32 twoEvents) .empty .empty).loadBinlog .zeros
        = some ({ r with state := .run, buffer := [] }, events) ∧
      KeptOut .zeros twoEvents tornErase r b ∧
      (¬ LetIn .zeros (batch Platform.zeros.crc32
          (images Platform.zeros.crc32 twoEvents).length tornErase) b [.flush] ∧
        KeptOut .zeros twoEvents tornErase r c ↔ ∀ call ∈ [Call.flush], call.Quiet) := by
  obtain ⟨r, hr⟩ : ∃ r, replay .zeros (new (images Platform.zeros.crc32 twoEvents) .empty
      .empty).startLoad (decodeFrom Platform.zeros.crc32 0 twoEvents) = some r :=
    Option.isSome_iff_exists.mp (by rfl)
  obtain ⟨b, events, hinit⟩ : ∃ b events, init .zeros .zeros
      (images Platform.zeros.crc32 (twoEvents ++ tornErase)) .empty .empty
        = some (.ok (b, events)) := ⟨_, _, rfl⟩
  have htorn : Torn .zeros twoEvents tornErase .empty .empty r :=
    ⟨hr, by simp [Complete]; decide, by decide, by decide⟩
  exact ⟨r, b, b.flush, events, htorn, hinit, rfl, torn_batch_kept_out_iff htorn hinit rfl⟩

end Tdlib.Binlog
