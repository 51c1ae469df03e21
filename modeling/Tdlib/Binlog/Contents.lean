import Tdlib.Binlog.Index
import Tdlib.Binlog.Keys

/-!
# What a log holds

To its user a log is a list of contents: the id, type and data of each live event,
in the order of the ids. `Holds` says this of a running log twice over: the index
in memory shows the contents, and so does the index that a load makes of the bytes
written so far. Each accepted event changes both in the same way, and a
regeneration in between changes neither.

The two can differ in all that is not contents. After a regeneration the bytes
no longer tell which events were rewritten or which ids are dead.
-/

namespace Tdlib.Binlog

open Lib Tl BinlogEvent List ServiceTypes

variable {platform : Platform} {dbKey : DbKey} {b c : Binlog} {p q : BinlogEventsProcessor}

abbrev Content := UInt64 × Int32 × Bytes

variable {m : List Content} {bound : Nat}

namespace Record

def content (r : Record) : Content := (r.id, r.type, r.data)

/-- What the record does to the contents of a log. -/
def applied (r : Record) (m : List Content) : List Content :=
  if r.has .rewrite then
    if r.type = ServiceTypes.empty.toInt32 then m.filter fun c => c.1 ≠ r.id
    else m.map fun c => if c.1 = r.id then r.content else c
  else m ++ [r.content]

/-- A log with these contents, which has used the ids below `bound`, has a place for the record. -/
structure Fits (m : List Content) (bound : Nat) (r : Record) : Prop where
  part : r.has .part = false
  /-- A rewrite names what is there. -/
  names : r.has .rewrite = true → (∃ c ∈ m, c.1 = r.id) ∧
    (¬ r.type < 0 ∨ r.type = ServiceTypes.empty.toInt32)
  /-- An addition has the next id. -/
  fresh : r.has .rewrite = false → ¬ r.type < 0 ∧ r.id.toNat = bound

end Record

/-! ## The index -/

/-- The index shows the contents `m`, and has used no id from `bound` on. -/
structure Shown (crc32 : Bytes → UInt32) (m : List Content) (bound : Nat)
    (p : BinlogEventsProcessor) : Prop where
  inv : Inv p
  live : p.live.map content = m
  ids : ∀ c ∈ m, c.1.toNat < bound
  /-- No slot is beyond the last id. -/
  last : ∀ id ∈ p.ids, slotKey id ≤ p.lastId.toNat
  lastId : p.lastId.toNat < bound
  /-- What is live can be written out and read back. -/
  stored : ∀ e ∈ p.live, ∃ r, StoredAs crc32 e r

variable {crc32 : Bytes → UInt32}

namespace Shown

theorem ids_live (h : Shown crc32 m bound p) : ∀ e ∈ p.live, e.id.toNat < bound := fun e he =>
  h.ids (content e) (by rw [← h.live]; exact mem_map_of_mem he)

variable {event : BinlogEvent}

/-- Slots are told apart by their ids alone. -/
theorem sameSlot_iff (h : Shown crc32 m bound p) (hb : bound ≤ 0x8000000000000000)
    (hid : event.id.toNat < bound) : ∀ e ∈ p.live, SameSlot e event ↔ e.id = event.id := fun e he =>
  Binlog.sameSlot_iff (lt_of_lt_of_le (h.ids_live e he) hb) (lt_of_lt_of_le hid hb)

theorem names (h : Shown crc32 m bound p) {c : Content} (hc : c ∈ m) (hid : c.1 = event.id) :
    Names p event := by
  rw [← h.live] at hc
  obtain ⟨e, he, rfl⟩ := mem_map.mp hc
  exact ⟨e, he, congrArg (· * 2) hid⟩

/-- An event that adds no slot leaves the ids where they were. -/
theorem last_of_outcome (h : Shown crc32 m bound p) {live : List BinlogEvent}
    (hq : Outcome event live p.lastId (p.ids.map slotKey) q) :
    ∀ id ∈ q.ids, slotKey id ≤ q.lastId.toNat := by
  intro id hid
  rw [hq.lastId]
  obtain ⟨id', hid', heq⟩ := mem_map.mp (hq.keys.subset (mem_map_of_mem hid))
  rw [← heq]
  exact h.last id' hid'

end Shown

variable {live : List BinlogEvent}

section

variable {event : BinlogEvent} (h : ∀ e ∈ live, SameSlot e event ↔ e.id = event.id)
include h

theorem map_content_rewritten :
    (rewritten event live).map content
      = (live.map content).map fun c => if c.1 = event.id then content event else c := by
  rw [rewritten, map_map, map_map]
  refine map_congr_left fun e he => ?_
  by_cases hid : e.id = event.id
  · have hsame := (h e he).mpr hid
    simp only [Function.comp, content, hid, if_pos hsame]
    rfl
  · have hsame : ¬ SameSlot e event := fun hs => hid ((h e he).mp hs)
    simp only [Function.comp, if_neg hsame]
    exact (if_neg hid).symm

theorem map_content_erased :
    (erased event live).map content = (live.map content).filter fun c => c.1 ≠ event.id := by
  rw [filter_map]
  congr 1
  exact filter_congr fun e he => decide_eq_decide.mpr (not_congr (h e he))

end

namespace Shown

variable {r : LogRecord}

section

variable (h : Shown crc32 m bound p)
include h

theorem stored_of_doEvent (hr : r.Fits m bound) {offset : Nat}
    (hq : p.doEvent (r.event crc32 offset) = some (.ok q)) :
    ∀ e ∈ q.live, ∃ r, StoredAs crc32 e r :=
  stored_doEvent h.inv h.stored hr.part (fun hflag => (hr.names hflag).2) hq

/-- A rewrite changes what it names, and an erasure takes it away. -/
theorem rewrite (hb : bound ≤ 0x8000000000000000) (hr : r.Fits m bound)
    (hflag : r.has .rewrite = true) (offset : Nat) :
    ∃ q, p.doEvent (r.event crc32 offset) = some (.ok q) ∧
      Shown crc32 (r.applied m) (bound + 1) q := by
  obtain ⟨⟨c, hc, hid⟩, _⟩ := hr.names hflag
  have hlt : r.id.toNat < bound := by
    rw [← hid]
    exact h.ids c hc
  have hnames : Names p (r.event crc32 offset) := h.names hc hid
  have hflag' : (r.event crc32 offset).has .rewrite = true := hflag
  have hsame : ∀ e ∈ p.live, SameSlot e (r.event crc32 offset) ↔ e.id = r.id :=
    h.sameSlot_iff hb hlt
  -- what the two have in common
  have hshown : ∀ {live : List BinlogEvent},
      (∃ q, p.applyEvent (r.event crc32 offset) = .ok q ∧
        Outcome (r.event crc32 offset) live p.lastId (p.ids.map slotKey) q) →
      live.map content = r.applied m → (∀ c ∈ r.applied m, c.1.toNat < bound) →
      ∃ q, p.doEvent (r.event crc32 offset) = some (.ok q) ∧
        Shown crc32 (r.applied m) (bound + 1) q := by
    rintro live ⟨_, happly, hout⟩ hlive hids
    obtain ⟨q, hq, hout⟩ := hout.doEvent happly
    have hlast := h.lastId
    exact ⟨q, hq, hout.inv, by rw [hout.live, hlive], fun c hc => Nat.lt_succ_of_lt (hids c hc),
      h.last_of_outcome hout, by rw [hout.lastId]; omega, h.stored_of_doEvent hr hq⟩
  rw [Record.applied, if_pos hflag] at hshown ⊢
  by_cases hempty : r.type = empty.toInt32
  · rw [if_pos hempty] at hshown ⊢
    refine hshown (h.inv.apply_erase hflag' hempty hnames) ?_ fun c hc =>
      h.ids c (mem_filter.mp hc).1
    rw [map_content_erased hsame, h.live]
    rfl
  · rw [if_neg hempty] at hshown ⊢
    refine hshown (h.inv.apply_rewrite hflag' hempty hnames) ?_ fun c hc => ?_
    · rw [map_content_rewritten hsame, h.live]
      rfl
    obtain ⟨c', hc', rfl⟩ := mem_map.mp hc
    split
    · exact hlt
    · exact h.ids c' hc'

theorem add (hb : bound < 0x8000000000000000) (hr : r.Fits m bound)
    (hflag : r.has .rewrite = false) (offset : Nat) :
    ∃ q, p.doEvent (r.event crc32 offset) = some (.ok q) ∧
      Shown crc32 (r.applied m) (bound + 1) q := by
  obtain ⟨htype, hid⟩ := hr.fresh hflag
  have hslot : slotKey (r.id * 2) = r.id.toNat := slotKey_double_of_lt (by omega)
  have hlast := h.lastId
  have hbelow : KeysBelow p (r.event crc32 offset) := fun id hmem => by
    have := h.last id hmem
    show slotKey id < slotKey (r.id * 2)
    omega
  have htype' : ¬ (r.event crc32 offset).type < 0 := htype
  obtain ⟨_, happly, hout⟩ := h.inv.apply_add htype' hbelow
  obtain ⟨q, hq, hout⟩ := hout.doEvent happly
  have hm : r.applied m = m ++ [r.content] := by
    rw [Record.applied, hflag]
    rfl
  have hqlast : q.lastId = r.id := hout.lastId
  refine ⟨q, hq, hout.inv, ?_, fun c hc => ?_, fun id hmem => ?_, by rw [hqlast]; omega,
    h.stored_of_doEvent hr hq⟩
  · rw [hout.live, map_append, h.live, hm]
    rfl
  · rw [hm] at hc
    rcases mem_append.mp hc with hc | hc
    · have := h.ids c hc
      omega
    · rw [mem_singleton.mp hc]
      show r.id.toNat < bound + 1
      omega
  · rw [hqlast]
    rcases mem_append.mp (hout.keys.subset (mem_map_of_mem hmem)) with hold | hnew
    · obtain ⟨id', hid', heq⟩ := mem_map.mp hold
      have := h.last id' hid'
      omega
    · have hkey : slotKey id = slotKey (r.id * 2) := mem_singleton.mp hnew
      omega

/-- **An event that fits is taken**, and changes the contents as its record says. -/
theorem doEvent (hb : bound < 0x8000000000000000) (hr : r.Fits m bound) (offset : Nat) :
    ∃ q, p.doEvent (r.event crc32 offset) = some (.ok q) ∧
      Shown crc32 (r.applied m) (bound + 1) q := by
  by_cases hflag : r.has .rewrite = true
  · exact h.rewrite (le_of_lt hb) hr hflag offset
  · exact h.add hb hr (by simpa using hflag) offset

end

end Shown

theorem Record.Fits.type_ne {r : Record} (hr : r.Fits m bound) :
    r.type ≠ aesCtrEncryption.toInt32 := by
  by_cases hflag : r.has .rewrite = true
  · rcases (hr.names hflag).2 with htype | htype
    · exact ne_aesCtrEncryption htype
    · rw [htype]
      decide
  · exact ne_aesCtrEncryption (hr.fresh (by simpa using hflag)).1

/-! ## The bytes -/

variable (platform) in
/-- Loading `bytes` gives an index that shows `m`. -/
structure LoadsAs (dbKey : DbKey) (m : List Content) (bound : Nat) (rs : List LogRecord)
    (c : Binlog) : Prop where
  replayed : replay platform (new [] dbKey .empty).startLoad
    (decodeFrom platform.crc32 0 rs) = some c
  pending : c.pendingEvents = []
  parts : ∀ r ∈ rs, r.has .part = false
  keys : Keyed platform dbKey c.encryption
  recognised : c.encryption.Recognised
  shown : Shown platform.crc32 m bound c.processor

variable {rs : List LogRecord}

theorem LoadsAs.append (h : LoadsAs platform dbKey m bound rs c) (hb : bound < 0x8000000000000000)
    {r : LogRecord} (hr : r.Fits m bound) :
    ∃ d, LoadsAs platform dbKey (r.applied m) (bound + 1) (rs ++ [r]) d := by
  obtain ⟨q, hq, hshown⟩ :=
    h.shown.doEvent hb hr (0 + (images platform.crc32 rs).length + r.rawSize)
  have hadd := replayAdd_ok platform hr.type_ne hr.part h.pending hq
  refine ⟨({ c with processor := q, pendingEvents := [] } : Binlog).countEvent
    (r.event platform.crc32
    (0 + (images platform.crc32 rs).length + r.rawSize)), ?_, rfl, ?_, h.keys, h.recognised, hshown⟩
  · rw [decodeFrom_append, replay_append, h.replayed, Option.bind_some, decodeFrom, replay, hadd]
    show (if c.encryption.wrongPassword then none else _) = _
    rw [h.keys.password]
    rfl
  · intro x hx
    rcases mem_append.mp hx with hx | hx
    · exact h.parts x hx
    · rw [mem_singleton.mp hx]
      exact hr.part

/-- The last of the records has the largest id. -/
theorem Shown.le_last (h : Shown crc32 m bound p) (hb : bound ≤ 0x8000000000000000)
    (hrs : List.Forall₂ (StoredAs crc32) p.live rs) {r : LogRecord} (hr : r ∈ rs) (id : UInt64) :
    slotKey (r.id * 2) ≤ ((rs.getLast?.map (·.id)).getD id).toNat ∧
      ((rs.getLast?.map (·.id)).getD id).toNat < bound := by
  have hids : ∀ x ∈ rs, x.id.toNat < bound := by
    intro x hx
    have hmem : x.id ∈ rs.map (·.id) := mem_map_of_mem hx
    rw [(stored_records hrs 0).2.2.1] at hmem
    obtain ⟨e, he, heq⟩ := mem_map.mp hmem
    rw [← heq]
    exact h.ids_live e he
  have hkey : ∀ x ∈ rs, slotKey (x.id * 2) = x.id.toNat := fun x hx =>
    slotKey_double_of_lt (lt_of_lt_of_le (hids x hx) hb)
  rcases eq_nil_or_concat rs with rfl | ⟨init, last, heq⟩
  · cases hr
  rw [concat_eq_append] at heq
  have hsorted := h.inv.stored_sorted hrs
  rw [heq, pairwise_append] at hsorted
  have hlast : (rs.getLast?.map (·.id)).getD id = last.id := by rw [heq]; simp
  have hmem : last ∈ rs := by rw [heq]; simp
  rw [hlast, hkey r hr]
  refine ⟨?_, hids last hmem⟩
  rw [heq] at hr
  rcases mem_append.mp hr with hinit | hinit
  · have := hsorted.2.2 r hinit last (by simp)
    rw [hkey last hmem, hkey r (by rw [heq]; exact hr)] at this
    omega
  · rw [mem_singleton.mp hinit]

/-- **A regenerated file loads as what was live.** -/
theorem Shown.regenerated (h : Shown platform.crc32 m bound p) (hb : bound ≤ 0x8000000000000000)
    {header : List LogRecord} (hheader : Header platform dbKey header) :
    ∃ rs c, images platform.crc32 header ++ p.live.flatMap (·.rawEvent) = images platform.crc32 rs ∧
      LoadsAs platform dbKey m bound rs c := by
  obtain ⟨rs, hrs⟩ := exists_records h.stored
  obtain ⟨hraw, hplain, hids, _⟩ := stored_records hrs 0
  obtain ⟨c0, hc0, hfresh⟩ := hheader.replay []
  have hnone : c0.processor.live = [] := by
    rw [BinlogEventsProcessor.live, hfresh.ids]
    rfl
  obtain ⟨c, hc, hadded⟩ := replay_plain platform (0 + (images platform.crc32 header).length)
    hfresh.inv hfresh.pending hfresh.keys.password hplain (h.inv.stored_sorted hrs)
    (fun id hid => absurd hid (by simp [hfresh.ids]))
  have hlive : c.processor.live
      = decodeFrom platform.crc32 (0 + (images platform.crc32 header).length) rs := by
    rw [hadded.live, hnone, nil_append]
  have hlastId : c.processor.lastId = (rs.getLast?.map (·.id)).getD 0 := by
    rw [hadded.lastId, hfresh.lastId]
  refine ⟨header ++ rs, c, by rw [images_append, hraw], ?_, hadded.pending, ?_, ?_, ?_, ?_⟩
  · rw [decodeFrom_append, replay_append, hc0]
    exact hc
  · intro x hx
    rcases mem_append.mp hx with hx | hx
    · obtain ⟨_, rfl⟩ | ⟨r, _, _, _, rfl, _, hflags, _⟩ := hheader
      · cases hx
      · rw [mem_singleton.mp hx]
        exact has_zero hflags _
    · exact (hplain x hx).2
  · rw [hadded.encryption]
    exact hfresh.keys
  · rw [hadded.encryption]
    exact hfresh.recognised
  refine ⟨hadded.inv, ?_, h.ids, fun id hid => ?_, ?_, fun e he => ?_⟩
  · rw [hlive, (stored_records hrs _).2.2.2, h.live]
  · have hmem := hadded.keys.subset (mem_map_of_mem hid)
    rw [hfresh.ids] at hmem
    obtain ⟨r, hr, heq⟩ := mem_map.mp hmem
    rw [← heq, hlastId]
    exact (h.le_last hb hrs hr 0).1
  · rw [hlastId]
    cases rs with
    | nil => exact lt_of_le_of_lt (Nat.zero_le _) h.lastId
    | cons r rs => exact (h.le_last hb hrs mem_cons_self 0).2
  · rw [hlive] at he
    obtain ⟨r, hr, n, rfl⟩ := mem_decodeFrom he
    exact ⟨r, rfl, rfl, rfl, rfl, rfl, hplain r hr⟩

/-! ## The log -/

variable (platform) in
/-- **The running log holds `m`**: its index shows it, and so will a load of its bytes. -/
structure Holds (dbKey : DbKey) (m : List Content) (bound : Nat) (b : Binlog) : Prop where
  state : b.state = .run
  pending : b.pendingEvents = []
  keys : Keyed platform dbKey b.encryption
  shown : Shown platform.crc32 m bound b.processor
  /-- The file and the buffer together load as the same contents. -/
  bytes : ∃ rs c, b.file ++ b.buffer = images platform.crc32 rs ∧
    LoadsAs platform dbKey m bound rs c

/-- **A regenerated log holds what its index shows**, whatever its old file was. -/
theorem holds_of_doReindex (hstate : b.state = .run) (hpending : b.pendingEvents = [])
    (hkeys : Keyed platform dbKey b.encryption) (hshown : Shown platform.crc32 m bound b.processor)
    (hb : bound ≤ 0x8000000000000000) (entropy : Entropy) :
    ∃ c, b.doReindex platform entropy = some c ∧ Holds platform dbKey m bound c ∧
      c.lastId = b.lastId := by
  obtain ⟨header, c, hheader, hc, hkeyed, hfile⟩ :=
    doReindex_keyed hstate hkeys hshown.inv (writable_of_stored hshown.stored) entropy
  have hreg := doReindex_regenerated hshown.inv hc
  obtain ⟨rs, d, hbytes, hloads⟩ := hshown.regenerated hb hheader
  refine ⟨c, hc, ⟨hreg.state, hreg.pending.trans hpending, hkeyed, ?_, rs, d, ?_, hloads⟩,
    hreg.lastId⟩
  · rw [hreg.processor]
    exact hshown
  · rw [hreg.buffer, append_nil, hfile, hbytes]

namespace Holds

theorem flush (h : Holds platform dbKey m bound b) : Holds platform dbKey m bound b.flush := by
  obtain ⟨rs, c, hbytes, hloads⟩ := h.bytes
  rw [flush_eq (by simp [h.state])]
  exact ⟨h.state, h.pending, h.keys, h.shown, rs, c, (append_nil _).trans hbytes, hloads⟩

theorem regenerate (h : Holds platform dbKey m bound b) (hb : bound ≤ 0x8000000000000000)
    (entropy : Entropy) :
    ∃ c, b.regenerateIfNeeded platform entropy = some c ∧ Holds platform dbKey m bound c := by
  unfold regenerateIfNeeded
  split
  · obtain ⟨c, hc, hholds, _⟩ := holds_of_doReindex h.state h.pending h.keys h.shown hb entropy
    exact ⟨c, hc, hholds⟩
  · exact ⟨b, rfl, h⟩

/-- **An image that fits is appended**, whether or not this makes the log regenerate its file. -/
theorem addRawEvent (h : Holds platform dbKey m bound b) (hb : bound < 0x8000000000000000)
    {r : LogRecord} (hr : r.Fits m bound) (entropy : Entropy) :
    ∃ c, b.addRawEvent platform entropy (r.image platform.crc32) = some c ∧
      Holds platform dbKey (r.applied m) (bound + 1) c := by
  obtain ⟨q, hq, hshown⟩ := h.shown.doEvent hb hr 0
  obtain ⟨d, hadd, hd⟩ := addRawEvent_run_ok entropy h.state h.pending r.rawSize_lt r.aligned
    hr.part hr.type_ne hq
  obtain ⟨rs, x, hbytes, hloads⟩ := h.bytes
  obtain ⟨y, hy⟩ := hloads.append hb hr
  have hholds : Holds platform dbKey (r.applied m) (bound + 1) d := by
    refine ⟨hd.state, hd.pending, ?_, ?_, rs ++ [r], y, ?_, hy⟩
    · rw [hd.encryption]
      exact h.keys
    · rw [hd.processor]
      exact hshown
    · rw [hd.written, hbytes, images_append]
      exact congrArg (_ ++ ·) (append_nil _).symm
  obtain ⟨c, hc, hholds⟩ := hholds.regenerate hb entropy
  exact ⟨c, hadd.trans hc, hholds⟩

end Holds

/-- The ids that an index shows are not above its last one. -/
theorem Shown.tighten (h : Shown crc32 m bound p) (hb : bound ≤ 0x8000000000000000) :
    Shown crc32 m (p.lastId.toNat + 1) p := by
  refine ⟨h.inv, h.live, fun c hc => ?_, h.last, Nat.lt_succ_self _, h.stored⟩
  rw [← h.live] at hc
  obtain ⟨e, he, rfl⟩ := mem_map.mp hc
  have hlast := h.last _ (double_mem_of_live h.inv.slots he)
  rw [slotKey_double_of_lt (lt_of_lt_of_le (h.ids_live e he) hb)] at hlast
  exact Nat.lt_succ_of_le hlast

/-- **Bytes that load as `m` open to a log that holds `m`**, and hand its contents to the
callback. -/
theorem LoadsAs.init (h : LoadsAs platform dbKey m bound rs c) (hb : bound ≤ 0x8000000000000000)
    (entropy : Entropy) :
    ∃ d events, init platform entropy (images platform.crc32 rs) dbKey .empty
        = some (.ok (d, events)) ∧ events.map content = m ∧
      Holds platform dbKey m (d.lastId.toNat + 1) d ∧ d.lastId.toNat < bound := by
  have hreplay := replay_file platform (new [] dbKey .empty).startLoad
    (decodeFrom platform.crc32 0 rs) (images platform.crc32 rs)
  rw [h.replayed] at hreplay
  obtain ⟨hload, hfile⟩ := load_images hreplay h.keys.password (waitingAfter_parts h.parts)
  refine ⟨_, _, init_of_load hload h.keys.password h.recognised, h.shown.live, ?_, h.shown.lastId⟩
  have hshown := h.shown.tighten hb
  exact ⟨rfl, h.pending, h.keys, hshown, rs, c, append_nil _, h.replayed, h.pending, h.parts,
    h.keys, h.recognised, hshown⟩

theorem shown_empty (crc32 : Bytes → UInt32) : Shown crc32 [] 1 .empty :=
  ⟨inv_empty, rfl, forall_mem_nil _, fun id hid => absurd hid (by
    simp [BinlogEventsProcessor.empty]), Nat.zero_lt_one, fun e he => absurd he (by
    simp [BinlogEventsProcessor.empty, BinlogEventsProcessor.live, liveEvents])⟩

/-- **A log opened on an empty file holds nothing.** If there is a key it writes its header. -/
theorem init_empty (platform : Platform) (entropy : Entropy) (dbKey : DbKey) :
    ∃ d, init platform entropy [] dbKey .empty = some (.ok (d, [])) ∧
      Holds platform dbKey [] 1 d ∧ d.lastId = 0 := by
  let b : Binlog := { new [] dbKey .empty with state := .run }
  have hload : (new [] dbKey .empty).loadBinlog platform = some (b, []) := rfl
  have hkeys : Keyed platform dbKey b.encryption := keyed_new platform [] dbKey .empty
  by_cases hempty : dbKey = .empty
  · subst hempty
    refine ⟨b, init_of_load hload rfl rfl, ⟨rfl, rfl, hkeys, shown_empty _, [], _, rfl, rfl, rfl,
      forall_mem_nil _, hkeys, rfl, shown_empty _⟩, rfl⟩
  obtain ⟨d, hd, hholds, hlast⟩ := holds_of_doReindex (b := b) rfl rfl hkeys
    (shown_empty platform.crc32) (by omega) entropy
  refine ⟨d, ?_, hholds, hlast⟩
  have hne : dbKey.isEmpty = false := by
    cases dbKey with
    | empty => exact absurd rfl hempty
    | rawKey data | password data => rfl
  rw [init, hload]
  dsimp only [Option.bind_eq_bind, Option.bind_some]
  rw [if_neg (by simp [b, new]), if_pos (by simp [b, new, hne])]
  show (Binlog.doReindex platform entropy b).bind _ = _
  rw [hd]
  rfl

end Tdlib.Binlog
