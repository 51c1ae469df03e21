import Tdlib.Binlog.Contents
import Tdlib.KeyValue.KeyValue

/-!
# What a call does to the map and to the log

Every call comes down to a few operations: a new entry is put, the entry of an id
is changed, the entry of an id is removed. An operation changes the entries of the
map, and its record changes the contents of a log in the same way (`Op.Logged`).

`perform_spec` is all that the rest needs to know of the three calls. The entries
are compared up to their order, since a hash map has none.
-/

namespace Tdlib.KeyValue

open Tl Binlog List

/-! ## Operations -/

inductive Op where
  | put (entry : Entry)
  | change (entry : Entry)
  | remove (id : UInt64)
deriving DecidableEq

/-- The content of a log is the entry. -/
structure Codes (magic : Int32) (content : Content) (entry : Entry) : Prop where
  id : content.1 = entry.id
  type : content.2.1 = magic
  data : storeEvent entry.key entry.value = some content.2.2

/-- Entries with keys and ids of their own, all of them below `n`. -/
structure Distinct (entries : List Entry) (n : Nat) : Prop where
  keys : (entries.map Entry.key).Nodup
  ids : (entries.map Entry.id).Nodup
  bounds : ∀ e ∈ entries, 0 < e.id.toNat ∧ e.id.toNat < n

namespace Op

def apply (entries : List Entry) : Op → List Entry
  | .put entry => entries ++ [entry]
  | .change entry => entries.map fun e => if e.id = entry.id then entry else e
  | .remove id => entries.filter fun e => e.id ≠ id

/-- The operation makes sense for these entries, as the `n`-th one. -/
def Valid (entries : List Entry) (n : Nat) : Op → Prop
  | .put entry => entry.id.toNat = n ∧ entry.key ∉ entries.map Entry.key
  | .change entry => ∃ e ∈ entries, e.id = entry.id ∧ e.key = entry.key
  | .remove id => ∃ e ∈ entries, e.id = id

/-- The record that is logged for the operation. -/
def Logged (magic : Int32) (r : Record) : Op → Prop
  | .put entry => r.flags = 0 ∧ Codes magic r.content entry
  | .change entry => r.flags = Flags.rewrite.toInt32 ∧ Codes magic r.content entry
  | .remove id => r.flags = Flags.rewrite.toInt32 ∧ r.content = (id, ServiceTypes.empty.toInt32, [])

end Op

variable {magic : Int32} {entries : List Entry} {n : Nat} {op : Op} {r : Record}

theorem Distinct.mono {k : Nat} (h : Distinct entries n) (hle : n ≤ k) : Distinct entries k :=
  ⟨h.keys, h.ids, fun e he => ⟨(h.bounds e he).1, lt_of_lt_of_le (h.bounds e he).2 hle⟩⟩

/-- Two entries with one id are one entry, and so are two with one key. -/
theorem Distinct.key_iff_id (h : Distinct entries n) {a b : Entry} (ha : a ∈ entries)
    (hb : b ∈ entries) : a.key = b.key ↔ a.id = b.id := by
  constructor
  · intro heq
    rw [inj_on_of_nodup_map h.keys ha hb heq]
  · intro heq
    rw [inj_on_of_nodup_map h.ids ha hb heq]

/-- **Valid operations keep the entries distinct.** -/
theorem Op.Valid.distinct (hop : op.Valid entries n) (h : Distinct entries n) (hn : 0 < n) :
    Distinct (op.apply entries) (n + 1) := by
  cases op with
  | put entry =>
    obtain ⟨hid, hkey⟩ := hop
    refine ⟨?_, ?_, fun e he => ?_⟩
    · rw [Op.apply, map_append, nodup_append]
      refine ⟨h.keys, nodup_singleton _, fun a ha b hb heq => hkey ?_⟩
      rw [← mem_singleton.mp hb, ← heq]
      exact ha
    · rw [Op.apply, map_append, nodup_append]
      refine ⟨h.ids, nodup_singleton _, fun a ha b hb heq => ?_⟩
      obtain ⟨e, he, rfl⟩ := mem_map.mp ha
      have := (h.bounds e he).2
      rw [heq, mem_singleton.mp hb] at this
      omega
    · rcases mem_append.mp he with he | he
      · have := h.bounds e he
        omega
      · rw [mem_singleton.mp he]
        omega
  | change entry =>
    obtain ⟨x, hx, hid, hkey⟩ := hop
    have hsame : ∀ e ∈ entries, (if e.id = entry.id then entry else e).key = e.key ∧
        (if e.id = entry.id then entry else e).id = e.id := by
      intro e he
      split
      · rename_i heq
        exact ⟨hkey.symm.trans ((h.key_iff_id hx he).mpr (hid.trans heq.symm)), heq.symm⟩
      · exact ⟨rfl, rfl⟩
    refine ⟨?_, ?_, fun e he => ?_⟩
    · have heq : (Op.apply entries (.change entry)).map Entry.key = entries.map Entry.key := by
        rw [Op.apply, map_map]
        exact map_congr_left fun e he => (hsame e he).1
      rw [heq]
      exact h.keys
    · have heq : (Op.apply entries (.change entry)).map Entry.id = entries.map Entry.id := by
        rw [Op.apply, map_map]
        exact map_congr_left fun e he => (hsame e he).2
      rw [heq]
      exact h.ids
    · obtain ⟨e', he', rfl⟩ := mem_map.mp he
      have := h.bounds e' he'
      rw [(hsame e' he').2]
      omega
  | remove id =>
    have hsub : (entries.filter fun e => e.id ≠ id).Sublist entries := filter_sublist
    refine ⟨h.keys.sublist (hsub.map _), h.ids.sublist (hsub.map _), fun e he => ?_⟩
    have := h.bounds e (mem_filter.mp he).1
    omega

variable {m : List Content}

theorem Op.Logged.part (h : op.Logged magic r) : r.has .part = false := by
  cases op with
  | put entry => exact has_zero h.1 _
  | change entry | remove id => exact has_part_of_rewrite h.1

/-- The entry of an id is coded by a content with that id. -/
theorem exists_content (hm : List.Forall₂ (Codes magic) m entries) {e : Entry} (he : e ∈ entries) :
    ∃ c ∈ m, c.1 = e.id := by
  induction hm with
  | nil => cases he
  | @cons c x m entries hcx _ ih =>
    rcases mem_cons.mp he with rfl | he
    · exact ⟨c, mem_cons_self, hcx.id⟩
    · obtain ⟨c', hc', hid⟩ := ih he
      exact ⟨c', mem_cons_of_mem _ hc', hid⟩

theorem has_rewrite (h : r.flags = Flags.rewrite.toInt32) : r.has .rewrite = true := by
  rw [Record.has, h]
  decide

/-- **The record of a valid operation fits the log.** -/
theorem Op.Logged.fits (h : op.Logged magic r) (hmagic : ¬ magic < 0)
    (hm : List.Forall₂ (Codes magic) m entries) (hop : op.Valid entries n) : r.Fits m n := by
  refine ⟨h.part, fun hflag => ?_, fun hflag => ?_⟩
  · cases op with
    | put entry => exact absurd hflag (by simp [has_zero h.1])
    | change entry =>
      obtain ⟨x, hx, hid, _⟩ := hop
      obtain ⟨c, hc, hcid⟩ := exists_content hm hx
      refine ⟨⟨c, hc, hcid.trans (hid.trans h.2.id.symm)⟩, .inl ?_⟩
      rw [show r.type = magic from h.2.type]
      exact hmagic
    | remove id =>
      obtain ⟨x, hx, hid⟩ := hop
      obtain ⟨c, hc, hcid⟩ := exists_content hm hx
      have hr : r.id = id ∧ r.type = ServiceTypes.empty.toInt32 :=
        ⟨congrArg Prod.fst h.2, congrArg (fun c => c.2.1) h.2⟩
      exact ⟨⟨c, hc, hcid.trans (hid.trans hr.1.symm)⟩, .inr hr.2⟩
  · cases op with
    | put entry =>
      refine ⟨?_, ?_⟩
      · rw [show r.type = magic from h.2.type]
        exact hmagic
      · rw [show r.id = entry.id from h.2.id]
        exact hop.1
    | change entry => exact absurd hflag (by simp [has_rewrite h.1])
    | remove id => exact absurd hflag (by simp [has_rewrite h.1])

/-- **The log and the map change alike.** -/
theorem Op.Logged.applied (h : op.Logged magic r) (hmagic : ¬ magic < 0)
    (hm : List.Forall₂ (Codes magic) m entries) :
    List.Forall₂ (Codes magic) (r.applied m) (op.apply entries) := by
  cases op with
  | put entry =>
    rw [Record.applied, has_zero h.1]
    exact rel_append hm (.cons h.2 .nil)
  | change entry =>
    have htype : r.type ≠ ServiceTypes.empty.toInt32 := by
      rw [show r.type = magic from h.2.type]
      rintro rfl
      exact hmagic (by decide)
    rw [Record.applied, if_pos (has_rewrite h.1), if_neg htype, Op.apply]
    rw [forall₂_map_left_iff, forall₂_map_right_iff]
    refine hm.imp fun c e hce => ?_
    have hid : c.1 = r.id ↔ e.id = entry.id := by
      rw [hce.id, show r.id = entry.id from h.2.id]
    by_cases heq : c.1 = r.id
    · rw [if_pos heq, if_pos (hid.mp heq)]
      exact h.2
    · rw [if_neg heq, if_neg fun h' => heq (hid.mpr h')]
      exact hce
  | remove id =>
    have hr : r.id = id ∧ r.type = ServiceTypes.empty.toInt32 :=
      ⟨congrArg Prod.fst h.2, congrArg (fun c => c.2.1) h.2⟩
    rw [Record.applied, if_pos (has_rewrite h.1), if_pos hr.2]
    refine rel_filter (fun c e hce => ?_) hm
    simp only [hce.id, hr.1]

/-! ## Histories -/

/-- Operations with the records that are logged for them. -/
abbrev History := List (Op × LogRecord)

namespace History

/-- The entries after the operations of a history. -/
def after (history : History) (entries : List Entry) : List Entry :=
  history.foldl (fun entries x => x.1.apply entries) entries

/-- Every operation is valid in its turn, the first one as the `n`-th, and logged as it should
be. -/
def Follows (magic : Int32) : List Entry → Nat → History → Prop
  | _, _, [] => True
  | entries, n, (op, r) :: rest =>
    op.Valid entries n ∧ op.Logged magic r.toRecord ∧ Follows magic (op.apply entries) (n + 1) rest

/-- The messages that carry the records, the first one with the number `seqNo`. -/
def messages (crc32 : Bytes → UInt32) : UInt64 → History → List Message
  | _, [] => []
  | seqNo, (_, r) :: rest => ⟨seqNo, r.image crc32⟩ :: messages crc32 (seqNo + 1) rest

variable {history rest : History}

theorem after_append (history rest : History) (entries : List Entry) :
    (history ++ rest).after entries = rest.after (history.after entries) := foldl_append

theorem follows_append : Follows magic entries n (history ++ rest) ↔
    Follows magic entries n history ∧
      Follows magic (history.after entries) (n + history.length) rest := by
  induction history generalizing entries n with
  | nil => exact ⟨fun h => ⟨trivial, h⟩, fun h => h.2⟩
  | cons x history ih =>
    rw [cons_append, Follows, ih]
    rw [show n + 1 + history.length = n + (history.length + 1) by omega]
    exact ⟨fun h => ⟨⟨h.1, h.2.1, h.2.2.1⟩, h.2.2.2⟩, fun h => ⟨h.1.1, h.1.2.1, h.1.2.2, h.2⟩⟩

theorem Follows.distinct (h : Follows magic entries n history) (hd : Distinct entries n)
    (hn : 0 < n) : Distinct (history.after entries) (n + history.length) := by
  induction history generalizing entries n with
  | nil => exact hd
  | cons x history ih =>
    have := ih h.2.2 (h.1.distinct hd hn) (Nat.succ_pos n)
    rw [show n + 1 + history.length = n + (history.length + 1) by omega] at this
    exact this

/-- **A log that holds the entries takes the records of a history one after another.** -/
theorem Follows.holds {platform : Platform} {dbKey : DbKey} {b : Binlog} (entropy : Entropy)
    (h : Follows magic entries n history) (hmagic : ¬ magic < 0)
    (hm : List.Forall₂ (Codes magic) m entries) (hb : Holds platform dbKey m n b)
    (hroom : n + history.length ≤ 0x8000000000000000) :
    ∃ c m', (history.map fun x => x.2.image platform.crc32).foldlM
        (doAddRawEvent platform entropy) b
        = some c ∧ List.Forall₂ (Codes magic) m' (history.after entries) ∧
      Holds platform dbKey m' (n + history.length) c := by
  induction history generalizing entries n m b with
  | nil => exact ⟨b, m, rfl, hm, hb⟩
  | cons x history ih =>
    rw [length_cons] at hroom
    obtain ⟨c, hc, hholds⟩ := hb.addRawEvent (by omega) (h.2.1.fits hmagic hm h.1) entropy
    obtain ⟨d, m', hd, hm', hdholds⟩ := ih h.2.2 (h.2.1.applied hmagic hm) hholds (by omega)
    refine ⟨d, m', ?_, hm', ?_⟩
    · rw [map_cons, foldlM_cons, doAddRawEvent, hc]
      exact hd
    · rw [length_cons, show n + (history.length + 1) = n + 1 + history.length by omega]
      exact hdholds

end History

/-! ## Reading the map back -/

theorem parseEvent_storeEvent {key value data : Bytes} (h : storeEvent key value = some data) :
    parseEvent data = (key, value) := by
  obtain ⟨storedKey, hkey, h⟩ := Option.bind_eq_some_iff.mp h
  obtain ⟨storedValue, hvalue, h⟩ := Option.bind_eq_some_iff.mp h
  cases h
  have hlast : ∀ n, (TlParser.ok n storedValue).fetchString = (value, TlParser.ok n []) := by
    intro n
    simpa using TlParser.fetchString_ok n hvalue []
  rw [parseEvent, TlParser.ofSlice_eq, TlParser.fetchString_ok _ hkey]
  dsimp only
  rw [hlast]

variable {events : List BinlogEvent}

/-- From any map whose keys are not among those to come. -/
theorem foldl_initCallback {map : List Entry}
    (h : List.Forall₂ (Codes magic) (events.map content) entries)
    (hkeys : ((map ++ entries).map Entry.key).Nodup) :
    events.foldl initCallback map = map ++ entries := by
  induction events generalizing entries map with
  | nil =>
    obtain rfl := forall₂_nil_left_iff.mp h
    exact (append_nil _).symm
  | cons event events ih =>
    obtain ⟨e, rest, hcode, hrest, rfl⟩ := forall₂_cons_left_iff.mp h
    have hparse : parseEvent event.data = (e.key, e.value) := parseEvent_storeEvent hcode.data
    have hid : event.id = e.id := hcode.id
    have heq : map ++ [e] ++ rest = map ++ e :: rest := append_assoc _ _ _
    have hnew : ¬ (map.any fun x => x.key = e.key) = true := by
      intro hany
      obtain ⟨x, hx, hkey⟩ := any_eq_true.mp hany
      rw [map_append, nodup_append] at hkeys
      exact hkeys.2.2 x.key (mem_map_of_mem hx) e.key mem_cons_self (by simpa using hkey)
    have hstep : initCallback map event = map ++ [e] := by
      rw [initCallback, hparse]
      dsimp only
      rw [emplace, if_neg hnew, hid]
    rw [foldl_cons, hstep, ih hrest (by rw [heq]; exact hkeys), heq]

/-- **The callback makes the entries of the contents again.** -/
theorem initMap_eq (h : List.Forall₂ (Codes magic) (events.map content) entries)
    (hkeys : (entries.map Entry.key).Nodup) : initMap events = entries :=
  foldl_initCallback h hkeys

/-! ## The calls -/

/-- The record that erases an id. -/
def eraseRecord (id : UInt64) : LogRecord :=
  ⟨⟨id, ServiceTypes.empty.toInt32, Flags.rewrite.toInt32, []⟩,
    show (0 + BinlogEvent.minSize) % 4 = 0 by decide,
    show 0 + BinlogEvent.minSize ≤ BinlogEvent.maxSize by decide⟩

/-- The history of erasing some entries, one after another. -/
def removals (removed : List Entry) : History :=
  removed.map fun e => (.remove e.id, eraseRecord e.id)

theorem after_removals (removed entries : List Entry) :
    (removals removed).after entries = entries.filter fun e => e.id ∉ removed.map Entry.id := by
  induction removed generalizing entries with
  | nil => simp [removals, History.after]
  | cons e removed ih =>
    show (removals removed).after (entries.filter fun x => x.id ≠ e.id) = _
    rw [ih, filter_filter]
    refine filter_congr fun x _ => ?_
    simp [Bool.and_comm]

theorem follows_removals {removed : List Entry} (hsub : ∀ e ∈ removed, e ∈ entries)
    (hids : (removed.map Entry.id).Nodup) (n : Nat) :
    History.Follows magic entries n (removals removed) := by
  induction removed generalizing entries n with
  | nil => trivial
  | cons e removed ih =>
    rw [map_cons, nodup_cons] at hids
    refine ⟨⟨e, hsub e mem_cons_self, rfl⟩, ⟨rfl, rfl⟩, ih (fun x hx => ?_) hids.2 _⟩
    refine mem_filter.mpr ⟨hsub x (mem_cons_of_mem _ hx), decide_eq_true fun heq => ?_⟩
    exact hids.1 (heq ▸ mem_map_of_mem hx)

theorem eraseMessages_eq (crc32 : Bytes → UInt32) (removed : List Entry) (seqNo : UInt64) :
    BinlogKeyValue.eraseMessages crc32 seqNo (removed.map Entry.id)
      = some ((removals removed).messages crc32 seqNo) := by
  induction removed generalizing seqNo with
  | nil => rfl
  | cons e removed ih =>
    rw [map_cons, BinlogKeyValue.eraseMessages, ih]
    rfl

/-- What a call did, in terms of its operations. -/
structure Performed (crc32 : Bytes → UInt32) (kv : BinlogKeyValue) (lastId : UInt64)
    (entries : List Entry) (call : Call) (out : Outcome) (history : History) : Prop where
  follows : History.Follows kv.magic entries lastId.toNat history
  map : out.kv.map.Perm (history.after entries)
  magic : out.kv.magic = kv.magic
  next : out.lastId.toNat = lastId.toNat + history.length
  messages : out.messages = history.messages crc32 lastId
  /-- An event either goes with a new entry or takes one away, or is the only one of its call. -/
  size : history.length + out.kv.map.length ≤ kv.map.length + 2
  /-- Only `erase_by_prefix` sends more than one event. -/
  single : history.length ≤ 1 ∨ ∃ iteration start, call = .eraseByPrefix iteration start ∧
    history = removals (iteration.order (kv.beginning start))

/-- A call returns, and did what its operations do. -/
abbrev Does (crc32 : Bytes → UInt32) (kv : BinlogKeyValue) (lastId : UInt64) (entries : List Entry)
    (call : Call) : Prop :=
  ∃ out history, perform crc32 kv lastId call = some out ∧
    Performed crc32 kv lastId entries call out history

/-- No event is larger than a log can hold. -/
def Call.Small : Call → Prop
  | .set key value => ∃ data, storeEvent key value = some data ∧
      data.length + BinlogEvent.minSize ≤ BinlogEvent.maxSize
  | _ => True

/-- The number of keys to erase fits in 32 bits. -/
def Call.Countable (kv : BinlogKeyValue) : Call → Prop
  | .eraseByPrefix _ start => (kv.beginning start).length < 0x80000000
  | _ => True

section

variable {crc32 : Bytes → UInt32} {kv : BinlogKeyValue} {lastId : UInt64}

theorem performed_nothing (hperm : kv.map.Perm entries) (call : Call) :
    Performed crc32 kv lastId entries call ⟨kv, lastId, 0, []⟩ [] :=
  ⟨trivial, hperm, rfl, rfl, rfl, by show 0 + kv.map.length ≤ _; omega, .inl (Nat.zero_le _)⟩

theorem toNat_next (hroom : lastId.toNat < 0x8000000000000000) :
    (lastId + 1).toNat = lastId.toNat + 1 :=
  OrderedEventsProcessor.toNat_succ hroom (by omega)

variable {key value data : Bytes} {map : List Entry} {entry old : Entry}

variable (crc32) in
/-- The record of an entry, if its data is not too large. -/
theorem exists_record (hdata : storeEvent key value = some data)
    (hsize : data.length + BinlogEvent.minSize ≤ BinlogEvent.maxSize) (id : UInt64)
    (type flags : Int32) : ∃ r : LogRecord, r.toRecord = ⟨id, type, flags, data⟩ ∧
      BinlogEvent.createRaw crc32 id type flags data = some (r.image crc32) := by
  obtain ⟨storedKey, hkey, h⟩ := Option.bind_eq_some_iff.mp hdata
  obtain ⟨storedValue, hvalue, h⟩ := Option.bind_eq_some_iff.mp h
  cases h
  have h1 := length_storeString_mod hkey
  have h2 := length_storeString_mod hvalue
  have haligned : ((storedKey ++ storedValue).length + BinlogEvent.minSize) % 4 = 0 := by
    rw [length_append]
    show (_ + _ + 32) % 4 = 0
    omega
  let r : LogRecord := ⟨⟨id, type, flags, storedKey ++ storedValue⟩, haligned, hsize⟩
  exact ⟨r, rfl, Record.createRaw_eq crc32 r.rawSize_lt⟩

theorem put_of_mem {e : Entry} (he : e ∈ map) (hkey : e.key = entry.key) :
    put map entry = map.map fun x => if x.key = entry.key then entry else x :=
  if_pos (any_eq_true.mpr ⟨e, he, decide_eq_true hkey⟩)

theorem put_of_not_mem (h : ∀ e ∈ map, e.key ≠ entry.key) : put map entry = map ++ [entry] := by
  refine if_neg fun hany => ?_
  obtain ⟨e, he, hkey⟩ := any_eq_true.mp hany
  exact h e he (of_decide_eq_true hkey)

/-- The entry that a search for a key finds. -/
theorem find_some (h : (map.find? fun e => e.key = key) = some old) : old ∈ map ∧ old.key = key :=
  ⟨mem_of_find?_eq_some h, by simpa using find?_some h⟩

section

variable (hperm : kv.map.Perm entries) (hroom : lastId.toNat < 0x8000000000000000)
include hperm hroom

section

variable (hdata : storeEvent key value = some data)
  (hsize : data.length + BinlogEvent.minSize ≤ BinlogEvent.maxSize)
include hdata hsize

/-- `set` of a key that is there changes its entry. -/
theorem set_change (hd : Distinct entries lastId.toNat)
    (hfind : (kv.map.find? fun e => e.key = key) = some old) (hvalue : old.value ≠ value) :
    Does crc32 kv lastId entries (.set key value) := by
  obtain ⟨hold, hkey⟩ := find_some hfind
  have hmem := hperm.subset hold
  have hid : old.id ≠ 0 := by
    intro hzero
    have := (hd.bounds old hmem).1
    rw [hzero] at this
    cases this
  obtain ⟨r, hr, hraw⟩ := exists_record crc32 hdata hsize old.id kv.magic Flags.rewrite.toInt32
  refine ⟨⟨{ kv with map := put kv.map ⟨key, value, old.id⟩ }, lastId + 1, lastId,
    [⟨lastId, r.image crc32⟩]⟩, [(.change ⟨key, value, old.id⟩, r)], ?_,
    ⟨⟨⟨old, hmem, rfl, hkey⟩, ?_, trivial⟩, ?_, rfl, toNat_next hroom, rfl, ?_, .inl le_rfl⟩⟩
  · rw [perform, BinlogKeyValue.set, hfind]
    dsimp only [Option.elim_some]
    rw [if_neg (by simpa using hvalue), hdata, if_pos hid, if_pos hid]
    dsimp only [Option.bind_eq_bind, Option.bind_some]
    rw [hraw]
    rfl
  · exact ⟨by rw [hr], by rw [hr]; exact ⟨rfl, rfl, hdata⟩⟩
  · rw [put_of_mem hold hkey]
    refine (hperm.map _).trans (List.Perm.of_eq (map_congr_left fun e he => ?_))
    have hiff : e.key = key ↔ e.id = old.id := by
      rw [← hkey]
      exact hd.key_iff_id he hmem
    by_cases heq : e.key = key
    · rw [if_pos heq, if_pos (hiff.mp heq)]
    · rw [if_neg heq, if_neg fun h => heq (hiff.mpr h)]
  · show 1 + (put kv.map ⟨key, value, old.id⟩).length ≤ _
    rw [put_of_mem hold hkey, length_map]
    omega

/-- `set` of a key that is not there puts a new entry. -/
theorem set_put (hfind : (kv.map.find? fun e => e.key = key) = none) :
    Does crc32 kv lastId entries (.set key value) := by
  have hnew : ∀ e ∈ kv.map, e.key ≠ key := fun e he hkey =>
    absurd (decide_eq_true hkey) (find?_eq_none.mp hfind e he)
  obtain ⟨r, hr, hraw⟩ := exists_record crc32 hdata hsize lastId kv.magic 0
  refine ⟨⟨{ kv with map := put kv.map ⟨key, value, lastId⟩ }, lastId + 1, lastId,
    [⟨lastId, r.image crc32⟩]⟩, [(.put ⟨key, value, lastId⟩, r)], ?_,
    ⟨⟨⟨rfl, fun hmem => ?_⟩, ?_, trivial⟩, ?_, rfl, toNat_next hroom, rfl, ?_, .inl le_rfl⟩⟩
  · rw [perform, BinlogKeyValue.set, hfind]
    dsimp only [Option.any_none]
    rw [if_neg (by simp), hdata, if_neg (by simp), if_neg (by simp)]
    dsimp only [Option.bind_eq_bind, Option.bind_some]
    rw [hraw]
    rfl
  · obtain ⟨e, he, hkey⟩ := mem_map.mp hmem
    exact hnew e (hperm.symm.subset he) hkey
  · exact ⟨by rw [hr], by rw [hr]; exact ⟨rfl, rfl, hdata⟩⟩
  · rw [put_of_not_mem hnew]
    exact hperm.append_right _
  · show 1 + (put kv.map ⟨key, value, lastId⟩).length ≤ _
    rw [put_of_not_mem hnew, length_append, length_singleton]
    omega

end

variable (hd : Distinct entries lastId.toNat)
include hd

theorem set_spec (hsmall : (Call.set key value).Small) :
    Does crc32 kv lastId entries (.set key value) := by
  obtain ⟨data, hdata, hsize⟩ := hsmall
  cases hfind : kv.map.find? fun e => e.key = key with
  | none => exact set_put hperm hroom hdata hsize hfind
  | some old =>
    by_cases hvalue : old.value = value
    · refine ⟨_, [], ?_, performed_nothing hperm _⟩
      rw [perform, BinlogKeyValue.set, hfind]
      exact if_pos (decide_eq_true hvalue)
    · exact set_change hperm hroom hdata hsize hd hfind hvalue

theorem erase_spec : Does crc32 kv lastId entries (.erase key) := by
  cases hfind : kv.map.find? fun e => e.key = key with
  | none =>
    refine ⟨_, [], ?_, performed_nothing hperm _⟩
    rw [perform, BinlogKeyValue.erase, hfind]
  | some old =>
    obtain ⟨hold, hkey⟩ := find_some hfind
    have hmem := hperm.subset hold
    have hids : ([old].map Entry.id).Nodup := nodup_singleton _
    have hsub : ∀ e ∈ [old], e ∈ entries := fun e he => by
      rw [mem_singleton.mp he]
      exact hmem
    refine ⟨⟨{ kv with map := kv.map.filter fun e => e.key ≠ key }, lastId + 1, lastId,
      [⟨lastId, (eraseRecord old.id).image crc32⟩]⟩, removals [old], ?_,
      ⟨follows_removals hsub hids _, ?_, rfl, toNat_next hroom, rfl, ?_, .inl le_rfl⟩⟩
    · rw [perform, BinlogKeyValue.erase, hfind]
      rfl
    · refine (hperm.filter _).trans (List.Perm.of_eq (filter_congr fun e he => ?_))
      rw [← hkey]
      exact decide_eq_decide.mpr (not_congr (hd.key_iff_id he hmem))
    · show 1 + (kv.map.filter _).length ≤ _
      have := length_filter_le (fun e : Entry => decide (e.key ≠ key)) kv.map
      omega

end

theorem eraseByPrefix_spec (iteration : Iteration) {start : Bytes} (hperm : kv.map.Perm entries)
    (hd : Distinct entries lastId.toNat)
    (hroom : lastId.toNat + kv.map.length < 0x8000000000000000)
    (hcount : (kv.beginning start).length < 0x80000000) :
    Does crc32 kv lastId entries (.eraseByPrefix iteration start) := by
  have horder := iteration.perm (kv.beginning start)
  let removed := iteration.order (kv.beginning start)
  have hlen : (removed.map Entry.id).length = (kv.beginning start).length := by
    rw [length_map, horder.length_eq]
  have hsub : ∀ e ∈ removed, e ∈ entries := fun e he =>
    hperm.subset (mem_filter.mp (horder.subset he)).1
  have hids : (removed.map Entry.id).Nodup := by
    rw [(horder.map Entry.id).nodup_iff]
    have hmap : (kv.map.map Entry.id).Nodup := (hperm.map Entry.id).nodup_iff.mpr hd.ids
    exact hmap.sublist (filter_sublist.map _)
  refine ⟨⟨{ kv with map := kv.map.filter fun e => ¬ start.isPrefixOf e.key },
    lastId + UInt64.ofNat (kv.beginning start).length, lastId,
    (removals removed).messages crc32 lastId⟩, removals removed, ?_,
    ⟨follows_removals hsub hids _, ?_, rfl, ?_, rfl, ?_, .inr ⟨iteration, start, rfl, rfl⟩⟩⟩
  · rw [perform, BinlogKeyValue.eraseByPrefix]
    rw [hlen, if_pos hcount, eraseMessages_eq]
    rfl
  · rw [after_removals]
    refine (hperm.filter _).trans (List.Perm.of_eq (filter_congr fun e he => ?_))
    refine decide_eq_decide.mpr (not_congr ⟨fun hstart => ?_, fun hmem => ?_⟩)
    · refine mem_map_of_mem (horder.symm.subset ?_)
      exact mem_filter.mpr ⟨hperm.symm.subset he, hstart⟩
    · obtain ⟨x, hx, hid⟩ := mem_map.mp hmem
      rw [← inj_on_of_nodup_map hd.ids (hsub x hx) he hid]
      exact (mem_filter.mp (horder.subset hx)).2
  · rw [removals, length_map, horder.length_eq, UInt64.toNat_add, UInt64.toNat_ofNat']
    omega
  · have hsplit := length_eq_length_filter_add (l := kv.map) fun e => start.isPrefixOf e.key
    rw [removals, length_map, horder.length_eq, BinlogKeyValue.beginning]
    simp only [Bool.not_eq_true, Bool.decide_eq_false]
    omega

variable (crc32) in
/-- **Every call comes down to valid operations**, and sends one message for each. -/
theorem perform_spec {call : Call} (hperm : kv.map.Perm entries)
    (hd : Distinct entries lastId.toNat)
    (hroom : lastId.toNat + kv.map.length < 0x8000000000000000) (hsmall : call.Small)
    (hcount : call.Countable kv) : Does crc32 kv lastId entries call := by
  cases call with
  | set key value => exact set_spec hperm (by omega) hd hsmall
  | erase key => exact erase_spec hperm (by omega) hd
  | eraseByPrefix iteration start => exact eraseByPrefix_spec iteration hperm hd hroom hcount

/-- A call that returned had few enough keys to erase. -/
theorem countable_of_perform {call : Call} {out : Outcome}
    (h : perform crc32 kv lastId call = some out) : call.Countable kv := by
  cases call with
  | set key value | erase key => trivial
  | eraseByPrefix iteration start =>
    have h : kv.eraseByPrefix crc32 lastId iteration.order start = some out := h
    unfold BinlogKeyValue.eraseByPrefix at h
    dsimp only at h
    split at h
    · rename_i hlt
      rw [length_map, (iteration.perm _).length_eq] at hlt
      exact hlt
    · cases h

end

end Tdlib.KeyValue
