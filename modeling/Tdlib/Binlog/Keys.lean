import Tdlib.Binlog.Reindex

/-!
# A log with a key

A log with a key starts with an encryption event: the salt the key was made with,
the initial vector, and a hash by which the key is recognised. Regeneration
writes it, and the next load makes the same key of the same salt. `Keyed` is what
the members of the object keep up for that.

With it, the results on regeneration hold for every key: a log that has written
its header can always write the next one, and finds its key again in its file.
-/

namespace Tdlib.Binlog

open List Lib Tl BinlogEvent AesCtrEncryptionEvent

variable {platform : Platform} {entropy : Entropy} {dbKey : DbKey} {b c : Binlog}

namespace AesCtrEncryptionEvent

/-- The sizes that a header written by this code has. -/
structure Sized (event : AesCtrEncryptionEvent) : Prop where
  salt : event.keySalt.length = 32
  iv : event.iv.length = 16
  hash : event.keyHash.length = 32

theorem storeString_short (str : Bytes) (h : str.length < 254) :
    ∃ stored, storeString str = some stored ∧ stored.length = str.length + 1 +
      (4 - (str.length + 1) % 4) % 4 := by
  refine ⟨_, if_pos h, ?_⟩
  rw [length_cons, length_append, length_padding]
  omega

/-- **What is stored is parsed back.** -/
theorem Sized.parse_store {event : AesCtrEncryptionEvent} (h : event.Sized) :
    ∃ data, event.store = some data ∧ data.length = 96 ∧ parse data = event := by
  obtain ⟨salt, hsalt, hsaltLen⟩ := storeString_short event.keySalt (by rw [h.salt]; omega)
  obtain ⟨iv, hiv, hivLen⟩ := storeString_short event.iv (by rw [h.iv]; omega)
  obtain ⟨hash, hhash, hhashLen⟩ := storeString_short event.keyHash
    (by rw [h.hash]; omega)
  rw [h.salt] at hsaltLen
  rw [h.iv] at hivLen
  rw [h.hash] at hhashLen
  refine ⟨storeInt 0 ++ (salt ++ (iv ++ hash)), ?_, ?_, ?_⟩
  · rw [store, hsalt, hiv, hhash]
    rfl
  · rw [length_append, length_append, length_append, length_storeInt]
    omega
  have hlast : ∀ n, (TlParser.ok n hash).fetchString = (event.keyHash, TlParser.ok n []) := by
    intro n
    simpa using TlParser.fetchString_ok n hhash []
  rw [parse, TlParser.ofSlice_eq, TlParser.fetchInt_ok]
  dsimp only
  rw [if_neg (by simp), TlParser.fetchString_ok _ hsalt]
  rw [TlParser.fetchString_ok _ hiv]
  rw [hlast]

end AesCtrEncryptionEvent

/-! ## Keys that are recognised again -/

/-- The key that a log with this key uses under this salt. -/
def keyFor (platform : Platform) (dbKey : DbKey) (salt : Bytes) : Option Bytes :=
  AesCtrEncryptionEvent.generateKey platform ⟨salt, [], []⟩ dbKey

variable {salt key iv : Bytes} {e : Encryption}

theorem length_keyFor (h : keyFor platform dbKey salt = some key) : key.length = 32 := by
  cases dbKey with
  | empty => cases h
  | rawKey data | password data =>
    cases h
    exact platform.length_pbkdf2Sha256 _ _ _

theorem exists_keyFor (platform : Platform) (h : dbKey ≠ .empty) (salt : Bytes) :
    ∃ key, keyFor platform dbKey salt = some key := by
  cases dbKey with
  | empty => exact absurd rfl h
  | rawKey data | password data => exact ⟨_, rfl⟩

variable (platform) in
/-- The members that have to do with keys: no salt yet, or a salt and the key made with it. -/
structure Keyed (dbKey : DbKey) (e : Encryption) : Prop where
  key : e.dbKey = dbKey
  password : e.wrongPassword = false
  length : e.aesCtrKey.length = 32
  salt : e.aesCtrKeySalt = [] ∨
    e.aesCtrKeySalt.length = 32 ∧ keyFor platform dbKey e.aesCtrKeySalt = some e.aesCtrKey

variable (platform) in
/-- The records in front of a log: none without a key, else one with a salt and the right hash. -/
def Header (dbKey : DbKey) (header : List LogRecord) : Prop :=
  dbKey = .empty ∧ header = [] ∨
    ∃ r salt iv key, header = [r] ∧ r.type = ServiceTypes.aesCtrEncryption.toInt32 ∧ r.flags = 0 ∧
      AesCtrEncryptionEvent.parse r.data
        = ⟨salt, iv, AesCtrEncryptionEvent.generateHash platform key⟩ ∧
      salt.length = 32 ∧ iv.length = 16 ∧ keyFor platform dbKey salt = some key

/-- The key is found under its own salt, or made again. -/
theorem Keyed.eventKey (h : Keyed platform dbKey e) {hash : Bytes} (hsalt : salt.length = 32)
    (hkey : keyFor platform dbKey salt = some key) :
    e.eventKey platform ⟨salt, iv, hash⟩ = some key := by
  unfold Encryption.eventKey
  split
  · rename_i heq
    rcases h.salt with hnil | ⟨_, hfor⟩
    · rw [show salt = [] from heq.symm.trans hnil] at hsalt
      cases hsalt
    · rw [show e.aesCtrKeySalt = salt from heq] at hfor
      exact hfor.symm.trans hkey
  rw [h.key]
  split
  · rename_i hempty
    cases dbKey with
    | empty => cases hkey
    | rawKey data | password data => cases hempty
  · exact hkey

/-- **A header with the right hash is accepted**, while loading and while writing it. -/
theorem Keyed.onEvent (h : Keyed platform dbKey e) (event : BinlogEvent) (loading : Bool)
    (hparse : parse event.data
      = ⟨salt, iv, generateHash platform key⟩)
    (hsalt : salt.length = 32) (hiv : iv.length = 16)
    (hkey : keyFor platform dbKey salt = some key) :
    ∃ e', e.onEvent platform loading event = some e' ∧ Keyed platform dbKey e' ∧
      e'.dbKeyUsed = true := by
  have hlen := length_keyFor hkey
  refine ⟨{ e with
    dbKeyUsed := true, encryptionType := .aesCtr, aesCtrKeySalt := salt, aesCtrKey := key }, ?_,
    ⟨h.key, h.password, hlen, .inr ⟨hsalt, hkey⟩⟩, rfl⟩
  have hdrop : e.aesCtrKey.drop key.length = [] := drop_eq_nil_of_le (by rw [h.length, hlen])
  rw [Encryption.onEvent, hparse]
  rw [h.eventKey hsalt hkey]
  dsimp only [Option.bind_eq_bind, Option.bind_some]
  rw [Encryption.checkKey, if_pos rfl]
  dsimp only [Option.bind_some]
  rw [Encryption.update, if_pos ⟨by omega, by omega⟩]
  rw [hdrop, append_nil]

/-- A log with a key can write its header. -/
theorem Keyed.headerEvent (h : Keyed platform dbKey e) (hne : dbKey ≠ .empty) (entropy : Entropy) :
    ∃ r : LogRecord, Header platform dbKey [r] ∧
      e.headerEvent platform entropy = some (r.event platform.crc32 0) := by
  have hsalt : (e.headerSalt entropy).length = 32 := by
    unfold Encryption.headerSalt
    split
    · exact entropy.length_salt
    · rename_i hne
      exact (h.salt.resolve_left hne).1
  have hkey : ∃ key, e.headerKey platform entropy = some key ∧
      keyFor platform dbKey (e.headerSalt entropy) = some key := by
    unfold Encryption.headerKey
    split
    · rename_i heq
      rcases h.salt with hnil | ⟨_, hfor⟩
      · rw [← heq, hnil] at hsalt
        cases hsalt
      · exact ⟨e.aesCtrKey, rfl, by rw [← heq]; exact hfor⟩
    · obtain ⟨key, hkey⟩ := exists_keyFor platform hne (e.headerSalt entropy)
      exact ⟨key, by rw [h.key]; exact hkey, hkey⟩
  obtain ⟨key, hkey, hfor⟩ := hkey
  have hsized : Sized ⟨e.headerSalt entropy, entropy.iv, generateHash platform key⟩ :=
    ⟨hsalt, entropy.length_iv, platform.length_hmacSha256 _ _⟩
  obtain ⟨data, hstore, hlen, hparse⟩ := hsized.parse_store
  let r : LogRecord := ⟨⟨0, ServiceTypes.aesCtrEncryption.toInt32, 0, data⟩,
    by show (data.length + minSize) % 4 = 0; rw [hlen]; decide,
    by show data.length + minSize ≤ maxSize; rw [hlen]; decide⟩
  refine ⟨r, .inr ⟨r, _, _, key, rfl, rfl, rfl, hparse, hsalt, entropy.length_iv, hfor⟩, ?_⟩
  have hraw := Record.createRaw_eq platform.crc32 r.rawSize_lt
  have hinit := Record.init_image platform.crc32 r.rawSize_lt false
  rw [Encryption.headerEvent, hkey]
  dsimp only [Option.bind_eq_bind, Option.bind_some]
  rw [hstore]
  dsimp only [Option.bind_some]
  rw [show createRaw platform.crc32 0 ServiceTypes.aesCtrEncryption.toInt32 0 data
    = some (r.toRecord.image platform.crc32) from hraw]
  dsimp only [Option.bind_some]
  rw [hinit]

/-! ## Writing the header -/

theorem doEvent_header (hstate : b.state = .reindex) (hkeys : Keyed platform dbKey b.encryption)
    {r : LogRecord} (hr : Header platform dbKey [r]) :
    ∃ c, b.doEvent platform (r.event platform.crc32 0) = some c ∧
      Keyed platform dbKey c.encryption := by
  obtain ⟨_, hnil⟩ | ⟨x, salt, iv, key, hx, htype, _, hparse, hsalt, hiv, hfor⟩ := hr
  · cases hnil
  obtain rfl := singleton_inj.mp hx
  have htype : (r.event platform.crc32 0).type = ServiceTypes.aesCtrEncryption.toInt32 := htype
  obtain ⟨e', he', hkeyed, _⟩ := hkeys.onEvent (r.event platform.crc32 0) false hparse
    hsalt hiv hfor
  let d : Binlog := { b with
    buffer := b.buffer ++ r.image platform.crc32, encryption := e', state := .reindex }
  refine ⟨d.flush.countEvent (r.event platform.crc32 0), ?_, hkeyed⟩
  rw [doEvent, writeEvent, if_pos (.inr hstate), (LogRecord.written platform.crc32 r 0).validate]
  dsimp only [Option.bind_eq_bind, Option.bind_some]
  rw [keyEvent, if_pos htype, doEncryptionEvent]
  rw [hstate, show decide (State.reindex = State.load) = false from rfl, he']
  dsimp only [Option.bind_eq_bind, Option.bind_some]
  rw [if_neg (by simp), if_pos rfl, Option.bind_some]
  exact if_pos rfl

/-- The header of the new file is written, if there is to be one. -/
theorem resetEncryption_keyed (hstate : b.state = .reindex)
    (hkeys : Keyed platform dbKey b.encryption) (entropy : Entropy) :
    ∃ header c, Header platform dbKey header ∧ b.resetEncryption platform entropy = some c ∧
      Wrote b (images platform.crc32 header) c ∧ Keyed platform dbKey c.encryption := by
  by_cases hempty : dbKey = .empty
  · refine ⟨[], { b with encryption := { b.encryption with encryptionType := .none } },
      .inl ⟨hempty, rfl⟩, if_pos (by rw [hkeys.key, hempty]; rfl),
      ⟨(append_nil _).symm, rfl, rfl, rfl, rfl, rfl⟩, hkeys.key, hkeys.password, hkeys.length,
      hkeys.salt⟩
  obtain ⟨r, hr, hevent⟩ := hkeys.headerEvent hempty entropy
  obtain ⟨c, hc, hkeyed⟩ := doEvent_header hstate hkeys hr
  refine ⟨[r], c, hr, ?_, ?_, hkeyed⟩
  · rw [resetEncryption, if_neg, hevent]
    · exact hc
    · rw [hkeys.key]
      cases dbKey with
      | empty => exact absurd rfl hempty
      | rawKey data | password data => simp [DbKey.isEmpty]
  · rw [images_cons, show images platform.crc32 [] = [] from rfl, append_nil]
    exact doEvent_reindex hstate hc

/-- **Whatever its key, a log whose images validate can be regenerated.** -/
theorem doReindex_keyed (hstate : b.state = .run) (hkeys : Keyed platform dbKey b.encryption)
    (hinv : Inv b.processor) (hevents : ∀ e ∈ b.processor.live, Written platform.crc32 e ∧
      e.type ≠ ServiceTypes.aesCtrEncryption.toInt32) (entropy : Entropy) :
    ∃ header c, Header platform dbKey header ∧ b.doReindex platform entropy = some c ∧
      Keyed platform dbKey c.encryption ∧
      c.file = images platform.crc32 header ++ b.processor.live.flatMap (·.rawEvent) := by
  have hstart : Keyed platform dbKey b.startReindex.encryption :=
    ⟨hkeys.key, hkeys.password, hkeys.length, hkeys.salt⟩
  obtain ⟨header, d, hheader, hreset, hwrote, hkeyed⟩ := resetEncryption_keyed rfl hstart entropy
  obtain ⟨c, hc, henc, hfile⟩ := doReindex_after_header hstate hreset hwrote hinv hevents
  exact ⟨header, c, hheader, hc, henc ▸ hkeyed, hfile⟩

/-! ## Finding the key again -/

theorem keyed_new (platform : Platform) (file : Bytes) (dbKey oldDbKey : DbKey) :
    Keyed platform dbKey (new file dbKey oldDbKey).encryption := ⟨rfl, rfl, rfl, .inl rfl⟩

variable (platform) in
/-- What replaying a header leaves: an empty index and the key. -/
structure Fresh (dbKey : DbKey) (b : Binlog) : Prop where
  pending : b.pendingEvents = []
  keys : Keyed platform dbKey b.encryption
  recognised : b.encryption.Recognised
  inv : Inv b.processor
  ids : b.processor.ids = []
  lastId : b.processor.lastId = 0

/-- **A load finds the key of the header.** -/
theorem Header.replay {header : List LogRecord} (h : Header platform dbKey header) (file : Bytes) :
    ∃ c, replay platform (new file dbKey .empty).startLoad (decodeFrom platform.crc32 0 header)
        = some c ∧ Fresh platform dbKey c := by
  obtain ⟨rfl, rfl⟩ | ⟨r, salt, iv, key, rfl, htype, hflags, hparse, hsalt, hiv, hfor⟩ := h
  · exact ⟨_, rfl, rfl, keyed_new platform file _ _, rfl, inv_empty, rfl, rfl⟩
  let b := (new file dbKey .empty).startLoad
  let event := r.event platform.crc32 (0 + r.rawSize)
  obtain ⟨e', he', hkeyed, hused⟩ := (keyed_new platform file dbKey .empty).onEvent
    event true hparse hsalt hiv hfor
  have hneg : event.type < 0 := by
    show r.type < 0
    rw [htype]
    decide
  have hflag : ∀ flag, event.has flag = false := fun flag =>
    (Record.event_has platform.crc32 r.toRecord _ flag).trans (has_zero hflags flag)
  obtain ⟨_, happly, hout⟩ := inv_empty.apply_skip (.inl (hflag .rewrite)) hneg
  obtain ⟨q, hq, hout⟩ := hout.doEvent happly
  have hids : q.ids = [] := map_eq_nil_iff.mp (sublist_nil.mp hout.keys)
  have hkeys : b.encryption.replay platform event = some e' := (if_pos htype).trans he'
  refine ⟨({ b with encryption := e', processor := q, pendingEvents := [] } : Binlog).countEvent
    event, ?_, rfl, hkeyed, ?_, hout.inv, hids, hout.lastId⟩
  · rw [decodeFrom, Binlog.replay, replayAdd_alone (hflag .part) rfl hkeys hq]
    show (if e'.wrongPassword then none else _) = _
    rw [hkeyed.password]
    rfl
  · show ((!e'.dbKey.isEmpty && !e'.dbKeyUsed) || (e'.dbKey.isEmpty && _)) = false
    have hne : e'.dbKey.isEmpty = false := by
      rw [hkeyed.key]
      cases dbKey with
      | empty => cases hfor
      | rawKey data | password data => rfl
    rw [hused, hne]
    rfl

end Tdlib.Binlog
