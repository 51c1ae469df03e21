import Tdlib.Binlog.Contents

/-!
# A log over many sessions

A log is opened with a key, appended to, given another key, closed and opened again; on the way it
regenerates its file whenever the file has grown too large. Each opening hands the contents to a
callback, and that is all that the users of a log get back.

The next id is kept by the users. After an opening they go on from the last id of the log, which may
be a smaller one: a regeneration forgets the ids that are not live.
-/

namespace Tdlib.Binlog

open List

/-- A log at some point of its life, with its key, what has been put into it, and the next id. -/
inductive InUse (platform : Platform) : DbKey → List Content → Nat → Binlog → Prop where
  | opened {entropy dbKey b events} :
      init platform entropy [] dbKey .empty = some (.ok (b, events)) → InUse platform dbKey [] 1 b
  | added {entropy dbKey m n b c} {r : LogRecord} :
      InUse platform dbKey m n b → n < 0x8000000000000000 → r.Fits m n →
      b.addRawEvent platform entropy (r.image platform.crc32) = some c →
      InUse platform dbKey (r.applied m) (n + 1) c
  | flushed {dbKey m n b} : InUse platform dbKey m n b → InUse platform dbKey m n b.flush
  | rekeyed {entropy dbKey newDbKey m n b c} :
      InUse platform dbKey m n b → b.changeKey platform entropy newDbKey = some c →
      InUse platform newDbKey m n c
  /-- All bytes have reached the file, and another object opens it. -/
  | reopened {entropy dbKey m n b c events} : InUse platform dbKey m n b →
      init platform entropy (b.file ++ b.buffer) dbKey .empty = some (.ok (c, events)) →
      InUse platform dbKey m (c.lastId.toNat + 1) c

variable {platform : Platform} {dbKey : DbKey} {m : List Content} {n : Nat} {b : Binlog}

section

variable (h : Holds platform dbKey m n b) (hn : n ≤ 0x8000000000000000) (entropy : Entropy)
include h hn

/-- Without a salt the key is made at once, with a fresh one. -/
theorem Holds.changeKey (newDbKey : DbKey) :
    ∃ c, b.changeKey platform entropy newDbKey = some c ∧ Holds platform newDbKey m n c := by
  obtain ⟨c, hc, hholds, _⟩ := holds_of_doReindex (b := { b with
    encryption := { b.encryption with dbKey := newDbKey, aesCtrKeySalt := [] } }) h.state h.pending
    ⟨rfl, h.keys.password, h.keys.length, .inl rfl⟩ h.shown hn entropy
  exact ⟨c, hc, hholds⟩

theorem Holds.reopen : ∃ c events,
    init platform entropy (b.file ++ b.buffer) dbKey .empty = some (.ok (c, events)) ∧
      events.map content = m ∧ Holds platform dbKey m (c.lastId.toNat + 1) c ∧
        c.lastId.toNat < n := by
  obtain ⟨rs, x, hbytes, hloads⟩ := h.bytes
  rw [hbytes]
  exact hloads.init hn entropy

end

theorem InUse.holds (h : InUse platform dbKey m n b) :
    Holds platform dbKey m n b ∧ n ≤ 0x8000000000000000 := by
  induction h with
  | @opened entropy dbKey b events hb =>
    obtain ⟨d, hd, hholds, _⟩ := init_empty platform entropy dbKey
    cases hd.symm.trans hb
    exact ⟨hholds, by decide⟩
  | @added entropy dbKey m n b c r _ hn hr hc ih =>
    obtain ⟨d, hd, hholds⟩ := ih.1.addRawEvent hn hr entropy
    cases hd.symm.trans hc
    exact ⟨hholds, hn⟩
  | flushed _ ih => exact ⟨ih.1.flush, ih.2⟩
  | @rekeyed entropy dbKey newDbKey m n b c _ hc ih =>
    obtain ⟨d, hd, hholds⟩ := ih.1.changeKey ih.2 entropy newDbKey
    cases hd.symm.trans hc
    exact ⟨hholds, ih.2⟩
  | @reopened entropy dbKey m n b c events _ hc ih =>
    obtain ⟨d, _, hd, _, hholds, hlast⟩ := ih.1.reopen ih.2 entropy
    cases hd.symm.trans hc
    exact ⟨hholds, le_trans hlast ih.2⟩

/-- **A log keeps its contents**, whatever its keys have been, however often its file was
regenerated and opened again. It takes every event that fits and every key; and when it is opened
with its key, the callback is given exactly what was put in, in order. -/
theorem contents_survive (h : InUse platform dbKey m n b) (hn : n < 0x8000000000000000)
    (entropy : Entropy) :
    (∀ r : LogRecord, r.Fits m n →
      ∃ c, b.addRawEvent platform entropy (r.image platform.crc32) = some c) ∧
    (∀ newDbKey, ∃ c, b.changeKey platform entropy newDbKey = some c) ∧
    ∃ c events, init platform entropy (b.file ++ b.buffer) dbKey .empty = some (.ok (c, events)) ∧
      events.map content = m := by
  obtain ⟨hholds, hle⟩ := h.holds
  refine ⟨fun r hr => ?_, fun newDbKey => ?_, ?_⟩
  · obtain ⟨c, hc, _⟩ := hholds.addRawEvent hn hr entropy
    exact ⟨c, hc⟩
  · obtain ⟨c, hc, _⟩ := hholds.changeKey hle entropy newDbKey
    exact ⟨c, hc⟩
  · obtain ⟨c, events, hc, hcontent, _⟩ := hholds.reopen hle entropy
    exact ⟨c, events, hc, hcontent⟩

/-- A log with one event is given a key. -/
theorem contents_survive_rekeyed : ∃ b c, InUse .zeros (.rawKey [7]) [(1, 5, [1, 2, 3, 4])] 2 b ∧
    init .zeros .zeros (b.file ++ b.buffer) (.rawKey [7]) .empty = some (.ok c) ∧
      c.2.map content = [(1, 5, [1, 2, 3, 4])] := by
  let r : LogRecord := ⟨⟨1, 5, 0, [1, 2, 3, 4]⟩, by decide, by decide⟩
  have hr : r.Fits [] 1 := ⟨by decide, fun h => absurd h (by decide), fun _ => by decide⟩
  have ha := @InUse.opened .zeros .zeros .empty _ _ rfl
  obtain ⟨x, hx⟩ := (contents_survive ha (by decide) .zeros).1 r hr
  have hb := ha.added (by decide) hr hx
  rw [show r.applied [] = [(1, 5, [1, 2, 3, 4])] by decide] at hb
  obtain ⟨b, hkey⟩ := (contents_survive hb (by decide) .zeros).2.1 (.rawKey [7])
  obtain ⟨c, events, hc, hm⟩ := (contents_survive (hb.rekeyed hkey) (by decide) .zeros).2.2
  exact ⟨b, (c, events), hb.rekeyed hkey, hc, hm⟩

end Tdlib.Binlog
