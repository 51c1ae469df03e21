import Tdlib.Binlog.ProcessorProof

/-!
# The index refines a map of live events

What `BinlogEventsProcessor` is for, in its own terms: a map from ids to events.
An addition binds a fresh id, a rewrite binds a bound id anew, an erasure unbinds
it, and a service event does nothing. `Agrees` ties the vectors to the map, every
branch of `do_event` keeps it, and whatever a caller can observe follows from it.

The low bit of an entry is taken, so an id has 63 bits left. Two ids that differ
by `2^63` have the same doubled id and the second one is refused.
-/

namespace Tdlib.Binlog

open List BinlogEventsProcessor Function

/-- The purpose of the index: the live events by id, and the ids ever added in order. -/
structure Index where
  live : UInt64 → Option BinlogEvent
  added : List UInt64

namespace Index

def empty : Index := ⟨fun _ => none, []⟩

def add (s : Index) (event : BinlogEvent) : Index :=
  if event.has .rewrite then
    if event.type = ServiceTypes.empty.toInt32 then
      { s with live := Function.update s.live event.id none }
    else { s with live := Function.update s.live event.id (some (event.dropFlag .rewrite)) }
  else if event.type < 0 then s
  else ⟨Function.update s.live event.id (some event), s.added ++ [event.id]⟩

/-- A rewrite or an erasure names a live id; anything else is a service event or has a fresh id
above all those added before. -/
def Admits (s : Index) (event : BinlogEvent) : Prop :=
  if event.has .rewrite then
    (s.live event.id).isSome ∧ (0 ≤ event.type ∨ event.type = ServiceTypes.empty.toInt32)
  else event.type < 0 ∨ ∀ id ∈ s.added, id < event.id

instance (s : Index) (event : BinlogEvent) : Decidable (s.Admits event) :=
  -- by the list, not by all the numbers of 64 bits
  have : Decidable (∀ id ∈ s.added, id < event.id) := decidableBAll _ _
  inferInstanceAs (Decidable (if event.has .rewrite then
    (s.live event.id).isSome ∧ (0 ≤ event.type ∨ event.type = ServiceTypes.empty.toInt32)
    else event.type < 0 ∨ ∀ id ∈ s.added, id < event.id))

def run (s : Index) (events : List BinlogEvent) : Index := events.foldl add s

/-- Every event is admitted when its turn comes. -/
def Admissible : Index → List BinlogEvent → Prop
  | _, [] => True
  | s, event :: events => s.Admits event ∧ Admissible (s.add event) events

instance : (s : Index) → (events : List BinlogEvent) → Decidable (s.Admissible events)
  | _, [] => inferInstanceAs (Decidable True)
  | s, event :: events =>
    have := instDecidableAdmissible (s.add event) events
    inferInstanceAs (Decidable (s.Admits event ∧ Admissible (s.add event) events))

/-- Ids that leave room for the deletion bit. -/
def Small (s : Index) : Prop := ∀ id ∈ s.added, id.toNat < 0x8000000000000000

instance (s : Index) : Decidable s.Small :=
  decidableBAll (fun id : UInt64 => id.toNat < 0x8000000000000000) s.added

variable {s : Index} {event : BinlogEvent}

theorem added_add (s : Index) (event : BinlogEvent) :
    (s.add event).added = s.added ∨ (s.add event).added = s.added ++ [event.id] := by
  unfold add
  split
  · split <;> exact .inl rfl
  · split
    · exact .inl rfl
    · exact .inr rfl

/-- Ids are only ever added. -/
theorem Small.of_run {events : List BinlogEvent} (h : (s.run events).Small) : s.Small := by
  induction events generalizing s with
  | nil => exact h
  | cons event events ih =>
    intro id hid
    refine ih h id ?_
    rcases s.added_add event with heq | heq <;> rw [heq]
    · exact hid
    · exact mem_append_left _ hid

end Index

theorem slotKey_double_of_lt {id : UInt64} (h : id.toNat < 0x8000000000000000) :
    slotKey (id * 2) = id.toNat := by
  rw [slotKey, toNat_double]
  omega

theorem sameSlot_iff {a b : BinlogEvent} (ha : a.id.toNat < 0x8000000000000000)
    (hb : b.id.toNat < 0x8000000000000000) : SameSlot a b ↔ a.id = b.id := by
  refine ⟨fun h => ?_, fun h => by rw [SameSlot, h]⟩
  have := congrArg slotKey h
  rw [slotKey_double_of_lt ha, slotKey_double_of_lt hb] at this
  exact UInt64.toNat_inj.mp this

/-- The vectors of `p` represent the map `s`. -/
structure Agrees (s : Index) (p : BinlogEventsProcessor) : Prop where
  inv : Inv p
  small : s.Small
  live : ∀ id e, s.live id = some e ↔ e ∈ p.live ∧ e.id = id
  /-- Live ids were added, -/
  added : ∀ e ∈ p.live, e.id ∈ s.added
  /-- and so were those of the dead slots. -/
  keys : ∀ k ∈ p.ids.map slotKey, ∃ id ∈ s.added, k = id.toNat
  increasing : s.added.Pairwise (· < ·)
  lastId : p.lastId = s.added.getLast?.getD 0

theorem agrees_empty : Agrees .empty .empty :=
  ⟨inv_empty, nofun, by
    simp [Index.empty, empty, live, liveEvents], by
    simp [empty, live, liveEvents], by
    simp [empty], .nil, rfl⟩

namespace Agrees

variable {s : Index} {p q : BinlogEventsProcessor} {event : BinlogEvent}

section

variable (h : Agrees s p)
include h

/-- A slot is named by its id alone. -/
theorem sameSlot_iff (hid : event.id ∈ s.added) {e : BinlogEvent} (he : e ∈ p.live) :
    SameSlot e event ↔ e.id = event.id :=
  Binlog.sameSlot_iff (h.small _ (h.added e he)) (h.small _ hid)

theorem compacted (hq : Compacted p q) : Agrees s q :=
  ⟨hq.inv, h.small, by rw [hq.live]; exact h.live, by rw [hq.live]; exact h.added,
    fun k hk => h.keys k ((hq.ids.map slotKey).subset hk), h.increasing, hq.lastId.trans h.lastId⟩

/-- A live id is named by the event that carries it. -/
theorem names (hlive : (s.live event.id).isSome) : event.id ∈ s.added ∧ Names p event := by
  obtain ⟨old, hold⟩ := Option.isSome_iff_exists.mp hlive
  obtain ⟨hmem, hid⟩ := (h.live _ _).mp hold
  exact ⟨hid ▸ h.added old hmem, old, hmem, by rw [SameSlot, hid]⟩

theorem rewrite (hid : event.id ∈ s.added) (hname : Names p event)
    (hq : Outcome event (rewritten event p.live) p.lastId (p.ids.map slotKey) q) :
    Agrees { s with live := update s.live event.id (some (event.dropFlag .rewrite)) } q := by
  have hmem : ∀ e, e ∈ q.live ↔ ∃ x ∈ p.live,
      (if SameSlot x event then event.dropFlag .rewrite else x) = e := fun e => by
    rw [hq.live]
    exact mem_map
  refine ⟨hq.inv, h.small, fun id e => ?_, fun e he => ?_, fun k hk => h.keys k (hq.keys.subset hk),
    h.increasing, hq.lastId.trans h.lastId⟩
  · rw [hmem]
    by_cases heq : id = event.id
    · subst heq
      dsimp only
      rw [update_self]
      constructor
      · intro hsome
        cases hsome
        obtain ⟨old, hold, hsame⟩ := hname
        exact ⟨⟨old, hold, if_pos hsame⟩, rfl⟩
      · rintro ⟨⟨x, hx, rfl⟩, hxid⟩
        by_cases hsame : SameSlot x event
        · rw [if_pos hsame]
        · rw [if_neg hsame] at hxid
          exact absurd ((h.sameSlot_iff hid hx).mpr hxid) hsame
    · dsimp only
      rw [update_of_ne heq, h.live]
      constructor
      · rintro ⟨he, rfl⟩
        exact ⟨⟨e, he, if_neg fun hs => heq ((h.sameSlot_iff hid he).mp hs)⟩, rfl⟩
      rintro ⟨⟨x, hx, rfl⟩, hxid⟩
      by_cases hsame : SameSlot x event
      · rw [if_pos hsame] at hxid
        exact absurd hxid.symm heq
      · rw [if_neg hsame] at hxid ⊢
        exact ⟨hx, hxid⟩
  · obtain ⟨x, hx, rfl⟩ := (hmem e).mp he
    split
    · exact hid
    · exact h.added x hx

theorem erase (hid : event.id ∈ s.added)
    (hq : Outcome event (erased event p.live) p.lastId (p.ids.map slotKey) q) :
    Agrees { s with live := update s.live event.id none } q := by
  have hmem : ∀ e, e ∈ q.live ↔ e ∈ p.live ∧ e.id ≠ event.id := by
    intro e
    rw [hq.live, erased, mem_filter]
    refine and_congr_right fun he => ?_
    rw [decide_eq_true_eq, h.sameSlot_iff hid he]
  refine ⟨hq.inv, h.small, fun id e => ?_, fun e he => h.added e ((hmem e).mp he).1,
    fun k hk => h.keys k (hq.keys.subset hk), h.increasing, hq.lastId.trans h.lastId⟩
  rw [hmem]
  dsimp only
  by_cases heq : id = event.id
  · subst heq
    exact ⟨fun hn => absurd hn (by simp), fun hr => absurd hr.2 hr.1.2⟩
  · rw [update_of_ne heq, h.live]
    constructor
    · rintro ⟨he, rfl⟩
      exact ⟨⟨he, heq⟩, rfl⟩
    · exact fun hr => ⟨hr.1.1, hr.2⟩

section

variable (hfresh : ∀ id ∈ s.added, id < event.id) (hsmall : event.id.toNat < 0x8000000000000000)
include hfresh hsmall

/-- A fresh id is above every slot. -/
theorem keysBelow : KeysBelow p event := by
  intro k hk
  obtain ⟨id, hid, hkey⟩ := h.keys _ (mem_map_of_mem hk)
  rw [hkey, slotKey_double_of_lt hsmall]
  exact UInt64.lt_iff_toNat_lt.mp (hfresh id hid)

theorem append
    (hq : Outcome event (p.live ++ [event]) event.id
      (p.ids.map slotKey ++ [slotKey (event.id * 2)]) q) :
    Agrees ⟨update s.live event.id (some event), s.added ++ [event.id]⟩ q := by
  have hmem : ∀ e, e ∈ q.live ↔ e ∈ p.live ∨ e = event := fun e => by
    rw [hq.live, mem_append, mem_singleton]
  refine ⟨hq.inv, fun id hid => ?_, fun id e => ?_, fun e he => ?_, fun k hk => ?_, ?_, ?_⟩
  · rcases mem_append.mp hid with hid | hid
    · exact h.small id hid
    · rw [mem_singleton.mp hid]
      exact hsmall
  · rw [hmem]
    dsimp only
    by_cases heq : id = event.id
    · subst heq
      rw [update_self]
      constructor
      · intro hsome
        cases hsome
        exact ⟨.inr rfl, rfl⟩
      · rintro ⟨he | rfl, hid⟩
        · -- an older event cannot carry the fresh id
          exact absurd (hfresh _ (h.added e he)) (by rw [hid]; exact UInt64.lt_irrefl _)
        · rfl
    · rw [update_of_ne heq, h.live]
      constructor
      · exact fun hr => ⟨.inl hr.1, hr.2⟩
      · rintro ⟨he | rfl, hid⟩
        · exact ⟨he, hid⟩
        · exact absurd hid.symm heq
  · rcases (hmem e).mp he with he | rfl
    · exact mem_append_left _ (h.added e he)
    · exact mem_append_right _ (mem_singleton.mpr rfl)
  · rcases mem_append.mp (hq.keys.subset hk) with hk | hk
    · obtain ⟨id, hid, hkey⟩ := h.keys k hk
      exact ⟨id, mem_append_left _ hid, hkey⟩
    · rw [mem_singleton.mp hk]
      exact ⟨event.id, by simp, slotKey_double_of_lt hsmall⟩
  · refine pairwise_append.mpr ⟨h.increasing, pairwise_singleton _ _, ?_⟩
    intro a ha b hb
    rw [mem_singleton.mp hb]
    exact hfresh a ha
  · rw [hq.lastId]
    simp

end

/-- **An admitted event is accepted, and the map follows.** -/
theorem step (hadm : s.Admits event) (hsmall : (s.add event).Small) :
    ∃ q, p.applyEvent event = .ok q ∧ Agrees (s.add event) q := by
  unfold Index.Admits at hadm
  unfold Index.add at hsmall ⊢
  by_cases hflag : event.has .rewrite = true
  · rw [if_pos hflag] at hadm ⊢
    obtain ⟨hid, hname⟩ := h.names hadm.1
    by_cases htype : event.type = ServiceTypes.empty.toInt32
    · obtain ⟨q, hq, hout⟩ := h.inv.apply_erase hflag htype hname
      rw [if_pos htype]
      exact ⟨q, hq, h.erase hid hout⟩
    · obtain ⟨q, hq, hout⟩ := h.inv.apply_rewrite hflag htype hname
      rw [if_neg htype]
      exact ⟨q, hq, h.rewrite hid hname hout⟩
  rw [if_neg hflag] at hadm hsmall ⊢
  by_cases htype : event.type < 0
  · obtain ⟨q, hq, hout⟩ := h.inv.apply_skip (.inl (by simpa using hflag)) htype
    rw [if_pos htype]
    refine ⟨q, hq, hout.inv, h.small, ?_, ?_, fun k hk => h.keys k (hout.keys.subset hk),
      h.increasing, hout.lastId.trans h.lastId⟩
    · rw [hout.live]
      exact h.live
    · rw [hout.live]
      exact h.added
  · rw [if_neg htype] at hsmall ⊢
    have hfresh := hadm.resolve_left htype
    have hlt : event.id.toNat < 0x8000000000000000 := hsmall _ (by simp)
    obtain ⟨q, hq, hout⟩ := h.inv.apply_add htype (h.keysBelow hfresh hlt)
    exact ⟨q, hq, h.append hfresh hlt hout⟩

/-- The step with the compaction that may follow it. -/
theorem doEvent (hadm : s.Admits event) (hsmall : (s.add event).Small) :
    ∃ q, p.doEvent event = some (.ok q) ∧ Agrees (s.add event) q := by
  obtain ⟨q, happly, hq⟩ := h.step hadm hsmall
  rw [BinlogEventsProcessor.doEvent, happly]
  dsimp only
  split
  · obtain ⟨q', hcompact, hq'⟩ := hq.inv.compactify
    exact ⟨q', by rw [hcompact]; rfl, hq.compacted hq'⟩
  · exact ⟨q, rfl, hq⟩

theorem addAll {events : List BinlogEvent} (hadm : s.Admissible events)
    (hsmall : (s.run events).Small) : ∃ q, p.addAll events = some q ∧ Agrees (s.run events) q := by
  induction events generalizing s p with
  | nil => exact ⟨p, rfl, h⟩
  | cons event events ih =>
    obtain ⟨q, hq, hagrees⟩ := h.doEvent hadm.1 (Index.Small.of_run hsmall)
    obtain ⟨r, hr, hfinal⟩ := ih hagrees hadm.2 hsmall
    refine ⟨r, ?_, hfinal⟩
    rw [addAll, hq]
    exact hr

end

end Agrees

/-! ## What can be observed -/

/-- Everything a caller can ask `p` for is what the map `s` says. -/
structure Shows (s : Index) (p : BinlogEventsProcessor) : Prop where
  /-- `for_each` lists the live events by increasing id, and the size total adds them up. -/
  forEach : ∃ events, p.forEach = some events ∧ (events.Pairwise fun a b => a.id < b.id) ∧
    (∀ id e, s.live id = some e ↔ e ∈ events ∧ e.id = id) ∧
    p.totalRawEventsSize = rawSizes events
  /-- The last id is the largest one ever added. -/
  lastId : (∀ id ∈ s.added, id ≤ p.lastId) ∧ (p.lastId ∈ s.added ∨ s.added = [] ∧ p.lastId = 0)

theorem Agrees.shows {s : Index} {p : BinlogEventsProcessor} (h : Agrees s p) : Shows s p := by
  refine ⟨⟨p.live, h.inv.forEach_eq, ?_, h.live, h.inv.raw⟩, ?_⟩
  · refine h.inv.live_sorted.imp_of_mem fun {a b} ha hb hlt => ?_
    rw [slotKey_double_of_lt (h.small _ (h.added a ha)),
      slotKey_double_of_lt (h.small _ (h.added b hb))] at hlt
    exact UInt64.lt_iff_toNat_lt.mpr hlt
  rw [h.lastId]
  rcases eq_nil_or_concat s.added with hnil | ⟨init, last, heq⟩
  · rw [hnil]
    exact ⟨forall_mem_nil _, .inr ⟨rfl, rfl⟩⟩
  rw [concat_eq_append] at heq
  have hinc := h.increasing
  rw [heq, pairwise_append] at hinc
  rw [heq]
  simp only [getLast?_append]
  refine ⟨fun id hid => ?_, .inl (by simp)⟩
  rcases mem_append.mp hid with hid | hid
  · exact UInt64.le_of_lt (hinc.2.2 id hid last (by simp))
  · rw [mem_singleton.mp hid]
    exact UInt64.le_rfl

/-- **The index shows exactly the live events of any admissible history over 63-bit ids**, and
whatever event comes next, compacting after it changes nothing that can be observed. -/
theorem history_indexed (history : List BinlogEvent) (hadm : Index.empty.Admissible history)
    (hsmall : (Index.empty.run history).Small) :
    ∃ p, BinlogEventsProcessor.empty.addAll history = some p ∧
      Shows (Index.empty.run history) p ∧
      ∀ event, (Index.empty.run history).Admits event →
        ((Index.empty.run history).add event).Small →
        ∃ q q', p.applyEvent event = .ok q ∧ Shows ((Index.empty.run history).add event) q ∧
          q.compactify = some q' ∧ q'.forEach = q.forEach ∧
          q'.totalRawEventsSize = q.totalRawEventsSize ∧ q'.lastId = q.lastId := by
  obtain ⟨p, hp, hagrees⟩ := agrees_empty.addAll hadm hsmall
  refine ⟨p, hp, hagrees.shows, fun event hevent hfits => ?_⟩
  obtain ⟨q, hq, hnext⟩ := hagrees.step hevent hfits
  obtain ⟨q', hcompact, hq'⟩ := hnext.inv.compactify
  refine ⟨q, q', hq, hnext.shows, hcompact, ?_, ?_, hq'.lastId⟩
  · rw [hq'.inv.forEach_eq, hnext.inv.forEach_eq, hq'.live]
  · rw [hq'.inv.raw, hnext.inv.raw, hq'.live]

/-- Two additions, a rewrite of the first, a service event and an erasure of the second. -/
theorem history_indexed_erase :
    let history :=
      [⟨1, 5, 0, [1]⟩, ⟨4, 6, 0, []⟩, ⟨1, 7, 1, []⟩, ⟨0, -3, 0, []⟩, ⟨4, -2, 1, []⟩].map
      fun r : Record => r.event (fun _ => 0) 0
    Index.empty.Admissible history ∧ (Index.empty.run history).Small ∧
      ∃ p, empty.addAll history = some p ∧
        Shows (Index.empty.run history) p := by
  intro history
  have hadm : Index.empty.Admissible history := by decide
  have hsmall : (Index.empty.run history).Small := by decide
  obtain ⟨p, hp, hshows, _⟩ := history_indexed history hadm hsmall
  exact ⟨hadm, hsmall, p, hp, hshows⟩

/-- The doubled id of `2^63` is `0`: adding it after `1` is refused. -/
theorem wide_id_refused :
    let low := (⟨1, 0, 0, []⟩ : Record).event (fun _ => 0) 0
    let high := (⟨0x8000000000000000, 0, 0, []⟩ : Record).event (fun _ => 0) 0
    Index.empty.Admissible [low, high] ∧
      ∃ p e, empty.addAll [low] = some p ∧ p.doEvent high = some (.error e) := by
  intro low high
  exact ⟨by decide, push .empty low 2, .badOrder 0 1 2 0 high 1 32, by decide, by decide⟩

end Tdlib.Binlog
