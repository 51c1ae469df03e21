import Tdlib.Binlog.Processor

/-!
# What the event index holds

Everything the outside can ask the index about is a function of its live events:
`forEach` lists them and the size total adds up their images. So each branch of
`do_event` is described by what it does to that list, and compaction by doing
nothing to it.

The invariant `Inv` is about the two vectors. The slots' keys (entries without
the low bit) increase, and the key of a live slot is the doubled id of its event.
Doubling wraps around, so nothing here says that the ids themselves increase.
-/

namespace Tdlib.Binlog

open Lib List BinlogEventsProcessor

/-! ## Slots -/

/-- An entry of `ids_` without the deletion bit. -/
def slotKey (id : UInt64) : Nat := id.toNat / 2

theorem and_one_eq_zero (id : UInt64) : id &&& 1 = 0 ↔ id.toNat % 2 = 0 := by
  rw [← UInt64.toNat_inj]
  show id.toNat &&& 1 = 0 ↔ _
  rw [Nat.and_one_is_mod]

theorem toNat_double (id : UInt64) : (id * 2).toNat = id.toNat * 2 % 0x10000000000000000 :=
  UInt64.toNat_mul _ _

theorem double_even (id : UInt64) : (id * 2).toNat % 2 = 0 := by
  rw [toNat_double]
  omega

theorem toNat_double_succ (id : UInt64) : (id * 2 + 1).toNat = (id * 2).toNat + 1 := by
  have heven := double_even id
  have hlt := (id * 2).toNat_lt
  show ((id * 2).toNat + 1) % 2 ^ 64 = _
  omega

theorem slotKey_double_succ (id : UInt64) : slotKey (id * 2 + 1) = slotKey (id * 2) := by
  have heven := double_even id
  rw [slotKey, slotKey, toNat_double_succ]
  omega

/-- Comparing an entry with a doubled id compares keys. -/
theorem lt_double_iff (x id : UInt64) : x < id * 2 ↔ slotKey x < slotKey (id * 2) := by
  have heven := double_even id
  rw [UInt64.lt_iff_toNat_lt, slotKey, slotKey]
  omega

/-- Two events of the same slot. -/
def SameSlot (a b : BinlogEvent) : Prop := a.id * 2 = b.id * 2

instance (a b : BinlogEvent) : Decidable (SameSlot a b) := inferInstanceAs (Decidable (_ = _))

/-! ## Live events -/

/-- The events of the slots whose low bit is clear. -/
def liveEvents : List UInt64 → List BinlogEvent → List BinlogEvent
  | id :: ids, event :: events =>
    if id &&& 1 = 0 then event :: liveEvents ids events else liveEvents ids events
  | _, _ => []

def BinlogEventsProcessor.live (p : BinlogEventsProcessor) : List BinlogEvent :=
  liveEvents p.ids p.events

theorem liveEvents_append {as bs : List UInt64} {es fs : List BinlogEvent}
    (h : as.length = es.length) :
    liveEvents (as ++ bs) (es ++ fs) = liveEvents as es ++ liveEvents bs fs := by
  induction as generalizing es with
  | nil => rw [length_eq_zero_iff.mp h.symm]; rfl
  | cons a as ih =>
    cases es with
    | nil => cases h
    | cons e es =>
      have ih := ih (Nat.succ.inj h)
      simp only [cons_append, liveEvents]
      split <;> simp [ih]

/-- A live slot belongs to the event it holds. -/
def SlotOf (id : UInt64) (event : BinlogEvent) : Prop := id.toNat % 2 = 0 → id = event.id * 2

/-- The sizes of the events' images, added up. -/
def rawSizes (events : List BinlogEvent) : Int :=
  (events.map fun e => (e.rawEvent.length : Int)).sum

/-- The invariant of the index. -/
structure Inv (p : BinlogEventsProcessor) : Prop where
  /-- The vectors have one length, and a live slot's entry is the doubled id of its event. -/
  slots : List.Forall₂ SlotOf p.ids p.events
  /-- The keys increase. -/
  sorted : (p.ids.map slotKey).Pairwise (· < ·)
  total : p.totalEvents = p.ids.length
  empty : p.emptyEvents = p.ids.countP fun id => id &&& 1 ≠ 0
  raw : p.totalRawEventsSize = rawSizes p.live

theorem inv_empty : Inv .empty := ⟨.nil, .nil, rfl, rfl, rfl⟩

variable {p q : BinlogEventsProcessor} {event : BinlogEvent}

variable {ids : List UInt64} {events : List BinlogEvent}

/-- A live event sits in a slot that has its doubled id. -/
theorem double_mem_of_live (h : List.Forall₂ SlotOf ids events)
    (hmem : event ∈ liveEvents ids events) : event.id * 2 ∈ ids := by
  induction h with
  | nil => cases hmem
  | @cons id e ids events hslot _ ih =>
    rw [liveEvents] at hmem
    split at hmem
    · rename_i heven
      rcases mem_cons.mp hmem with rfl | hmem
      · exact mem_cons.mpr (.inl (hslot ((and_one_eq_zero id).mp heven)).symm)
      · exact mem_cons_of_mem _ (ih hmem)
    · exact mem_cons_of_mem _ (ih hmem)

/-! ## Enumeration -/

theorem forEachLoop_eq {prev : Option UInt64} (h : List.Forall₂ SlotOf ids events)
    (hsorted : (ids.map slotKey).Pairwise (· < ·))
    (hprev : ∀ p ∈ prev, ∀ id ∈ ids, slotKey p < slotKey id) :
    forEachLoop prev ids events = some (liveEvents ids events) := by
  induction h generalizing prev with
  | nil => rfl
  | @cons id e ids events _ _ ih =>
    rw [map_cons, pairwise_cons] at hsorted
    have hlt : (prev.all fun p => p < id) = true := by
      cases prev with
      | none => rfl
      | some x =>
        have := hprev x rfl id mem_cons_self
        unfold slotKey at this
        simp only [Option.all_some, decide_eq_true_eq, UInt64.lt_iff_toNat_lt]
        omega
    have hnext : ∀ p ∈ some id, ∀ x ∈ ids, slotKey p < slotKey x := by
      intro p hp x hx
      cases hp
      exact hsorted.1 _ (mem_map_of_mem hx)
    rw [forEachLoop, if_pos hlt, ih hsorted.2 hnext, Option.map_some, liveEvents]

/-- **`for_each` passes its order check and lists the live events.** -/
theorem Inv.forEach_eq (h : Inv p) : p.forEach = some p.live :=
  forEachLoop_eq h.slots h.sorted nofun

/-- The live events come in the order of their doubled ids. -/
theorem pairwise_liveEvents (h : List.Forall₂ SlotOf ids events)
    (hsorted : (ids.map slotKey).Pairwise (· < ·)) :
    (liveEvents ids events).Pairwise fun a b => slotKey (a.id * 2) < slotKey (b.id * 2) := by
  induction h with
  | nil => exact .nil
  | @cons id e ids events hslot hrest ih =>
    rw [map_cons, pairwise_cons] at hsorted
    rw [liveEvents]
    split
    · rename_i heven
      refine pairwise_cons.mpr ⟨fun b hb => ?_, ih hsorted.2⟩
      rw [← hslot ((and_one_eq_zero id).mp heven)]
      exact hsorted.1 _ (mem_map_of_mem (double_mem_of_live hrest hb))
    · exact ih hsorted.2

theorem Inv.live_sorted (h : Inv p) :
    p.live.Pairwise fun a b => slotKey (a.id * 2) < slotKey (b.id * 2) :=
  pairwise_liveEvents h.slots h.sorted

/-! ## Compaction -/

/-- `q` is `p` with dead slots dropped: nothing the outside sees differs. -/
structure Compacted (p q : BinlogEventsProcessor) : Prop where
  inv : Inv q
  live : q.live = p.live
  lastId : q.lastId = p.lastId
  offset : q.offset = p.offset
  ids : q.ids.Sublist p.ids

theorem compactLoop_spec (h : List.Forall₂ SlotOf ids events) :
    compactLoop ids events
        = (ids.filter fun id => id &&& 1 = 0, liveEvents ids events) ∧
      List.Forall₂ SlotOf (ids.filter fun id => id &&& 1 = 0) (liveEvents ids events) ∧
      liveEvents (ids.filter fun id => id &&& 1 = 0) (liveEvents ids events)
        = liveEvents ids events := by
  induction h with
  | nil => exact ⟨rfl, .nil, rfl⟩
  | @cons id e ids events hslot _ ih =>
    obtain ⟨hloop, hslots, hlive⟩ := ih
    by_cases heven : id &&& 1 = 0
    · simp only [compactLoop, hloop, filter_cons, liveEvents, heven, decide_true, if_true, hlive]
      exact ⟨trivial, .cons hslot hslots, trivial⟩
    · simp only [compactLoop, hloop, filter_cons, liveEvents, heven,
        decide_false, if_false, Bool.false_eq_true, hlive]
      exact ⟨trivial, hslots, trivial⟩

/-- **Compaction succeeds and changes nothing that can be observed.** -/
theorem Inv.compactify (h : Inv p) : ∃ q, p.compactify = some q ∧ Compacted p q := by
  obtain ⟨hloop, hslots, hlive⟩ := compactLoop_spec h.slots
  have hsub : (p.ids.filter fun id => id &&& 1 = 0).Sublist p.ids := filter_sublist
  let ids := p.ids.filter fun id => id &&& 1 = 0
  refine ⟨{ p with ids, events := p.live, totalEvents := ids.length, emptyEvents := 0 }, ?_,
    ⟨hslots, ?_, rfl, ?_, ?_⟩, hlive, rfl, rfl, hsub⟩
  · rw [BinlogEventsProcessor.compactify, if_neg (by simp [h.slots.length_eq]), hloop]
    exact if_neg (by simp [hslots.length_eq])
  · exact h.sorted.sublist (hsub.map slotKey)
  · show 0 = countP _ (p.ids.filter _)
    exact (countP_eq_zero.mpr (by simp)).symm
  · exact h.raw.trans (congrArg rawSizes hlive.symm)

/-- What an event leaves behind: the live events, the last id, and which keys may remain. -/
structure Outcome (event : BinlogEvent) (live : List BinlogEvent) (lastId : UInt64)
    (keys : List Nat) (q : BinlogEventsProcessor) : Prop where
  inv : Inv q
  live : q.live = live
  lastId : q.lastId = lastId
  offset : q.offset = event.offset
  keys : (q.ids.map slotKey).Sublist keys

theorem Outcome.compacted {live : List BinlogEvent} {lastId : UInt64} {keys : List Nat}
    (h : Outcome event live lastId keys p) (hq : Compacted p q) :
    Outcome event live lastId keys q :=
  ⟨hq.inv, hq.live.trans h.live, hq.lastId.trans h.lastId, hq.offset.trans h.offset,
    (hq.ids.map slotKey).trans h.keys⟩

/-- Once a branch of `do_event` has been taken, what follows can only compact. -/
theorem Outcome.doEvent {live : List BinlogEvent} {lastId : UInt64} {keys : List Nat}
    (hq : Outcome event live lastId keys q) (h : p.applyEvent event = .ok q) :
    ∃ q', p.doEvent event = some (.ok q') ∧ Outcome event live lastId keys q' := by
  rw [BinlogEventsProcessor.doEvent, h]
  dsimp only
  split
  · obtain ⟨q', hcompact, hq'⟩ := hq.inv.compactify
    exact ⟨q', by rw [hcompact]; rfl, hq.compacted hq'⟩
  · exact ⟨q, rfl, hq⟩

/-! ## Adding -/

theorem rawSizes_append (as bs : List BinlogEvent) :
    rawSizes (as ++ bs) = rawSizes as + rawSizes bs := by
  rw [rawSizes, map_append, sum_append]
  rfl

theorem rawSizes_cons (e : BinlogEvent) (es : List BinlogEvent) :
    rawSizes (e :: es) = e.rawEvent.length + rawSizes es := sum_cons

/-- The keys of the slots are below that of `event`. -/
def KeysBelow (p : BinlogEventsProcessor) (event : BinlogEvent) : Prop :=
  ∀ id ∈ p.ids, slotKey id < slotKey (event.id * 2)

theorem push_live (h : Inv p) (event : BinlogEvent) :
    (p.push event (event.id * 2)).live = p.live ++ [event] := by
  have heven := (and_one_eq_zero _).mpr (double_even event.id)
  show liveEvents (p.ids ++ [event.id * 2]) (p.events ++ [event]) = _
  rw [liveEvents_append h.slots.length_eq, liveEvents, if_pos heven]
  rfl

theorem Inv.push (h : Inv p) (hbelow : KeysBelow p event) : Inv (p.push event (event.id * 2)) := by
  have heven := (and_one_eq_zero _).mpr (double_even event.id)
  refine ⟨rel_append h.slots (.cons (fun _ => rfl) .nil), ?_, ?_, ?_, ?_⟩
  · show ((p.ids ++ [event.id * 2]).map slotKey).Pairwise (· < ·)
    rw [map_append, pairwise_append]
    refine ⟨h.sorted, pairwise_singleton _ _, ?_⟩
    intro k hk k' hk'
    obtain ⟨id, hid, rfl⟩ := mem_map.mp hk
    obtain rfl := mem_singleton.mp hk'
    exact hbelow id hid
  · show p.totalEvents + 1 = (p.ids ++ [event.id * 2]).length
    rw [h.total, length_append]
    rfl
  · show p.emptyEvents = (p.ids ++ [event.id * 2]).countP _
    rw [h.empty]
    simp [heven]
  · rw [push_live h, rawSizes_append, ← h.raw]
    show p.totalRawEventsSize + _ = p.totalRawEventsSize + (_ + 0)
    rw [Int.add_zero]

/-- With all keys below, the event is added, whether or not it has the `Rewrite` flag. -/
theorem applyEvent_add (htype : ¬ event.type < 0) (hbelow : KeysBelow p event) :
    p.applyEvent event = .ok ({ p with offset := event.offset }.push event (event.id * 2)) := by
  have hback : ∀ back, p.ids.getLast? = some back → back < event.id * 2 := fun back hb =>
    (lt_double_iff _ _).mpr (hbelow back (mem_of_getLast? hb))
  rw [applyEvent]
  rw [appendEvent]
  cases hlast : p.ids.getLast? with
  | none => rw [if_neg (by simp), if_neg htype]
  | some back =>
    have hlt := hback back hlast
    have hnot : ¬ event.id * 2 ≤ back := UInt64.not_le.mpr hlt
    rw [if_neg (by simp [hnot]), if_neg htype]
    exact if_pos hlt

/-- **An event above all others is appended.** -/
theorem Inv.apply_add (h : Inv p) (htype : ¬ event.type < 0) (hbelow : KeysBelow p event) :
    ∃ q, p.applyEvent event = .ok q ∧ Outcome event (p.live ++ [event]) event.id
      (p.ids.map slotKey ++ [slotKey (event.id * 2)]) q := by
  have h' : Inv { p with offset := event.offset } := ⟨h.slots, h.sorted, h.total, h.empty, h.raw⟩
  refine ⟨_, applyEvent_add htype hbelow, h'.push hbelow, push_live h' event, rfl, rfl, ?_⟩
  show ((p.ids ++ [event.id * 2]).map slotKey).Sublist _
  rw [map_append]
  exact List.Sublist.refl _

/-! ## Rewriting and erasing -/

theorem forall₂_append_left {α β : Type*} {R : α → β → Prop} {as bs : List α} {cs : List β}
    (h : List.Forall₂ R (as ++ bs) cs) :
    ∃ es fs, cs = es ++ fs ∧ List.Forall₂ R as es ∧ List.Forall₂ R bs fs := by
  induction as generalizing cs with
  | nil => exact ⟨[], cs, rfl, .nil, h⟩
  | cons a as ih =>
    cases h with
    | cons hac hrest =>
      obtain ⟨es, fs, rfl, has, hbs⟩ := ih hrest
      exact ⟨_ :: es, fs, rfl, .cons hac has, hbs⟩

theorem modify_append_cons {α : Type*} (f : α → α) (as : List α) (b : α) (cs : List α) :
    (as ++ b :: cs).modify as.length f = as ++ f b :: cs := by
  induction as with
  | nil => rfl
  | cons a as ih => exact congrArg (a :: ·) ih

/-- The two vectors around the slot of `event`, which holds `old`. -/
structure Around (p : BinlogEventsProcessor) (event old : BinlogEvent) (as bs : List UInt64)
    (es fs : List BinlogEvent) : Prop where
  ids : p.ids = as ++ event.id * 2 :: bs
  events : p.events = es ++ old :: fs
  left : List.Forall₂ SlotOf as es
  slot : SameSlot old event
  right : List.Forall₂ SlotOf bs fs
  below : ∀ a ∈ as, slotKey a < slotKey (event.id * 2)
  above : ∀ b ∈ bs, slotKey (event.id * 2) < slotKey b

theorem Inv.around (h : Inv p) (hmem : event.id * 2 ∈ p.ids) :
    ∃ old as bs es fs, Around p event old as bs es fs := by
  obtain ⟨as, bs, hids⟩ := append_of_mem hmem
  have hslots := h.slots
  have hsorted := h.sorted
  rw [hids] at hslots hsorted
  obtain ⟨es, fs', hevents, hleft, hrest⟩ := forall₂_append_left hslots
  cases hrest with
  | @cons _ old _ fs hslot hright =>
    rw [map_append, pairwise_append, map_cons, pairwise_cons] at hsorted
    refine ⟨old, as, bs, es, fs, hids, hevents, hleft, (hslot (double_even _)).symm, hright,
      fun a ha => ?_, fun b hb => hsorted.2.1.1 _ (mem_map_of_mem hb)⟩
    exact hsorted.2.2 _ (mem_map_of_mem ha) _ mem_cons_self

variable {old : BinlogEvent} {as bs : List UInt64} {es fs : List BinlogEvent}

section

variable (h : Around p event old as bs es fs)
include h

theorem Around.live : p.live = liveEvents as es ++ old :: liveEvents bs fs := by
  have heven := (and_one_eq_zero _).mpr (double_even event.id)
  rw [BinlogEventsProcessor.live, h.ids, h.events, liveEvents_append h.left.length_eq, liveEvents,
    if_pos heven]

/-- The search finds the slot. -/
theorem Around.lowerBound : lowerBound p.ids (event.id * 2) = as.length := by
  rw [h.ids]
  refine lowerBound_append (fun x hx => (lt_double_iff _ _).mpr (h.below x hx)) fun x hx => ?_
  rw [lt_double_iff]
  rcases mem_cons.mp hx with rfl | hx
  · exact lt_irrefl _
  · exact Nat.lt_asymm (h.above x hx)

/-- The slots left and right of it hold other events. -/
theorem Around.other :
    (∀ e ∈ liveEvents as es, ¬ SameSlot e event) ∧ ∀ e ∈ liveEvents bs fs, ¬ SameSlot e event := by
  constructor
  · intro e he hsame
    have := h.below _ (double_mem_of_live h.left he)
    rw [show e.id * 2 = event.id * 2 from hsame] at this
    omega
  · intro e he hsame
    have := h.above _ (double_mem_of_live h.right he)
    rw [show e.id * 2 = event.id * 2 from hsame] at this
    omega

/-- The last entry is not below a slot that exists. -/
theorem Around.back : (p.ids.getLast?.any fun back => back ≥ event.id * 2) = true := by
  obtain ⟨back, hback⟩ : ∃ back, p.ids.getLast? = some back := by
    rw [h.ids]
    exact ⟨_, getLast?_eq_some_getLast (by simp)⟩
  have hmem : back ∈ event.id * 2 :: bs := by
    rw [h.ids, getLast?_append_of_ne_nil _ (by simp)] at hback
    exact mem_of_getLast? hback
  rw [hback, Option.any_some, decide_eq_true_eq]
  refine UInt64.not_lt.mp fun hlt => ?_
  rw [lt_double_iff] at hlt
  rcases mem_cons.mp hmem with rfl | hmem
  · exact lt_irrefl _ hlt
  · exact Nat.lt_asymm hlt (h.above back hmem)

/-- The slot's entry and event, found by position. -/
theorem Around.get : p.ids[as.length]? = some (event.id * 2) ∧ p.events[as.length]? = some old := by
  constructor
  · rw [h.ids, getElem?_append_right le_rfl, Nat.sub_self]
    rfl
  · rw [h.events, h.left.length_eq, getElem?_append_right le_rfl, Nat.sub_self]
    rfl

end

/-- The live events after `event` replaced the one of its slot. -/
def rewritten (event : BinlogEvent) (live : List BinlogEvent) : List BinlogEvent :=
  live.map fun e => if SameSlot e event then event.dropFlag .rewrite else e

/-- The live events after the one of `event`'s slot was erased. -/
def erased (event : BinlogEvent) (live : List BinlogEvent) : List BinlogEvent :=
  live.filter fun e => ¬ SameSlot e event

theorem Around.rewritten_live (h : Around p event old as bs es fs) :
    rewritten event p.live
      = liveEvents as es ++ event.dropFlag .rewrite :: liveEvents bs fs := by
  have hid : ∀ {l : List BinlogEvent}, (∀ e ∈ l, ¬ SameSlot e event) → rewritten event l = l :=
    fun hl => (map_congr_left fun e he => if_neg (hl e he)).trans (map_id' _)
  have hl := hid h.other.1
  have hr := hid h.other.2
  unfold rewritten at hl hr ⊢
  rw [h.live, map_append, map_cons, hl, hr, if_pos h.slot]

theorem Around.erased_live (h : Around p event old as bs es fs) :
    erased event p.live = liveEvents as es ++ liveEvents bs fs := by
  have hid : ∀ {l : List BinlogEvent}, (∀ e ∈ l, ¬ SameSlot e event) → erased event l = l :=
    fun hl => filter_eq_self.mpr fun e he => by simpa using hl e he
  have hl := hid h.other.1
  have hr := hid h.other.2
  unfold erased at hl hr ⊢
  rw [h.live, filter_append, filter_cons_of_neg (by simpa using h.slot), hl, hr]

/-- The index after the slot was rewritten. -/
def Around.rewrite (_ : Around p event old as bs es fs) : BinlogEventsProcessor :=
  { p with
    offset := event.offset
    events := es ++ event.dropFlag .rewrite :: fs
    totalRawEventsSize := p.totalRawEventsSize - old.rawEvent.length + event.rawEvent.length }

/-- The index after the slot was erased. -/
def Around.erase (_ : Around p event old as bs es fs) : BinlogEventsProcessor :=
  { p with
    offset := event.offset
    ids := as ++ (event.id * 2 + 1) :: bs
    events := es ++ old.clear :: fs
    emptyEvents := p.emptyEvents + 1
    totalRawEventsSize := p.totalRawEventsSize - old.rawEvent.length }

section

variable (h : Around p event old as bs es fs)
include h

theorem Around.applyEvent_rewrite (hflag : event.has .rewrite = true)
    (htype : event.type ≠ ServiceTypes.empty.toInt32) : p.applyEvent event = .ok h.rewrite := by
  rw [applyEvent]
  rw [hflag, h.back, Bool.and_self, if_pos rfl, rewriteEvent]
  rw [h.lowerBound, h.get.1, h.get.2, if_neg (by simp), if_neg htype, h.events]
  rw [h.left.length_eq, set_append_right _ _ le_rfl, Nat.sub_self]
  rfl

theorem Around.applyEvent_erase (hflag : event.has .rewrite = true)
    (htype : event.type = ServiceTypes.empty.toInt32) : p.applyEvent event = .ok h.erase := by
  rw [applyEvent]
  rw [hflag, h.back, Bool.and_self, if_pos rfl, rewriteEvent]
  rw [h.lowerBound, h.get.1, h.get.2, if_neg (by simp), if_pos htype, h.events, h.ids]
  rw [set_append_right _ _ le_rfl, Nat.sub_self, h.left.length_eq]
  rw [modify_append_cons]
  rfl

theorem Around.live_rewrite : h.rewrite.live = rewritten event p.live := by
  have heven := (and_one_eq_zero _).mpr (double_even event.id)
  rw [h.rewritten_live]
  show liveEvents p.ids (es ++ _ :: fs) = _
  rw [h.ids, liveEvents_append h.left.length_eq, liveEvents, if_pos heven]

theorem Around.live_erase : h.erase.live = erased event p.live := by
  have hodd : ¬ event.id * 2 + 1 &&& 1 = 0 := by
    have heven := double_even event.id
    rw [and_one_eq_zero, toNat_double_succ]
    omega
  rw [h.erased_live]
  show liveEvents (as ++ _ :: bs) (es ++ _ :: fs) = _
  rw [liveEvents_append h.left.length_eq, liveEvents, if_neg hodd]

theorem Around.inv_rewrite (hp : Inv p) : Inv h.rewrite := by
  refine ⟨?_, hp.sorted, hp.total, hp.empty, ?_⟩
  · show List.Forall₂ SlotOf p.ids _
    rw [h.ids]
    exact rel_append h.left (.cons (fun _ => rfl) h.right)
  rw [h.live_rewrite, h.rewritten_live]
  show p.totalRawEventsSize - _ + _ = _
  rw [hp.raw, h.live]
  simp only [rawSizes_append, rawSizes_cons]
  show _ - _ + _ = _ + ((event.rawEvent.length : Int) + _)
  omega

theorem Around.inv_erase (hp : Inv p) : Inv h.erase := by
  have heven := double_even event.id
  have hodd := toNat_double_succ event.id
  refine ⟨?_, ?_, ?_, ?_, ?_⟩
  · exact rel_append h.left (.cons (fun he => absurd he (by omega)) h.right)
  · have hsorted := hp.sorted
    show ((as ++ _ :: bs).map slotKey).Pairwise (· < ·)
    rw [h.ids] at hsorted
    rw [map_append, map_cons, slotKey_double_succ, ← map_cons, ← map_append]
    exact hsorted
  · show p.totalEvents = _
    rw [hp.total, h.ids]
    show _ = (as ++ _ :: bs).length
    rw [length_append, length_append]
    rfl
  · show p.emptyEvents + 1 = (as ++ _ :: bs).countP _
    have hlive := (and_one_eq_zero (event.id * 2)).mpr heven
    have hdead : ¬ event.id * 2 + 1 &&& 1 = 0 := by rw [and_one_eq_zero]; omega
    rw [hp.empty, h.ids, countP_append, countP_append,
      countP_cons_of_neg (by simp [hlive]), countP_cons_of_pos (by simp [hdead])]
    omega
  · rw [h.live_erase, h.erased_live]
    show p.totalRawEventsSize - _ = _
    rw [hp.raw, h.live]
    simp only [rawSizes_append, rawSizes_cons]
    omega

end

/-- An event whose slot exists and is live. -/
def Names (p : BinlogEventsProcessor) (event : BinlogEvent) : Prop :=
  ∃ old ∈ p.live, SameSlot old event

theorem Inv.names_iff (h : Inv p) : Names p event ↔ event.id * 2 ∈ p.ids := by
  constructor
  · rintro ⟨old, hold, hsame⟩
    rw [← show old.id * 2 = event.id * 2 from hsame]
    exact double_mem_of_live h.slots hold
  · intro hmem
    obtain ⟨old, as, bs, es, fs, har⟩ := h.around hmem
    exact ⟨old, by rw [har.live]; simp, har.slot⟩

/-- **A rewrite replaces the event of its slot.** -/
theorem Inv.apply_rewrite (h : Inv p) (hflag : event.has .rewrite = true)
    (htype : event.type ≠ ServiceTypes.empty.toInt32) (hname : Names p event) :
    ∃ q, p.applyEvent event = .ok q ∧
      Outcome event (rewritten event p.live) p.lastId (p.ids.map slotKey) q := by
  obtain ⟨old, as, bs, es, fs, har⟩ := h.around (h.names_iff.mp hname)
  exact ⟨har.rewrite, har.applyEvent_rewrite hflag htype, har.inv_rewrite h, har.live_rewrite, rfl,
    rfl, List.Sublist.refl _⟩

/-- **An erasure takes the event of its slot away.** -/
theorem Inv.apply_erase (h : Inv p) (hflag : event.has .rewrite = true)
    (htype : event.type = ServiceTypes.empty.toInt32) (hname : Names p event) :
    ∃ q, p.applyEvent event = .ok q ∧
      Outcome event (erased event p.live) p.lastId (p.ids.map slotKey) q := by
  obtain ⟨old, as, bs, es, fs, har⟩ := h.around (h.names_iff.mp hname)
  refine ⟨har.erase, har.applyEvent_erase hflag htype, har.inv_erase h, har.live_erase,
    rfl, rfl, ?_⟩
  show ((as ++ _ :: bs).map slotKey).Sublist _
  rw [har.ids, map_append, map_cons, slotKey_double_succ, ← map_cons, ← map_append]

/-- **A service event is skipped.** -/
theorem Inv.apply_skip (h : Inv p) (hflag : event.has .rewrite = false ∨ KeysBelow p event)
    (htype : event.type < 0) :
    ∃ q, p.applyEvent event = .ok q ∧ Outcome event p.live p.lastId (p.ids.map slotKey) q := by
  refine ⟨{ p with offset := event.offset }, ?_,
    ⟨h.slots, h.sorted, h.total, h.empty, h.raw⟩, rfl, rfl, rfl, List.Sublist.refl _⟩
  rw [applyEvent]
  rw [if_neg ?_, if_pos htype]
  rcases hflag with hflag | hbelow
  · simp [hflag]
  cases hlast : p.ids.getLast? with
  | none => simp
  | some back =>
    have hlt := (lt_double_iff _ _).mpr (hbelow back (mem_of_getLast? hlast))
    simp [UInt64.not_le.mpr hlt]

/-! ## Inversion -/

/-- The keys are below as soon as the last one is. -/
theorem Inv.keysBelow (h : Inv p) (hback : ∀ back ∈ p.ids.getLast?, back < event.id * 2) :
    KeysBelow p event := by
  intro id hid
  rcases eq_nil_or_concat p.ids with hnil | ⟨init, back, hids⟩
  · exact absurd hid (by simp [hnil])
  rw [concat_eq_append] at hids
  have hlt := (lt_double_iff _ _).mp (hback back (by simp [hids]))
  have hsorted := h.sorted
  rw [hids, map_append, pairwise_append] at hsorted
  rw [hids] at hid
  rcases mem_append.mp hid with hinit | hlast
  · have := hsorted.2.2 _ (mem_map_of_mem hinit) (slotKey back) (by simp)
    omega
  · rw [mem_singleton.mp hlast]
    exact hlt

section

variable (h : Inv p) (hok : p.doEvent event = some (.ok q))
include h hok

/-- **The four things an accepted event can do.** -/
theorem Inv.doEvent_cases :
    (¬ event.type < 0 ∧ KeysBelow p event ∧ Outcome event (p.live ++ [event]) event.id
      (p.ids.map slotKey ++ [slotKey (event.id * 2)]) q) ∨
    (event.has .rewrite = true ∧ event.type ≠ ServiceTypes.empty.toInt32 ∧ Names p event ∧
      Outcome event (rewritten event p.live) p.lastId (p.ids.map slotKey) q) ∨
    (event.has .rewrite = true ∧ event.type = ServiceTypes.empty.toInt32 ∧ Names p event ∧
      Outcome event (erased event p.live) p.lastId (p.ids.map slotKey) q) ∨
    (event.type < 0 ∧ Outcome event p.live p.lastId (p.ids.map slotKey) q) := by
  -- each branch is known to give some `q'`, and `do_event` is a function
  have hdet : ∀ {live lastId keys},
      (∃ q', p.applyEvent event = .ok q' ∧ Outcome event live lastId keys q') →
        Outcome event live lastId keys q := by
    rintro live lastId keys ⟨q', happly, hq'⟩
    obtain ⟨q'', hdo, hq''⟩ := hq'.doEvent happly
    rw [hok] at hdo
    cases hdo
    exact hq''
  by_cases hname : event.has .rewrite = true ∧ Names p event
  · by_cases htype : event.type = ServiceTypes.empty.toInt32
    · exact .inr (.inr (.inl ⟨hname.1, htype, hname.2, hdet (h.apply_erase hname.1 htype hname.2)⟩))
    · exact .inr (.inl ⟨hname.1, htype, hname.2, hdet (h.apply_rewrite hname.1 htype hname.2)⟩)
  -- no slot is searched for: the event was skipped or appended
  have hflag : event.has .rewrite = false ∨ KeysBelow p event := by
    by_contra hcon
    rw [not_or, Bool.not_eq_false] at hcon
    obtain ⟨hrew, hkeys⟩ := hcon
    have hback : (p.ids.getLast?.any fun back => back ≥ event.id * 2) = true := by
      by_contra hnone
      refine hkeys (h.keysBelow fun back hb => ?_)
      rw [Option.mem_def.mp hb] at hnone
      simpa using hnone
    have hmiss : p.ids[lowerBound p.ids (event.id * 2)]? ≠ some (event.id * 2) := fun hget =>
      hname ⟨hrew, h.names_iff.mpr (mem_of_getElem? hget)⟩
    have herr : p.applyEvent event = .error (.ignoreRewrite event) := by
      rw [applyEvent]
      rw [hrew, hback]
      exact if_pos hmiss
    rw [BinlogEventsProcessor.doEvent, herr] at hok
    cases hok
  by_cases htype : event.type < 0
  · exact .inr (.inr (.inr ⟨htype, hdet (h.apply_skip hflag htype)⟩))
  have hbelow : KeysBelow p event := by
    by_contra hkeys
    have hrew := hflag.resolve_right hkeys
    obtain ⟨back, hlast, hge⟩ : ∃ back, p.ids.getLast? = some back ∧ ¬ back < event.id * 2 := by
      by_contra hnone
      refine hkeys (h.keysBelow fun back hb => ?_)
      by_contra hlt
      exact hnone ⟨back, hb, hlt⟩
    rw [BinlogEventsProcessor.doEvent, applyEvent] at hok
    rw [hrew, if_neg htype, appendEvent] at hok
    rw [hlast] at hok
    dsimp only at hok
    rw [if_neg hge] at hok
    cases hok
  exact .inl ⟨htype, hbelow, hdet (h.apply_add htype hbelow)⟩

/-- An accepted event keeps the invariant, and the index remembers where the event ended. -/
theorem Inv.doEvent : Inv q ∧ q.offset = event.offset := by
  rcases h.doEvent_cases hok with ⟨_, _, ho⟩ | ⟨_, _, _, ho⟩ | ⟨_, _, _, ho⟩ | ⟨_, ho⟩ <;>
    exact ⟨ho.inv, ho.offset⟩

/-- What holds of the live events and of the new one holds of the live events afterwards. -/
theorem Inv.doEvent_all {P : BinlogEvent → Prop} (hlive : ∀ e ∈ p.live, P e)
    (hadd : ¬ event.type < 0 → P event)
    (hrewrite : event.has .rewrite = true → event.type ≠ ServiceTypes.empty.toInt32 →
      P (event.dropFlag .rewrite)) :
    ∀ e ∈ q.live, P e := by
  intro e he
  rcases h.doEvent_cases hok with ⟨htype, _, ho⟩ | ⟨hflag, htype, _, ho⟩ | ⟨_, _, _, ho⟩ |
    ⟨_, ho⟩ <;> rw [ho.live] at he
  · rcases mem_append.mp he with he | he
    · exact hlive e he
    · rw [mem_singleton.mp he]
      exact hadd htype
  · obtain ⟨x, hx, rfl⟩ := mem_map.mp he
    split
    · exact hrewrite hflag htype
    · exact hlive x hx
  · exact hlive e (mem_filter.mp he).1
  · exact hlive e he

end

end Tdlib.Binlog
