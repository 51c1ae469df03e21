import Tdlib.TQueue.TQueue

/-!
# A queue stays sound

What holds of every queue, with or without a storage: its ids lie below the tail,
only the event right below the tail may have lost its data, the lengths add up,
and a queue with live events has a time at which it is to be looked at.

Here this is shown for the functions that remove events and hand them out. Their
loops only ever call `pop`, so that whatever else `pop` keeps, they keep it too.
-/

namespace Tdlib.TQueue

open Lib Tl List Ordered

variable {queueId : QueueId} {tailId : EventId} {callback callback' : Option TQueueMemoryStorage}
  {q q' : Queue} {e x : RawEvent}

/-! ## Ids -/

namespace EventId

variable {a b : EventId}

theorem lt_iff : a < b ↔ a.value < b.value := Iff.rfl

theorem le_iff : a ≤ b ↔ a.value ≤ b.value := Iff.rfl

theorem next_eq_some : a.next = some b ↔ b.value = a.value + 1 := by
  unfold next fromInt32
  constructor
  · intro h
    split at h
    · cases h
      rfl
    · cases h
  · intro h
    have hb := b.isValidId
    rw [dif_pos (by omega)]
    exact congrArg some (eq_of_value h.symm)

/-- An id below another one is not the last one. -/
theorem next_of_lt (h : a < b) : ∃ c, a.next = some c := by
  have ha := a.isValidId
  have hb := b.isValidId
  rw [lt_iff] at h
  exact ⟨⟨a.value + 1, by omega⟩, next_eq_some.mpr rfl⟩

end EventId

/-! ## One queue -/

/-- The bytes in the events of a list. -/
def lengths (l : List RawEvent) : Nat := (l.map fun e => e.data.length).sum

theorem lengths_perm {l l' : List RawEvent} (h : l.Perm l') : lengths l = lengths l' :=
  (h.map _).sum_nat

theorem lengths_cons (e : RawEvent) (l : List RawEvent) :
    lengths (e :: l) = e.data.length + lengths l := sum_cons

theorem lengths_append (l l' : List RawEvent) : lengths (l ++ l') = lengths l + lengths l' := by
  rw [lengths, map_append, sum_append]
  rfl

namespace Queue

/-- The counters of a queue fit its events. -/
structure Sound (q : Queue) : Prop where
  /-- The ids lie below the tail. -/
  ids : ∀ e ∈ q.events.toList, 0 < e.eventId.value ∧ e.eventId < q.tailId
  /-- Only the event right below the tail may have no data. -/
  blank : ∀ e ∈ q.events.toList, e.data = [] → e.eventId.value + 1 = q.tailId.value
  /-- The lengths add up. -/
  total : q.totalEventLength = lengths q.events.toList
  /-- The limits are kept. -/
  count : q.events.toList.length ≤ maxQueueEvents
  bytes : q.totalEventLength ≤ maxTotalEventLength
  each : ∀ e ∈ q.events.toList, e.data.length ≤ maxEventLength ∧ 0 < e.expiresAt
  /-- `run_gc` will look at a queue with live events. -/
  scheduled : ∀ e ∈ q.events.toList, e.data ≠ [] → q.gcAt ≠ 0

theorem Sound.new : Queue.new.Sound := by
  constructor <;> simp [Queue.new, empty, lengths]

/-- A byte count that was part of the total can be taken from it. -/
theorem subtract_eq {size : Nat} (h : size ≤ q.totalEventLength)
    (hle : q.totalEventLength ≤ maxTotalEventLength) :
    q.subtract size = q.totalEventLength - size := by
  have hmax : maxTotalEventLength = 1073741824 := rfl
  unfold subtract
  omega

section

variable (hq : q.Sound) (he : e ∈ q.events.toList)
include hq he

theorem Sound.length_le :
    q.totalEventLength = e.data.length + lengths (q.events.erase e.eventId).toList := by
  rw [hq.total, lengths_perm (perm_erase he), lengths_cons]

theorem Sound.removeEvent : (q.removeEvent e).Sound := by
  have hmem : ∀ x ∈ (q.removeEvent e).events.toList, x ∈ q.events.toList := fun x hx =>
    (mem_erase.mp hx).1
  have hlen := hq.length_le he
  have htotal : (q.removeEvent e).totalEventLength = q.totalEventLength - e.data.length :=
    subtract_eq (by omega) hq.bytes
  have hcount := (perm_erase he).length_eq
  have hle := hq.count
  have hbytes := hq.bytes
  refine ⟨fun x hx => hq.ids x (hmem x hx), fun x hx => hq.blank x (hmem x hx), ?_, ?_, by omega,
    fun x hx => hq.each x (hmem x hx), fun x hx => hq.scheduled x (hmem x hx)⟩
  · rw [htotal, hlen]
    exact Nat.add_sub_cancel_left _ _
  · show (q.events.erase e.eventId).toList.length ≤ _
    rw [length_cons] at hcount
    omega

/-- The event that is left of the last one. -/
theorem Sound.clearEventData (hlast : e.eventId.value + 1 = q.tailId.value) :
    (q.clearEventData e).Sound := by
  have hmem : ∀ x ∈ (q.clearEventData e).events.toList,
      x = e.clear ∨ x ∈ q.events.toList := fun x hx =>
    (mem_insert.mp hx).imp_right And.left
  have hperm := perm_insert q.events e.clear
  have hlen := hq.length_le he
  have htotal : (q.clearEventData e).totalEventLength = q.totalEventLength - e.data.length :=
    subtract_eq (by omega) hq.bytes
  have hcount := (perm_erase he).length_eq
  have hle := hq.count
  have hbytes := hq.bytes
  refine ⟨fun x hx => ?_, fun x hx => ?_, ?_, ?_, by omega, fun x hx => ?_, fun x hx => ?_⟩
  · rcases hmem x hx with rfl | hx
    · exact hq.ids e he
    · exact hq.ids x hx
  · rcases hmem x hx with rfl | hx
    · exact fun _ => hlast
    · exact hq.blank x hx
  · rw [htotal, hlen]
    refine (Nat.add_sub_cancel_left _ _).trans ?_
    rw [Queue.clearEventData, lengths_perm hperm]
    exact (zero_add _).symm
  · show (q.events.insert e.clear).toList.length ≤ _
    rw [hperm.length_eq]
    exact le_of_eq_of_le hcount.symm hle
  · rcases hmem x hx with rfl | hx
    · exact ⟨Nat.zero_le _, (hq.each e he).2⟩
    · exact hq.each x hx
  · rcases hmem x hx with rfl | hx
    · exact fun h => absurd rfl h
    · exact hq.scheduled x hx

end

end Queue

/-! ## Removing events -/

/-- **What `pop` does**: the event goes, from the storage too if it is there; or it is the last one,
and loses its data; or that has happened before. -/
theorem pop_cases (h : pop queueId tailId callback q e = some (callback', q')) :
    (q' = q.removeEvent e ∧
      (e.logEventId ≠ 0 → callback' = callback.map fun s => s.pop e.logEventId) ∧
      ∀ storage, callback = some storage → e.logEventId ≠ 0 → e.eventId.next ≠ some tailId) ∨
    (∃ storage, callback = some storage ∧ e.logEventId ≠ 0 ∧ e.eventId.next = some tailId ∧
      e.data ≠ [] ∧ q' = q.clearEventData e ∧
      callback' = some (storage.push queueId e.clear).1) ∨
    (callback' = callback ∧ e.eventId.next = some tailId ∧ e.data = [] ∧ q' = q) := by
  cases callback with
  | none =>
    cases h
    exact .inl ⟨rfl, fun _ => rfl, nofun⟩
  | some storage =>
    dsimp only [pop] at h
    split at h
    · rename_i hlog
      cases h
      exact .inl ⟨rfl, fun hne => absurd hlog hne, fun _ _ hne => absurd hlog hne⟩
    rename_i hlog
    split at h
    · cases h
    rename_i next hnext
    split at h
    · rename_i htail
      subst htail
      split at h
      · rename_i hdata
        cases h
        exact .inr (.inl ⟨storage, rfl, hlog, hnext, hdata, rfl, rfl⟩)
      · rename_i hdata
        cases h
        exact .inr (.inr ⟨rfl, hnext, not_not.mp hdata, rfl⟩)
    · rename_i htail
      cases h
      exact .inl ⟨rfl, fun _ => rfl, fun _ _ _ heq => htail (Option.some.inj
        (hnext.symm.trans heq))⟩

/-- `q'` is what `q` has become after the events `gone` were removed. -/
structure Popped (gone : List RawEvent) (q q' : Queue) : Prop where
  tail : q'.tailId = q.tailId
  gcAt : q'.gcAt = q.gcAt
  /-- Readers do not see them any more. -/
  live : q'.live = q.live.filter fun v => v.id ∉ gone.map RawEvent.eventId
  /-- The others are where they were. -/
  others : ∀ x ∈ q.events.toList, x ∉ gone → x ∈ q'.events.toList
  sound : q'.Sound

theorem Popped.refl (hq : q.Sound) : Popped [] q q where
  tail := rfl
  gcAt := rfl
  live := (filter_eq_self.mpr fun _ _ => by simp).symm
  others _ hx _ := hx
  sound := hq

theorem Popped.trans {gone gone' : List RawEvent} {q'' : Queue} (h : Popped gone q q')
    (h' : Popped gone' q' q'') : Popped (gone ++ gone') q q'' where
  tail := h'.tail.trans h.tail
  gcAt := h'.gcAt.trans h.gcAt
  live := by
    rw [h'.live, h.live, filter_filter]
    refine filter_congr fun v _ => ?_
    simp only [map_append, mem_append, not_or]
    rw [Bool.decide_and, Bool.and_comm]
  others x hx hnot := by
    rw [mem_append, not_or] at hnot
    exact h'.others x (h.others x hx hnot.1) hnot.2
  sound := h'.sound

theorem live_removeEvent : (q.removeEvent e).live = q.live.filter fun v => v.id ≠ e.eventId := by
  rw [Queue.live, Queue.live, filter_map, Queue.removeEvent, erase, filter_filter, filter_filter]
  refine congrArg _ (filter_congr fun x _ => ?_)
  rw [Bool.and_comm]
  rfl

theorem live_clearEventData (he : e ∈ q.events.toList) :
    (q.clearEventData e).live = q.live.filter fun v => v.id ≠ e.eventId := by
  have hinsert : (q.clearEventData e).events.toList = q.events.toList.map fun c =>
      if c.eventId = e.eventId then e.clear else c :=
    toList_insert_of_mem (a := e.clear) he rfl
  rw [Queue.live, Queue.live, filter_map, hinsert]
  refine congrArg _ ?_
  induction q.events.toList with
  | nil => rfl
  | cons x l ih =>
    rw [map_cons]
    by_cases hx : x.eventId = e.eventId
    · rw [if_pos hx, filter_cons_of_neg (by simp [RawEvent.clear]), ih, filter_cons]
      split
      · rw [filter_cons_of_neg (by simp [RawEvent.toEvent, hx])]
      · rfl
    · rw [if_neg hx, filter_cons, filter_cons, ih]
      split
      · rw [filter_cons_of_pos (by simp [RawEvent.toEvent, hx])]
      · rfl

variable (queueId callback) in
/-- The tail that is given to `pop` is the one of the queue, or it is no tail at all. -/
theorem pop_ok (hq : q.Sound) (he : e ∈ q.events.toList)
    (htail : tailId = q.tailId ∨ tailId = .empty) :
    ∃ callback' q', pop queueId tailId callback q e = some (callback', q') ∧ Popped [e] q q' := by
  obtain ⟨hpos, hlt⟩ := hq.ids e he
  obtain ⟨next, hnext⟩ := EventId.next_of_lt hlt
  obtain ⟨⟨callback', q'⟩, hpop⟩ :
      ∃ out, pop queueId tailId callback q e = some out := by
    unfold pop
    simp only [hnext]
    repeat' split
    all_goals exact ⟨_, rfl⟩
  refine ⟨callback', q', hpop, ?_⟩
  have hfilter : (q.live.filter fun v => v.id ≠ e.eventId)
      = q.live.filter fun v => v.id ∉ [e].map RawEvent.eventId :=
    filter_congr fun v _ => by simp
  -- an id has a next one, so the tail is not the empty one where they are equal
  have hlast : e.eventId.next = some tailId → e.eventId.value + 1 = q.tailId.value := by
    intro h
    have hvalue := EventId.next_eq_some.mp h
    rcases htail with rfl | rfl
    · exact hvalue.symm
    · have hzero : EventId.empty.value = 0 := rfl
      omega
  rcases pop_cases hpop with ⟨rfl, _⟩ | ⟨_, _, _, heq, _, rfl, _⟩ | ⟨_, heq, hdata, rfl⟩
  · refine ⟨rfl, rfl, live_removeEvent.trans hfilter, fun x hx hne => ?_, hq.removeEvent he⟩
    exact mem_erase.mpr ⟨hx, fun h => hne (mem_singleton.mpr (eq_of_key hx he h))⟩
  · refine ⟨rfl, rfl, (live_clearEventData he).trans hfilter, fun x hx hne => ?_,
      hq.clearEventData he (hlast heq)⟩
    exact mem_insert.mpr (.inr ⟨hx, fun h =>
      hne (mem_singleton.mpr (eq_of_key hx he h))⟩)
  refine ⟨rfl, rfl, ?_, fun x hx _ => hx, hq⟩
  rw [← hfilter, Queue.live, filter_map, filter_filter]
  refine congrArg _ (filter_congr fun x hx => ?_)
  by_cases hx' : x.eventId = e.eventId
  · rw [eq_of_key hx he hx']
    simp [hdata]
  · simp [RawEvent.toEvent, hx']

/-- A property of the storage and the queue that `pop` does not break. -/
def PopStable (queueId : QueueId) (tailId : EventId)
    (R : Option TQueueMemoryStorage → Queue → Prop) : Prop :=
  ∀ ⦃callback q e callback' q'⦄, q.Sound → e ∈ q.events.toList → R callback q →
    pop queueId tailId callback q e = some (callback', q') → R callback' q'

variable {R : Option TQueueMemoryStorage → Queue → Prop}

/-- A loop that pops events of the queue, each of them once. -/
theorem popEach_ok (hstable : PopStable queueId tailId R) {gone : List RawEvent} (hq : q.Sound)
    (h : R callback q) (hgone : ∀ e ∈ gone, e ∈ q.events.toList) (hnodup : gone.Nodup)
    (htail : tailId = q.tailId ∨ tailId = .empty) :
    ∃ callback' q', popEach queueId tailId callback q gone = some (callback', q') ∧
      Popped gone q q' ∧ R callback' q' := by
  induction gone generalizing callback q with
  | nil => exact ⟨callback, q, rfl, .refl hq, h⟩
  | cons e rest ih =>
    obtain ⟨hnot, hrest⟩ := nodup_cons.mp hnodup
    have he := hgone e mem_cons_self
    obtain ⟨callback1, q1, hpop, hpopped⟩ := pop_ok queueId callback hq he htail
    obtain ⟨callback', q', hloop, hall, h'⟩ := ih hpopped.sound (hstable hq he h hpop)
      (fun x hx => hpopped.others x (hgone x (mem_cons_of_mem _ hx)) fun h =>
        hnot (mem_singleton.mp h ▸ hx)) hrest (by rwa [hpopped.tail])
    refine ⟨callback', q', ?_, hpopped.trans hall, h'⟩
    rw [popEach, hpop]
    exact hloop

/-! ## Reading -/

/-- An event that a reader may still be given. -/
def Fresh (unixTimeNow : Int) (e : RawEvent) : Prop := unixTimeNow ≤ e.expiresAt ∧ e.data ≠ []

instance (unixTimeNow : Int) (e : RawEvent) : Decidable (Fresh unixTimeNow e) :=
  inferInstanceAs (Decidable (_ ∧ _))

theorem not_fresh {unixTimeNow : Int} :
    ¬ Fresh unixTimeNow e ↔ e.expiresAt < unixTimeNow ∨ e.data = [] := by
  rw [Fresh, not_and_or, not_le, not_not]

/-- What one call of `do_get` collects from the events `rest`, and what it removes. -/
structure Read (unixTimeNow : Int) (rest : List RawEvent) (room : Nat) (found : List Event)
    (gone : List RawEvent) : Prop where
  /-- As many of the fresh events as there is room for. -/
  found_eq : found = ((rest.filter (Fresh unixTimeNow)).map RawEvent.toEvent).take room
  stale : ∀ e ∈ gone, e ∈ rest ∧ ¬ Fresh unixTimeNow e
  /-- If there was room left, all others were removed. -/
  all : found.length < room → ∀ e ∈ rest, ¬ Fresh unixTimeNow e → e ∈ gone

theorem readyLoop_ok (hstable : PopStable queueId tailId R) (fromId : EventId)
    (unixTimeNow : Int) {size : Nat} {ready : List Event} {rest : List RawEvent} (hq : q.Sound)
    (h : R callback q) (htail : q.tailId = tailId) (hrest : ∀ e ∈ rest, e ∈ q.events.toList)
    (hfrom : ∀ e ∈ rest, fromId ≤ e.eventId) (hnodup : rest.Nodup) (hready : ready.length ≤ size) :
    ∃ callback' q' found gone, readyLoop queueId fromId unixTimeNow size callback q ready rest
        = some (callback', q', ready ++ found) ∧
      Popped gone q q' ∧ R callback' q' ∧
      Read unixTimeNow rest (size - ready.length) found gone := by
  induction rest generalizing callback q ready with
  | nil =>
    exact ⟨callback, q, [], [], by rw [readyLoop, append_nil], .refl hq, h, by simp,
      forall_mem_nil _, fun _ _ h => absurd h (by simp)⟩
  | cons e rest ih =>
    obtain ⟨hnot, hnodup⟩ := nodup_cons.mp hnodup
    have hrest' := fun x hx => hrest x (mem_cons_of_mem e hx)
    have hfrom' := fun x hx => hfrom x (mem_cons_of_mem e hx)
    rw [readyLoop]
    by_cases hfresh : Fresh unixTimeNow e
    · rw [if_neg (fun h => not_fresh.mpr h hfresh), if_neg (not_lt_of_ge (hfrom e mem_cons_self))]
      by_cases hfull : ready.length = size
      · -- no room: the loop ends here
        rw [if_pos hfull, hfull, Nat.sub_self]
        exact ⟨callback, q, [], [], by rw [append_nil], .refl hq, h, by simp,
          forall_mem_nil _, fun h => absurd h (Nat.not_lt_zero _)⟩
      rw [if_neg hfull]
      have hlen : (ready ++ [e.toEvent]).length ≤ size := by
        rw [length_append, length_singleton]
        omega
      obtain ⟨callback', q', found, gone, hloop, hpopped, h', hread⟩ :=
        ih hq h htail hrest' hfrom' hnodup hlen
      have hroom : size - ready.length = size - (ready ++ [e.toEvent]).length + 1 := by
        rw [length_append, length_singleton]
        omega
      refine ⟨callback', q', e.toEvent :: found, gone, ?_, hpopped, h', ?_, ?_, ?_⟩
      · rw [hloop, append_assoc]
        rfl
      · rw [filter_cons_of_pos (by simpa using hfresh), hroom, hread.found_eq]
        rfl
      · exact fun x hx => (hread.stale x hx).imp_left (mem_cons_of_mem _)
      · intro hlt x hx hstale
        rw [length_cons] at hlt
        rcases mem_cons.mp hx with rfl | hx
        · exact absurd hfresh hstale
        · exact hread.all (by omega) x hx hstale
    · rw [if_pos (not_fresh.mp hfresh)]
      have he := hrest e mem_cons_self
      obtain ⟨callback1, q1, hpop, hpopped⟩ := pop_ok queueId callback hq he (.inl htail.symm)
      obtain ⟨callback', q', found, gone, hloop, hall, h', hread⟩ :=
        ih hpopped.sound (hstable hq he h hpop) (hpopped.tail.trans htail)
          (fun x hx => hpopped.others x (hrest' x hx) fun h =>
            hnot (mem_singleton.mp h ▸ hx)) hfrom' hnodup hready
      refine ⟨callback', q', found, [e] ++ gone, ?_, hpopped.trans hall, h', ?_, ?_, ?_⟩
      · rw [htail, hpop]
        exact hloop
      · rw [filter_cons_of_neg (by simpa using hfresh)]
        exact hread.found_eq
      · intro x hx
        rcases mem_cons.mp hx with rfl | hx
        · exact ⟨mem_cons_self, hfresh⟩
        · exact (hread.stale x hx).imp_left (mem_cons_of_mem _)
      · intro hlt x hx hstale
        rcases mem_cons.mp hx with rfl | hx
        · exact mem_cons_self
        · exact mem_cons_of_mem _ (hread.all hlt x hx hstale)

theorem doGet_ok (hstable : PopStable queueId q.tailId R) (hq : q.Sound) (h : R callback q)
    (fromId : EventId) (forget : Bool) (unixTimeNow : Int) (size : Nat) :
    ∃ callback' q' found gone,
      doGet queueId callback q fromId forget unixTimeNow size = some (callback', q', found) ∧
      Popped gone q q' ∧ R callback' q' ∧
      (forget = false → Read unixTimeNow (q.events.lowerBound fromId) size found gone) := by
  obtain ⟨callback1, q1, gone1, hforget, hpopped, h1, hfalse⟩ : ∃ callback1 q1 gone1,
      forgetPrevious queueId callback q fromId forget = some (callback1, q1) ∧
        Popped gone1 q q1 ∧ R callback1 q1 ∧ (forget = false → gone1 = [] ∧ q1 = q) := by
    cases forget with
    | false => exact ⟨callback, q, [], rfl, .refl hq, h, fun _ => ⟨rfl, rfl⟩⟩
    | true =>
      obtain ⟨callback1, q1, hloop, hpopped, h1⟩ := popEach_ok hstable hq h
        (fun e he => ( takeWhile_prefix _).subset he)
        (q.events.nodup.sublist (takeWhile_sublist _)) (.inl rfl)
      exact ⟨callback1, q1, _, hloop, hpopped, h1, nofun⟩
  have hnil : ([] : List Event).length ≤ size := Nat.zero_le _
  obtain ⟨callback', q', found, gone, hloop, hall, h', hread⟩ :=
    readyLoop_ok hstable fromId unixTimeNow hpopped.sound h1 hpopped.tail
      (fun e he => (mem_lowerBound.mp he).1) (fun e he => (mem_lowerBound.mp he).2)
      (q1.events.nodup.sublist (dropWhile_sublist _)) hnil
  refine ⟨callback', q', found, gone1 ++ gone, ?_, hpopped.trans hall, h', ?_⟩
  · rw [doGet, hforget]
    exact hloop
  · intro hf
    obtain ⟨rfl, rfl⟩ := hfalse hf
    exact hread

end Tdlib.TQueue
