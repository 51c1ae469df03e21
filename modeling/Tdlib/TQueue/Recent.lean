import Tdlib.TQueue.Calls

/-!
# What a reader can see of a queue

Expired events stay in a queue until something collects them, and with a storage the last event
stays even longer, without its data. Readers see nothing of that: `get` hands out the events that
have data and are not expired, the *recent* ones.

Every operation is described here by what it does to the tail and the recent events of each queue.
Nothing else of a queue is mentioned, so the descriptions are the same with and without a storage.
-/

namespace Tdlib.TQueue

open Lib Tl List Ordered

variable {queueId : QueueId} {callback callback' : Option TQueueMemoryStorage} {q q' : Queue}
  {e : RawEvent} {impl impl' : TQueueImpl} {unixTimeNow : Int}

/-! ## Recent events -/

/-- The events with data that are not expired. -/
def Queue.recent (q : Queue) (unixTimeNow : Int) : List Event :=
  q.live.filter fun v => unixTimeNow ≤ v.expiresAt

theorem Queue.recent_eq (q : Queue) (unixTimeNow : Int) :
    q.recent unixTimeNow = (q.events.toList.filter (Fresh unixTimeNow)).map RawEvent.toEvent := by
  rw [Queue.recent, Queue.live, filter_map, filter_filter]
  refine congrArg _ (filter_congr fun x _ => ?_)
  exact (Bool.decide_and _ _).symm

/-- With time events only go. -/
theorem Queue.recent_later {time : Int} (h : time ≤ unixTimeNow) (q : Queue) :
    q.recent unixTimeNow = (q.recent time).filter fun v => unixTimeNow ≤ v.expiresAt := by
  rw [Queue.recent, Queue.recent, filter_filter]
  refine filter_congr fun v _ => ?_
  rw [← Bool.decide_and]
  exact decide_eq_decide.mpr ⟨fun hv => ⟨hv, by omega⟩, And.left⟩

theorem Popped.recent {gone : List RawEvent} (h : Popped gone q q') (unixTimeNow : Int) :
    q'.recent unixTimeNow
      = (q.recent unixTimeNow).filter fun v => v.id ∉ gone.map RawEvent.eventId := by
  rw [Queue.recent, Queue.recent, h.live, filter_comm]

/-- Nobody misses an event that is not recent. -/
theorem Popped.recent_stale {gone : List RawEvent} (h : Popped gone q q')
    (hstale : ∀ e ∈ gone, e ∈ q.events.toList ∧ ¬Fresh unixTimeNow e) :
    q'.recent unixTimeNow = q.recent unixTimeNow := by
  rw [h.recent]
  refine filter_eq_self.mpr ?_
  intro v hv
  rw [q.recent_eq] at hv
  obtain ⟨x, hx, rfl⟩ := mem_map.mp hv
  obtain ⟨hx, hfresh⟩ := mem_filter.mp hx
  rw [decide_eq_true_eq]
  intro hgone
  obtain ⟨g, hg, hid⟩ := mem_map.mp hgone
  obtain ⟨hmem, hnot⟩ := hstale g hg
  rw [eq_of_key hmem hx hid] at hnot
  exact hnot (by simpa using hfresh)

/-! ## Reading one queue -/

/-- The events below `from_id` go if they are to be forgotten. -/
theorem forgetPrevious_recent (queueId : QueueId) (callback : Option TQueueMemoryStorage)
    (hq : q.Sound) (fromId : EventId) (forget : Bool) :
    ∃ callback' q', forgetPrevious queueId callback q fromId forget = some (callback', q') ∧
      q'.Sound ∧ q'.tailId = q.tailId ∧
      ∀ unixTimeNow, q'.recent unixTimeNow
        = (q.recent unixTimeNow).filter fun v => forget = true → fromId ≤ v.id := by
  cases forget with
  | false =>
    refine ⟨callback, q, rfl, hq, rfl, fun unixTimeNow => ?_⟩
    exact (filter_eq_self.mpr fun v _ => by simp).symm
  | true =>
    obtain ⟨callback', q', hloop, hpopped, -⟩ := popEach_ok (anything_stable queueId _) hq
      (anything callback q) (fun e he => ( takeWhile_prefix _).subset he)
      (q.events.nodup.sublist (takeWhile_sublist fun e => e.eventId < fromId)) (.inl rfl)
    refine ⟨callback', q', hloop, hpopped.sound, hpopped.tail, fun unixTimeNow => ?_⟩
    rw [hpopped.recent]
    refine filter_congr fun v hv => decide_eq_decide.mpr ?_
    rw [q.recent_eq] at hv
    obtain ⟨x, hx, rfl⟩ := mem_map.mp hv
    have hx := mem_of_mem_filter hx
    have hgone : x.eventId ∈ (q.events.toList.takeWhile fun e => e.eventId < fromId).map
        RawEvent.eventId ↔ x.eventId < fromId := by
      constructor
      · intro h
        obtain ⟨g, hg, hid⟩ := mem_map.mp h
        rw [← hid]
        exact (mem_takeWhile_lt.mp hg).2
      · intro h
        exact mem_map_of_mem (mem_takeWhile_lt.mpr ⟨hx, h⟩)
    show x.eventId ∉ _ ↔ (true = true → fromId ≤ x.eventId)
    rw [hgone]
    simp

/-- **What `do_get` finds, and what it leaves.** -/
theorem doGet_recent (queueId : QueueId) (callback : Option TQueueMemoryStorage) (hq : q.Sound)
    (fromId : EventId) (forget : Bool) (unixTimeNow : Int) (size : Nat) :
    ∃ callback' q', doGet queueId callback q fromId forget unixTimeNow size
        = some (callback', q', ((q.recent unixTimeNow).filter fun v => fromId ≤ v.id).take size) ∧
      q'.tailId = q.tailId ∧
      q'.recent unixTimeNow
        = (q.recent unixTimeNow).filter fun v => forget = true → fromId ≤ v.id := by
  obtain ⟨callback1, q1, hforget, hq1, htail1, hrecent1⟩ :=
    forgetPrevious_recent queueId callback hq fromId forget
  have hnil : ([] : List Event).length ≤ size := Nat.zero_le _
  obtain ⟨callback', q', found, gone, hloop, hpopped, -, hread⟩ :=
    readyLoop_ok (anything_stable queueId q1.tailId) fromId unixTimeNow hq1
      (anything callback1 q1) rfl (fun e he => (mem_lowerBound.mp he).1)
      (fun e he => (mem_lowerBound.mp he).2)
      (q1.events.nodup.sublist (dropWhile_sublist _)) hnil
  have hfound : found = ((q.recent unixTimeNow).filter fun v => fromId ≤ v.id).take size := by
    -- what is forgotten is not read
    have hsame : ((q.recent unixTimeNow).filter fun v => fromId ≤ v.id)
        = (q1.recent unixTimeNow).filter fun v => fromId ≤ v.id := by
      rw [hrecent1, filter_filter]
      refine filter_congr fun v _ => ?_
      rw [← Bool.decide_and]
      exact decide_eq_decide.mpr ⟨fun h => ⟨h, fun _ => h⟩, And.left⟩
    rw [hread.found_eq, hsame, q1.recent_eq, q1.events.lowerBound_eq, filter_map, filter_comm]
    rfl
  refine ⟨callback', q', ?_, hpopped.tail.trans htail1, ?_⟩
  · rw [doGet, hforget, ← hfound]
    exact hloop
  · rw [← hrecent1]
    refine hpopped.recent_stale fun e he => ?_
    obtain ⟨hmem, hstale⟩ := hread.stale e he
    exact ⟨(mem_lowerBound.mp hmem).1, hstale⟩

/-! ## Operations that remove events -/

/-- The tails stay, and of the recent events those that `keep` names. -/
structure Filtered (unixTimeNow : Int) (keep : QueueId → Event → Bool) (impl impl' : TQueueImpl) :
    Prop where
  tail : ∀ id, (impl'.queue id).tailId = (impl.queue id).tailId
  recent : ∀ id, (impl'.queue id).recent unixTimeNow
    = ((impl.queue id).recent unixTimeNow).filter (keep id)

def keepAll (_ : QueueId) (_ : Event) : Bool := true

theorem filter_keepAll (id : QueueId) (l : List Event) : l.filter (keepAll id) = l :=
  filter_eq_self.mpr fun _ _ => rfl

theorem Filtered.refl (unixTimeNow : Int) (impl : TQueueImpl) :
    Filtered unixTimeNow keepAll impl impl :=
  ⟨fun _ => rfl, fun id => (filter_keepAll id _).symm⟩

theorem Filtered.trans {impl'' : TQueueImpl} (h : Filtered unixTimeNow keepAll impl impl')
    (h' : Filtered unixTimeNow keepAll impl' impl'') :
    Filtered unixTimeNow keepAll impl impl'' where
  tail id := (h'.tail id).trans (h.tail id)
  recent id := by
    rw [h'.recent, filter_keepAll, h.recent]

variable {keep : QueueId → Event → Bool} {deleted : Nat}

/-- One queue was changed. -/
theorem Filtered.withQueue {queueGcAt : Ordered gcKey}
    (htail : q.tailId = (impl.queue queueId).tailId)
    (hrecent : q.recent unixTimeNow
      = ((impl.queue queueId).recent unixTimeNow).filter (keep queueId))
    (hothers : ∀ id v, id ≠ queueId → keep id v = true) :
    Filtered unixTimeNow keep impl ({ impl with callback, queueGcAt }.withQueue queueId q) where
  tail id := by
    by_cases hid : id = queueId
    · rw [hid, queue_withQueue_self, htail]
    · rw [queue_withQueue_of_ne hid]
      rfl
  recent id := by
    by_cases hid : id = queueId
    · rw [hid, queue_withQueue_self, hrecent]
    · rw [queue_withQueue_of_ne hid]
      exact (filter_eq_self.mpr fun v _ => hothers id v hid).symm

/-- Nothing was there to be removed. -/
theorem Filtered.of_recent (h : ∀ id, ∀ v ∈ (impl.queue id).recent unixTimeNow, keep id v = true) :
    Filtered unixTimeNow keep impl impl :=
  ⟨fun _ => rfl, fun id => (filter_eq_self.mpr (h id)).symm⟩

/-- `forget` leaves all events but one. -/
def keepForget (queueId : QueueId) (eventId : EventId) (id : QueueId) (v : Event) : Bool :=
  decide (id = queueId → v.id ≠ eventId)

/-- `get` leaves the events from `from_id` on. -/
def keepGet (queueId : QueueId) (fromId : EventId) (forget : Bool) (id : QueueId)
    (v : Event) : Bool :=
  decide (id = queueId → forget = true → fromId ≤ v.id)

theorem recent_of_none (h : impl.queues queueId = none) :
    (impl.queue queueId).recent unixTimeNow = [] := by
  rw [TQueueImpl.queue, h]
  rfl

theorem forget_recent (himpl : impl.Sound) (queueId : QueueId) (eventId : EventId)
    (unixTimeNow : Int) :
    ∃ impl', forget impl queueId eventId = some impl' ∧
      Filtered unixTimeNow (keepForget queueId eventId) impl impl' := by
  unfold forget
  split
  · rename_i hnone
    refine ⟨impl, rfl, .of_recent fun id v hv => decide_eq_true fun hid => ?_⟩
    rw [hid, recent_of_none hnone] at hv
    cases hv
  rename_i q hqueues
  have hqueue := queue_of_queues hqueues
  have hq := hqueue ▸ himpl.queues queueId
  split
  · rename_i hfind
    refine ⟨impl, rfl, .of_recent fun id v hv => decide_eq_true fun hid => ?_⟩
    rw [hid, hqueue, q.recent_eq] at hv
    obtain ⟨x, hx, rfl⟩ := mem_map.mp hv
    exact find?_eq_none.mp hfind x (mem_of_mem_filter hx)
  rename_i e hfind
  obtain ⟨he, hid⟩ := find?_eq_some.mp hfind
  obtain ⟨callback', q', hpop, hpopped⟩ := pop_ok queueId impl.callback hq he (.inl rfl)
  rw [hpop]
  refine ⟨_, rfl, .withQueue ?_ ?_ fun id v hne => decide_eq_true fun heq => absurd heq hne⟩
  · rw [hqueue, hpopped.tail]
  · rw [hqueue, hpopped.recent]
    refine filter_congr fun v _ => decide_eq_decide.mpr ?_
    rw [map_singleton, mem_singleton, hid]
    exact ⟨fun h _ => h, fun h => h rfl⟩

/-- **`get` of an id that is neither too old nor too new.** -/
theorem get_recent (himpl : impl.Sound) {fromId : EventId}
    (hlow : (impl.getTail queueId).value - maxQueueEvents ≤ fromId.value)
    (hhigh : fromId.value ≤ (impl.getTail queueId).value + 10) (forget : Bool) (unixTimeNow : Int)
    (size : Nat) :
    ∃ impl' n, get impl queueId fromId forget unixTimeNow size = some (impl', .ok (n,
        (((impl.queue queueId).recent unixTimeNow).filter fun v => fromId ≤ v.id).take size)) ∧
      Filtered unixTimeNow (keepGet queueId fromId forget) impl impl' := by
  rw [getTail_eq] at hlow hhigh
  unfold get
  split
  · rename_i hnone
    rw [recent_of_none hnone]
    refine ⟨impl, 0, by rw [filter_nil, take_nil], .of_recent fun id v hv => ?_⟩
    refine decide_eq_true fun hid => ?_
    rw [hid, recent_of_none hnone] at hv
    cases hv
  rename_i q hqueues
  have hqueue := queue_of_queues hqueues
  have hq := hqueue ▸ himpl.queues queueId
  rw [hqueue] at hlow hhigh ⊢
  -- the head is not above the tail
  have hhead : q.head.value ≤ q.tailId.value := by
    unfold Queue.head
    cases hfirst : q.events.toList.head? with
    | none => exact le_rfl
    | some first =>
      exact le_of_lt (EventId.lt_iff.mp (hq.ids first (mem_of_mem_head? hfirst)).2)
  obtain ⟨callback', q', hget, htail, hrecent⟩ :=
    doGet_recent queueId impl.callback hq fromId forget unixTimeNow size
  rw [if_neg (by omega), if_neg (by omega), hget]
  refine ⟨_, q'.size, rfl, .withQueue ?_ ?_ fun id v hne => decide_eq_true fun heq =>
    absurd heq hne⟩
  · rw [hqueue, htail]
  · rw [hqueue, hrecent]
    refine filter_congr fun v _ => decide_eq_decide.mpr ?_
    exact ⟨fun h _ => h, fun h => h rfl⟩

/-- **What readers see.** Whatever calls came before, `get` hands out the events with data that are
not expired, from `from_id` on and in order, as many as fit; and it takes away nothing recent but
what the reader has confirmed. -/
theorem get_reads (callback : Option TQueueMemoryStorage) {calls : List Call}
    (hvalid : ∀ c ∈ calls, c.Valid) (queueId : QueueId) (fromId : EventId) (forget : Bool)
    (unixTimeNow : Int) (size : Nat) : ∃ impl, runCalls (.new callback) calls = some impl ∧
      ((impl.getTail queueId).value - maxQueueEvents ≤ fromId.value →
        fromId.value ≤ (impl.getTail queueId).value + 10 →
        ∃ impl' n, get impl queueId fromId forget unixTimeNow size = some (impl', .ok (n,
          (((impl.queue queueId).recent unixTimeNow).filter fun v => fromId ≤ v.id).take size)) ∧
        Filtered unixTimeNow (keepGet queueId fromId forget) impl impl') := by
  obtain ⟨impl, hrun, himpl⟩ := runCalls_sound (.new callback) hvalid
  exact ⟨impl, hrun, fun hlow hhigh => get_recent himpl hlow hhigh forget unixTimeNow size⟩

theorem get_reads_one : ∃ impl impl' n, runCalls (.new none) [.run (.push 1 [7] 100 0 oneId 0)]
    = some impl ∧ get impl 1 oneId true 50 9 = some (impl', .ok (n, [⟨oneId, 100, [7], 0⟩])) := by
  have hvalid : ∀ c ∈ [Call.run (.push 1 [7] 100 0 oneId 0)], c.Valid :=
    forall_mem_singleton.mpr (show oneId.next.isSome by decide)
  obtain ⟨impl, hrun, hget⟩ := get_reads none hvalid 1 oneId true 50 9
  cases hrun
  obtain ⟨impl', n, hget, -⟩ := hget (by decide) (by decide)
  exact ⟨_, impl', n, rfl, hget⟩

/-! ## Collecting -/

/-- What one pass does to a queue. A new time is that of a recent event. -/
theorem collect_recent (hq : q.Sound) {gcAt : Int}
    (h : collect callback queueId q unixTimeNow = some (callback', q', gcAt, deleted)) :
    q'.tailId = q.tailId ∧ q'.recent unixTimeNow = q.recent unixTimeNow ∧
      (gcAt ≠ 0 → ∃ v ∈ q.recent unixTimeNow, v.expiresAt = gcAt) := by
  unfold collect at h
  split at h
  · cases h
    exact ⟨rfl, rfl, fun hne => absurd rfl hne⟩
  rename_i first hfirst
  obtain ⟨callback1, q1, hget, htail, hrecent⟩ :=
    doGet_recent queueId callback hq first.eventId false unixTimeNow 1
  obtain ⟨⟨callback2, q2, span⟩, hget', h⟩ := Option.bind_eq_some_iff.mp h
  rw [hget] at hget'
  cases hget'
  dsimp only at h
  split at h
  · obtain ⟨time, htime, h⟩ := Option.bind_eq_some_iff.mp h
    cases h
    refine ⟨htail, hrecent.trans (filter_eq_self.mpr fun v _ => by simp), fun hne => ?_⟩
    cases hspan : ((q.recent unixTimeNow).filter fun v => first.eventId ≤ v.id).take 1 with
    | nil =>
      rw [hspan] at htime
      cases htime
      exact absurd rfl hne
    | cons v rest =>
      have hv : v ∈ q.recent unixTimeNow :=
        mem_of_mem_filter (mem_of_mem_take (hspan ▸ mem_cons_self))
      rw [hspan, newGcAt] at htime
      by_cases hdata : v.data = []
      · rw [if_pos hdata] at htime
        cases htime
      rw [if_neg hdata] at htime
      by_cases hexpiry : v.expiresAt ≥ unixTimeNow
      · rw [if_pos hexpiry] at htime
        exact ⟨v, hv, Option.some.inj htime⟩
      · rw [if_neg hexpiry] at htime
        cases htime
  · cases h

/-- The queue of a pass, with its new time. -/
theorem collectFirst_recent (himpl : impl.Sound) {gcAt : Int}
    (h : collectFirst impl gcAt queueId unixTimeNow = some (impl', deleted)) :
    Filtered unixTimeNow keepAll impl impl' ∧
      ((impl'.queue queueId).gcAt ≠ 0 →
        ∃ v ∈ (impl.queue queueId).recent unixTimeNow,
          v.expiresAt = (impl'.queue queueId).gcAt) := by
  unfold collectFirst at h
  dsimp only at h
  split at h
  · cases h
  obtain ⟨⟨callback', q', time, count⟩, hcollect, h⟩ := Option.bind_eq_some_iff.mp h
  obtain ⟨⟨queueGcAt, q''⟩, hschedule, h⟩ := Option.bind_eq_some_iff.mp h
  cases h
  obtain ⟨s1, -, hschedule⟩ := Option.bind_eq_some_iff.mp hschedule
  obtain ⟨s2, -, hschedule⟩ := Option.bind_eq_some_iff.mp hschedule
  cases hschedule
  obtain ⟨htail, hrecent, htime⟩ := collect_recent (himpl.queues queueId) hcollect
  refine ⟨.withQueue htail ?_ fun _ _ _ => rfl, ?_⟩
  · rw [filter_keepAll]
    exact hrecent
  · rw [queue_withQueue_self]
    exact htime

/-- **`run_gc` collects nothing recent.** -/
theorem runGc_recent (himpl : impl.Sound) (unixTimeNow : Int) :
    ∃ impl' deleted, runGc impl unixTimeNow = some (impl', deleted) ∧
      Filtered unixTimeNow keepAll impl impl' := by
  have hpass : ∀ ⦃impl1 gcAt queueId⦄, impl1.Sound → Filtered unixTimeNow keepAll impl impl1 →
      (gcAt, queueId) ∈ impl1.queueGcAt.toList → gcAt < unixTimeNow → ∃ impl' deleted,
        collectFirst impl1 gcAt queueId unixTimeNow = some (impl', deleted) ∧ impl'.Sound ∧
          Filtered unixTimeNow keepAll impl impl' ∧
            due unixTimeNow impl' < due unixTimeNow impl1 := by
    intro impl1 gcAt queueId himpl1 hfiltered hfirst hdue
    obtain ⟨impl', deleted, hcollect, htouched, hless⟩ := collectFirst_ok himpl1
      (anything_stable queueId _) (fun _ _ _ _ => trivial) (anything _ _) hfirst hdue
    exact ⟨impl', deleted, hcollect, htouched.sound,
      hfiltered.trans (collectFirst_recent himpl1 hcollect).1, hless⟩
  obtain ⟨impl', deleted, hrun, -, hfiltered⟩ := runGc_ok hpass himpl (.refl unixTimeNow impl)
  exact ⟨impl', deleted, hrun, hfiltered⟩

/-- No queue is due after `run_gc`. -/
theorem runGcLoop_done {passes total : Nat}
    (h : runGcLoop unixTimeNow passes impl deleted = some (impl', total)) :
    ∀ x ∈ impl'.queueGcAt.toList, unixTimeNow ≤ x.1 := by
  induction passes generalizing impl deleted with
  | zero => cases h
  | succ passes ih =>
    rw [runGcLoop] at h
    split at h
    · rename_i hnone
      cases h
      intro x hx
      rw [head?_eq_none_iff.mp hnone] at hx
      cases hx
    rename_i gcAt queueId hfirst
    split at h
    · rename_i hlater
      cases h
      intro x hx
      -- the set begins with the earliest time
      obtain ⟨rest, hrest⟩ := head?_eq_some_iff.mp hfirst
      have hle : gcKey (gcAt, queueId) ≤ gcKey x := le_of_head hrest hx
      rcases Prod.Lex.toLex_le_toLex.mp hle with hlt | ⟨heq, -⟩
      · exact le_of_lt (lt_of_le_of_lt hlater hlt)
      · exact le_of_le_of_eq hlater heq
    · obtain ⟨⟨impl1, count⟩, -, h⟩ := Option.bind_eq_some_iff.mp h
      exact ih h

/-- **A queue that is due is emptied** if none of its events are recent. -/
theorem runGc_clears (himpl : impl.Sound) {id : QueueId}
    (hrecent : (impl.queue id).recent unixTimeNow = []) (hpos : 0 < unixTimeNow)
    (hgc : (impl.queue id).gcAt < unixTimeNow) :
    ∃ impl' deleted, runGc impl unixTimeNow = some (impl', deleted) ∧
      (impl'.queue id).live = [] := by
  have hpass : ∀ ⦃impl1 gcAt queueId⦄, impl1.Sound →
      Filtered unixTimeNow keepAll impl impl1 ∧ (impl1.queue id).gcAt < unixTimeNow →
      (gcAt, queueId) ∈ impl1.queueGcAt.toList → gcAt < unixTimeNow → ∃ impl' deleted,
        collectFirst impl1 gcAt queueId unixTimeNow = some (impl', deleted) ∧ impl'.Sound ∧
          (Filtered unixTimeNow keepAll impl impl' ∧ (impl'.queue id).gcAt < unixTimeNow) ∧
          due unixTimeNow impl' < due unixTimeNow impl1 := by
    rintro impl1 gcAt queueId himpl1 ⟨hfiltered, hgc⟩ hfirst hdue
    obtain ⟨impl', deleted, hcollect, htouched, hless⟩ := collectFirst_ok himpl1
      (anything_stable queueId _) (fun _ _ _ _ => trivial) (anything _ _) hfirst hdue
    obtain ⟨hfiltered', htime⟩ := collectFirst_recent himpl1 hcollect
    refine ⟨impl', deleted, hcollect, htouched.sound, ⟨hfiltered.trans hfiltered', ?_⟩, hless⟩
    by_cases hid : id = queueId
    · -- there is no event that could give a new time
      subst hid
      by_contra hlate
      obtain ⟨v, hv, -⟩ := htime (by omega)
      rw [hfiltered.recent, hrecent] at hv
      cases hv
    · rw [htouched.others id hid]
      exact hgc
  obtain ⟨impl', deleted, hrun, himpl', -, hgc'⟩ :=
    runGc_ok hpass himpl ⟨.refl unixTimeNow impl, hgc⟩
  refine ⟨impl', deleted, hrun, eq_nil_iff_forall_not_mem.mpr fun v hv => ?_⟩
  obtain ⟨x, hx, -⟩ := mem_map.mp hv
  obtain ⟨hx, hdata⟩ := mem_filter.mp hx
  have hscheduled := (himpl'.queues id).scheduled x hx (by simpa using hdata)
  have hlate :=
    runGcLoop_done hrun _ ((himpl'.gc ((impl'.queue id).gcAt, id)).mpr ⟨hscheduled, rfl⟩)
  exact absurd hgc' (not_lt.mpr hlate)

/-! ## Pushing -/

/-- The id of the next event of a queue with this tail. -/
def pickId (tailId hintNewId : EventId) : EventId :=
  if tailId.value = 0 ∨ tailId.value + 1 = maxId then hintNewId else tailId

theorem live_dropLast (callback : Option TQueueMemoryStorage) (hq : q.Sound) :
    (dropLast callback q).2.live = q.live := by
  rcases dropLast_cases callback hq with ⟨heq, -⟩ | ⟨init, last, hlist, hblank, herase, heq⟩
  · rw [heq]
  · rw [heq, Queue.live, Queue.live, hlist]
    rw [herase, filter_append, filter_cons_of_neg (by simpa using hblank), filter_nil, append_nil]

/-- A new event comes last. -/
theorem Added.live (h : Added queueId e impl impl') (himpl : impl.Sound) (hdata : e.data ≠ []) :
    (impl'.queue queueId).live = (impl.queue queueId).live ++ [e.toEvent] := by
  obtain ⟨log, hlog⟩ := logEvent_eq (dropLast impl.callback (impl.queue queueId)).1 queueId e
  rw [← live_dropLast impl.callback (himpl.queues queueId), Queue.live, h.events, hlog,
    filter_append, map_append, filter_cons_of_pos (by simpa using hdata)]
  rfl

/-- A queue without events shows none. -/
theorem live_nil (h : q.events.toList = []) : q.live = [] := by
  rw [Queue.live, h]
  rfl

/-- **`push` of an event that is accepted.** Its id is the tail, or the hint if the queue begins
anew. -/
theorem pushChecked_recent (himpl : impl.Sound) {hintNewId : EventId}
    (hhint : hintNewId.next.isSome) (hne : hintNewId.value ≠ 0) {data : Bytes} {expiresAt : Int}
    (hpush : Pushable (impl.queue queueId) data expiresAt) (extra : Int) (random : UInt32) :
    ∃ impl', pushChecked impl queueId data expiresAt extra hintNewId random
        = some (impl', pickId (impl.queue queueId).tailId hintNewId) ∧
      (∀ id, id ≠ queueId → impl'.queue id = impl.queue id) ∧
      (impl'.queue queueId).tailId.value
        = (pickId (impl.queue queueId).tailId hintNewId).value + 1 ∧
      (impl'.queue queueId).live =
        (if (impl.queue queueId).tailId.value + 1 = maxId then [] else (impl.queue queueId).live) ++
          [⟨pickId (impl.queue queueId).tailId hintNewId, expiresAt, data, extra⟩] := by
  have hq := himpl.queues queueId
  obtain ⟨first, hfirst, hpos, hnext, hcases⟩ := chooseId_cases (anything_stable queueId .empty) hq
    (anything impl.callback _) hhint random
  have hhinted : first = hintNewId := by
    unfold firstId at hfirst
    rw [if_neg hne] at hfirst
    exact (Option.some.inj hfirst).symm
  subst hhinted
  -- the queue that is ready, and what can be seen of it
  obtain ⟨callback, q, hchoose, hchosen, hlive⟩ : ∃ callback q,
      chooseId impl.callback (impl.queue queueId) queueId first random
        = some (callback, q, pickId (impl.queue queueId).tailId first) ∧
      Chosen (impl.queue queueId) q (pickId (impl.queue queueId).tailId first) ∧
      q.live = if (impl.queue queueId).tailId.value + 1 = maxId then []
        else (impl.queue queueId).live := by
    rcases hcases with ⟨hzero, hchoose⟩ | ⟨hpos', hroom, hchoose⟩ |
      ⟨hpos', hlast, callback, q, hpopped, hnil, -, hchoose⟩
    · rw [pickId, if_pos (.inl hzero), if_neg (by omega)]
      exact ⟨impl.callback, _, hchoose, ⟨hq.withTail (hq.nil_of_tail hzero) first, rfl, hpos, hnext,
        rfl, le_rfl, le_rfl⟩, rfl⟩
    · rw [pickId, if_neg (by omega), if_neg (by omega)]
      exact ⟨impl.callback, _, hchoose, ⟨hq, rfl, hpos', hroom, rfl, le_rfl, le_rfl⟩,
        rfl⟩
    rw [pickId, if_pos (.inr hlast), if_pos hlast]
    have htotal : q.totalEventLength = 0 := by
      rw [hpopped.sound.total, hnil]
      rfl
    refine ⟨callback, _, hchoose, ⟨hpopped.sound.withTail hnil first, rfl, hpos, hnext,
      hpopped.gcAt, ?_, ?_⟩, live_nil hnil⟩
    · rw [hnil]
      exact Nat.zero_le _
    · rw [htotal]
      exact Nat.zero_le _
  have htouched := Touched.of_sound (R := Anything) himpl hchosen.sound hchosen.gcAt
    (anything callback q)
  obtain ⟨impl', hpushed, hadded⟩ := pushChecked_chosen himpl hchoose hchosen hpush extra
  refine ⟨impl', hpushed, fun id hid => (hadded.queue_of_ne hid).trans (htouched.others id hid),
    hadded.tail, ?_⟩
  rw [hadded.live htouched.sound hpush.nonempty, queue_withQueue_self, hlive]
  rfl

/-- What is wrong with an event, apart from the queue. -/
def refusal (data : Bytes) (expiresAt : Int) : Option PushError :=
  if data = [] then some .dataIsEmpty
  else if data.length > maxEventLength then some .dataIsTooBig
  else if expiresAt ≤ 0 then some .alreadyExpired
  else none

/-- A queue with room refuses an event only for what is wrong with it. -/
theorem push_room {data : Bytes}
    (hcount : (impl.queue queueId).events.toList.length < maxQueueEvents)
    (hbytes : (impl.queue queueId).totalEventLength + data.length ≤ maxTotalEventLength)
    (expiresAt extra : Int) (hintNewId : EventId) (random : UInt32) :
    (∃ error impl', refusal data expiresAt = some error ∧
        push impl queueId data expiresAt extra hintNewId random = some (impl', .error error) ∧
        Unchanged impl impl') ∨
      refusal data expiresAt = none ∧ Pushable (impl.queue queueId) data expiresAt ∧
        push impl queueId data expiresAt extra hintNewId random
          = (pushChecked impl queueId data expiresAt extra hintNewId random).map
              fun (impl, eventId) => (impl, .ok eventId) := by
  have hsame : Unchanged impl impl := ⟨fun _ => rfl, rfl, rfl⟩
  unfold push refusal
  by_cases hdata : data = []
  · rw [if_pos hdata, if_pos hdata]
    exact .inl ⟨_, impl, rfl, rfl, hsame⟩
  rw [if_neg hdata, if_neg hdata]
  by_cases hsize : data.length > maxEventLength
  · rw [if_pos hsize, if_pos hsize]
    exact .inl ⟨_, impl, rfl, rfl, hsame⟩
  have hfits : ¬(impl.queue queueId).totalEventLength > maxTotalEventLength - data.length := by
    omega
  rw [if_neg hsize, if_neg hsize, if_neg (Nat.not_le_of_lt hcount), if_neg hfits]
  by_cases hexpiry : expiresAt ≤ 0
  · rw [if_pos hexpiry, if_pos hexpiry]
    exact .inl ⟨_, _, rfl, rfl, .withQueue _ _⟩
  rw [if_neg hexpiry, if_neg hexpiry]
  exact .inr ⟨rfl, ⟨hdata, by omega, hcount, hbytes, by omega⟩, rfl⟩

end Tdlib.TQueue
