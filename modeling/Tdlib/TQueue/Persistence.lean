import Tdlib.TQueue.Sound

/-!
# The storage can be replayed

The storage mirrors the queues: what it holds of a queue, in the order of the log
ids, is the list of the events of the queue. The events of a queue get their log
ids in the order of their event ids, so this is also the order in which `replay`
needs them.

The tail is not stored. But there is an event right below it as soon as anything
was pushed, with its data or without, and so the queues come back with their
tails.
-/

namespace Tdlib.TQueue

open Lib Tl List Ordered

variable {n : Nat} {queueId : QueueId} {tailId : EventId} {storage storage' : TQueueMemoryStorage}
  {callback callback' : Option TQueueMemoryStorage} {q q' : Queue} {e x : RawEvent}
  {impl impl' : TQueueImpl}

/-! ## What the storage holds of a queue -/

/-- The event as `replay` pushes it. -/
def Stored.restored (x : Stored) : RawEvent := { x.event with logEventId := x.logEventId }

/-- The events of one queue among the entries of a storage. -/
def sliceOf (l : List Stored) (queueId : QueueId) : List RawEvent :=
  (l.filter fun x => x.queueId = queueId).map Stored.restored

namespace TQueueMemoryStorage

def slice (storage : TQueueMemoryStorage) (queueId : QueueId) : List RawEvent :=
  sliceOf storage.events.toList queueId

/-- `n - 1` log ids were given away. -/
structure Numbered (n : Nat) (storage : TQueueMemoryStorage) : Prop where
  next : storage.nextLogEventId = n % 0x10000000000000000
  pos : 0 < n
  keys : ∀ x ∈ storage.events.toList, 0 < x.logEventId ∧ x.logEventId < n

theorem mem_slice : e ∈ storage.slice queueId ↔
    ∃ x ∈ storage.events.toList, x.queueId = queueId ∧ x.restored = e := by
  rw [slice, sliceOf, mem_map]
  simp only [mem_filter, decide_eq_true_eq, and_assoc]

theorem Numbered.log_pos (h : storage.Numbered n) (he : e ∈ storage.slice queueId) :
    0 < e.logEventId := by
  obtain ⟨x, hx, _, rfl⟩ := mem_slice.mp he
  exact (h.keys x hx).1

/-- A log id belongs to one event. -/
theorem eq_of_log {id : QueueId} (he : e ∈ storage.slice queueId) (hx : x ∈ storage.slice id)
    (h : e.logEventId = x.logEventId) : id = queueId ∧ e = x := by
  obtain ⟨y, hy, rfl, rfl⟩ := mem_slice.mp he
  obtain ⟨z, hz, rfl, rfl⟩ := mem_slice.mp hx
  obtain rfl := eq_of_key hy hz h
  exact ⟨rfl, rfl⟩

theorem slice_pop (storage : TQueueMemoryStorage) (log : Nat) (queueId : QueueId) :
    (storage.pop log).slice queueId
      = (storage.slice queueId).filter fun e => e.logEventId ≠ log := by
  rw [slice, slice, sliceOf, sliceOf, filter_map, pop, erase, filter_filter, filter_filter]
  refine congrArg _ (filter_congr fun x _ => ?_)
  rw [Bool.and_comm]
  rfl

theorem Numbered.pop (h : storage.Numbered n) (log : Nat) : (storage.pop log).Numbered n :=
  ⟨h.next, h.pos, fun x hx => h.keys x (mem_erase.mp hx).1⟩

/-- A new event comes last. -/
theorem slice_push_new (h : storage.Numbered n) (hn : n < 0x10000000000000000)
    (he : e.logEventId = 0) (queueId : QueueId) :
    (storage.push queueId e).2 = n ∧ (storage.push queueId e).1.Numbered (n + 1) ∧
      ∀ id, (storage.push queueId e).1.slice id = storage.slice id ++
        if id = queueId then [{ e with logEventId := n }] else [] := by
  have hnext : storage.nextLogEventId = n := h.next.trans (Nat.mod_eq_of_lt hn)
  rw [push, if_pos he]
  rw [hnext]
  have hinsert : (storage.events.insert ⟨n, queueId, e⟩).toList
      = storage.events.toList ++ [⟨n, queueId, e⟩] :=
    toList_insert_of_lt fun x hx => (h.keys x hx).2
  refine ⟨rfl, ⟨rfl, Nat.succ_pos n, fun x hx => ?_⟩, fun id => ?_⟩
  · rw [hinsert, mem_append] at hx
    rcases hx with hx | hx
    · exact ⟨(h.keys x hx).1, Nat.lt_succ_of_lt (h.keys x hx).2⟩
    · rw [mem_singleton.mp hx]
      exact ⟨h.pos, Nat.lt_succ_self n⟩
  rw [slice, hinsert, sliceOf, filter_append, map_append]
  by_cases hid : id = queueId
  · rw [if_pos hid, filter_cons_of_pos (by simp [hid])]
    rfl
  · rw [if_neg hid, filter_cons_of_neg (by simp [Ne.symm hid])]
    rfl

/-- A known event keeps its place. -/
theorem slice_push_old (h : storage.Numbered n) (he : e ∈ storage.slice queueId)
    (hlog : x.logEventId = e.logEventId) :
    (storage.push queueId x).1.Numbered n ∧ ∀ id, (storage.push queueId x).1.slice id
      = (storage.slice id).map fun y => if y.logEventId = e.logEventId then x else y := by
  obtain ⟨z, hz, hqueue, hrestored⟩ := mem_slice.mp he
  have hzlog : z.logEventId = x.logEventId := by
    rw [hlog, ← hrestored]
    rfl
  have hpos := h.log_pos he
  rw [push, if_neg (by omega)]
  have hinsert : (storage.events.insert ⟨x.logEventId, queueId, x⟩).toList
      = storage.events.toList.map fun c =>
        if c.logEventId = x.logEventId then ⟨x.logEventId, queueId, x⟩ else c :=
    toList_insert_of_mem hz hzlog.symm
  refine ⟨⟨h.next, h.pos, fun y hy => ?_⟩, fun id => ?_⟩
  · rcases mem_insert.mp hy with rfl | ⟨hy, _⟩
    · exact hzlog ▸ h.keys z hz
    · exact h.keys y hy
  rw [slice, hinsert, sliceOf, filter_map, map_map, slice, sliceOf, map_map]
  have hfilter : storage.events.toList.filter ((fun y : Stored => decide (y.queueId = id)) ∘
      fun c => if c.logEventId = x.logEventId then ⟨x.logEventId, queueId, x⟩ else c)
      = storage.events.toList.filter fun y => y.queueId = id := by
    refine filter_congr fun c hc => ?_
    dsimp only [Function.comp]
    split
    · rename_i hlog'
      rw [eq_of_key hc hz (hlog'.trans hzlog.symm), hqueue]
    · rfl
  rw [hfilter]
  refine map_congr_left fun c _ => ?_
  dsimp only [Function.comp]
  rw [← hlog]
  show _ = if c.logEventId = x.logEventId then x else c.restored
  by_cases hc : c.logEventId = x.logEventId
  · rw [if_pos hc, if_pos hc]
    rfl
  · rw [if_neg hc, if_neg hc]

end TQueueMemoryStorage

/-! ## The storage mirrors the queues -/

/-- What the storage holds of one queue are the events `l`. Of the other queues it holds what
`storage` does. -/
def Mirror (n : Nat) (queueId : QueueId) (storage : TQueueMemoryStorage)
    (callback : Option TQueueMemoryStorage) (l : List RawEvent) : Prop :=
  ∃ storage', callback = some storage' ∧ storage'.Numbered n ∧ storage'.slice queueId = l ∧
    ∀ id, id ≠ queueId → storage'.slice id = storage.slice id

/-- An event is erased from the queue and from the storage. -/
theorem Mirror.erase (h : Mirror n queueId storage callback q.events.toList)
    (he : e ∈ q.events.toList) :
    Mirror n queueId storage (callback.map fun s => s.pop e.logEventId)
      (q.events.erase e.eventId).toList := by
  obtain ⟨storage', rfl, hnum, hslice, hothers⟩ := h
  have hmem : e ∈ storage'.slice queueId := hslice ▸ he
  refine ⟨storage'.pop e.logEventId, rfl, hnum.pop _, ?_, fun id hid => ?_⟩
  · -- the two ids of an event name the same one
    rw [storage'.slice_pop, hslice]
    refine filter_congr fun x hx => decide_eq_decide.mpr (not_congr ⟨fun hlog => ?_, fun hid => ?_⟩)
    · rw [(TQueueMemoryStorage.eq_of_log hmem (hslice ▸ hx) hlog.symm).2]
    · rw [eq_of_key hx he hid]
  · rw [storage'.slice_pop, ← hothers id hid]
    refine filter_eq_self.mpr fun x hx => ?_
    simpa using fun hlog => hid (TQueueMemoryStorage.eq_of_log hmem hx hlog.symm).1

/-- An event loses its data in the queue and in the storage. -/
theorem Mirror.clear (h : Mirror n queueId storage (some storage') q.events.toList)
    (he : e ∈ q.events.toList) :
    Mirror n queueId storage (some (storage'.push queueId e.clear).1)
      (q.events.insert e.clear).toList := by
  obtain ⟨_, heq, hnum, hslice, hothers⟩ := h
  cases heq
  have hmem : e ∈ storage'.slice queueId := hslice ▸ he
  obtain ⟨hnum', hslices⟩ := TQueueMemoryStorage.slice_push_old (x := e.clear) hnum hmem rfl
  refine ⟨_, rfl, hnum', ?_, fun id hid => ?_⟩
  · rw [hslices, hslice, toList_insert_of_mem (a := e.clear) he rfl]
    refine map_congr_left fun x hx => ?_
    by_cases hid : x.eventId = e.eventId
    · rw [eq_of_key hx he hid, if_pos rfl]
      exact (if_pos rfl).symm
    · rw [if_neg fun hlog => hid ?_]
      · exact (if_neg hid).symm
      · rw [(TQueueMemoryStorage.eq_of_log hmem (hslice ▸ hx) hlog.symm).2]
  · rw [hslices, ← hothers id hid]
    refine (map_congr_left fun x hx => ?_).trans (map_id' _)
    exact if_neg fun hlog => hid (TQueueMemoryStorage.eq_of_log hmem hx hlog.symm).1

section

variable (h : Mirror n queueId storage callback q.events.toList) (he : e ∈ q.events.toList)
include h he

theorem Mirror.log_ne : e.logEventId ≠ 0 := by
  obtain ⟨storage', _, hnum, hslice, _⟩ := h
  exact ne_of_gt (hnum.log_pos (hslice ▸ he : e ∈ storage'.slice queueId))

/-- **`pop` keeps the mirror**, whatever the tail. -/
theorem Mirror.pop (hpop : pop queueId tailId callback q e = some (callback', q')) :
    Mirror n queueId storage callback' q'.events.toList := by
  have hlog := h.log_ne he
  rcases pop_cases hpop with ⟨rfl, hcallback, _⟩ | ⟨storage', rfl, _, _, _, rfl, rfl⟩ |
    ⟨rfl, _, _, rfl⟩
  · rw [hcallback hlog]
    exact h.erase he
  · exact h.clear he
  · exact h

end

theorem mirror_stable (n : Nat) (queueId : QueueId) (storage : TQueueMemoryStorage)
    (tailId : EventId) :
    PopStable queueId tailId fun callback q => Mirror n queueId storage callback q.events.toList :=
  fun _ _ _ _ _ _ he h hpop => h.pop he hpop

theorem Mirror.dropLast (h : Mirror n queueId storage callback q.events.toList) (hq : q.Sound) :
    Mirror n queueId storage (TQueue.dropLast callback q).1
      (TQueue.dropLast callback q).2.events.toList := by
  rcases dropLast_cases callback hq with ⟨heq, _⟩ | ⟨init, last, hlist, _, _, heq⟩
  · rw [heq]
    exact h
  have hmem : last ∈ q.events.toList := by
    rw [hlist]
    exact mem_append_right _ (mem_singleton.mpr rfl)
  rw [heq]
  rw [if_pos (h.log_ne hmem)]
  exact h.erase hmem

/-- A new event is added to both. -/
theorem Mirror.logEvent {l : List RawEvent} (h : Mirror n queueId storage callback l)
    (hn : n < 0x10000000000000000) (he : e.logEventId = 0) :
    Mirror (n + 1) queueId storage (TQueue.logEvent callback queueId e).1
      (l ++ [(TQueue.logEvent callback queueId e).2]) := by
  obtain ⟨storage', rfl, hnum, hslice, hothers⟩ := h
  obtain ⟨hid, hnum', hslices⟩ := TQueueMemoryStorage.slice_push_new hnum hn he queueId
  have heq : TQueue.logEvent (some storage') queueId e
      = (some (storage'.push queueId e).1, { e with logEventId := n }) := by
    dsimp only [TQueue.logEvent]
    rw [if_pos he, hid]
  rw [heq]
  refine ⟨_, rfl, hnum', ?_, fun id hne => ?_⟩
  · rw [hslices, if_pos rfl, hslice]
  · rw [hslices, if_neg hne, append_nil]
    exact hothers id hne

/-- The tail is known: there is an event right below it, unless nothing was ever pushed. -/
def Queue.Ended (q : Queue) : Prop :=
  q.tailId.value = 0 ∨ ∃ x ∈ q.events.toList, x.eventId.value + 1 = q.tailId.value

/-- **`pop` leaves something of the last event.** -/
theorem Queue.Ended.pop (h : q.Ended) (hmirror : Mirror n queueId storage callback q.events.toList)
    (he : e ∈ q.events.toList)
    (hpop : TQueue.pop queueId q.tailId callback q e = some (callback', q')) : q'.Ended := by
  rcases h with hzero | ⟨x, hx, hlast⟩
  · refine .inl ?_
    rcases pop_cases hpop with ⟨rfl, _⟩ | ⟨_, _, _, _, _, rfl, _⟩ | ⟨_, _, _, rfl⟩ <;> exact hzero
  refine .inr ?_
  rcases pop_cases hpop with ⟨rfl, _, hnext⟩ | ⟨_, _, _, hnext, _, rfl, _⟩ | ⟨_, _, _, rfl⟩
  · obtain ⟨storage', hcallback, _⟩ := id hmirror
    refine ⟨x, mem_erase.mpr ⟨hx, fun heq => ?_⟩, hlast⟩
    -- the last event itself would not have been removed
    refine hnext storage' hcallback (hmirror.log_ne he) (EventId.next_eq_some.mpr ?_)
    rw [← heq]
    exact hlast.symm
  · exact ⟨e.clear, mem_insert.mpr (.inl rfl), (EventId.next_eq_some.mp hnext).symm⟩
  · exact ⟨x, hx, hlast⟩

/-! ## Runs -/

/-- **The invariant of the queues and their storage.** -/
structure Persistent (n : Nat) (impl : TQueueImpl) (storage : TQueueMemoryStorage) : Prop where
  sound : impl.Sound
  callback : impl.callback = some storage
  numbered : storage.Numbered n
  /-- The storage has the events of each queue, in their order. -/
  slices : ∀ id, storage.slice id = (impl.queue id).events.toList
  /-- The tail can be told from the events alone. -/
  ended : ∀ id, (impl.queue id).Ended

theorem Persistent.new : Persistent 1 (.new (some .new)) .new where
  sound := .new _
  callback := rfl
  numbered := ⟨rfl, Nat.one_pos, fun _ hx => absurd hx (by
    simp [TQueueMemoryStorage.new, empty])⟩
  slices _ := rfl
  ended _ := .inl rfl

theorem Persistent.mirror (h : Persistent n impl storage) (queueId : QueueId) :
    Mirror n queueId storage impl.callback (impl.queue queueId).events.toList :=
  ⟨storage, h.callback, h.numbered, h.slices queueId, fun _ _ => rfl⟩

/-- One queue was changed, and the storage with it. -/
theorem Persistent.change {m : Nat} (h : Persistent n impl storage) (hsound : impl'.Sound)
    (hmirror : Mirror m queueId storage impl'.callback (impl'.queue queueId).events.toList)
    (hended : (impl'.queue queueId).Ended)
    (hothers : ∀ id, id ≠ queueId → impl'.queue id = impl.queue id) :
    ∃ storage', Persistent m impl' storage' := by
  obtain ⟨storage', hcallback, hnum, hslice, hslices⟩ := hmirror
  refine ⟨storage', hsound, hcallback, hnum, fun id => ?_, fun id => ?_⟩
  · by_cases hid : id = queueId
    · rw [hid, hslice]
    · rw [hslices id hid, h.slices id, hothers id hid]
  · by_cases hid : id = queueId
    · rw [hid]
      exact hended
    · rw [hothers id hid]
      exact h.ended id

/-- What the operations that remove events keep of a queue and its storage. -/
def Follows (n : Nat) (queueId : QueueId) (storage : TQueueMemoryStorage) (tailId : EventId)
    (callback : Option TQueueMemoryStorage) (q : Queue) : Prop :=
  q.tailId = tailId ∧ q.Ended ∧ Mirror n queueId storage callback q.events.toList

theorem follows_stable (n : Nat) (queueId : QueueId) (storage : TQueueMemoryStorage)
    (tailId : EventId) : PopStable queueId tailId (Follows n queueId storage tailId) := by
  rintro callback q e callback' q' _ he ⟨rfl, hended, hmirror⟩ hpop
  refine ⟨?_, hended.pop hmirror he hpop, hmirror.pop he hpop⟩
  rcases pop_cases hpop with ⟨rfl, _⟩ | ⟨_, _, _, _, _, rfl, _⟩ | ⟨_, _, _, rfl⟩ <;> rfl

section

variable (h : Persistent n impl storage)
include h

theorem Persistent.follows (queueId : QueueId) :
    Follows n queueId storage (impl.queue queueId).tailId impl.callback (impl.queue queueId) :=
  ⟨rfl, h.ended queueId, h.mirror queueId⟩

theorem Persistent.touched (ht : Touched (Follows n queueId storage tailId) queueId impl impl') :
    ∃ storage', Persistent n impl' storage' :=
  h.change ht.sound ht.here.2.2 ht.here.2.1 ht.others

theorem Persistent.forget (queueId : QueueId) (eventId : EventId) :
    ∃ impl' storage', TQueue.forget impl queueId eventId = some impl' ∧
      Persistent n impl' storage' := by
  obtain ⟨impl', hforget, ht⟩ := forget_ok h.sound (follows_stable n queueId storage _)
    (h.follows queueId) eventId
  obtain ⟨storage', h'⟩ := h.touched ht
  exact ⟨impl', storage', hforget, h'⟩

theorem Persistent.get (queueId : QueueId) (fromId : EventId) (forgetPrevious : Bool)
    (unixTimeNow : Int) (size : Nat) :
    ∃ impl' answer storage',
      TQueue.get impl queueId fromId forgetPrevious unixTimeNow size = some (impl', answer) ∧
      Persistent n impl' storage' := by
  obtain ⟨impl', answer, hget, ht⟩ := get_ok h.sound (follows_stable n queueId storage _)
    (h.follows queueId) fromId forgetPrevious unixTimeNow size
  obtain ⟨storage', h'⟩ := h.touched ht
  exact ⟨impl', answer, storage', hget, h'⟩

theorem Persistent.runGc (unixTimeNow : Int) :
    ∃ impl' deleted storage', TQueue.runGc impl unixTimeNow = some (impl', deleted) ∧
      Persistent n impl' storage' := by
  have hpass : ∀ ⦃impl gcAt queueId⦄, impl.Sound → (∃ storage, Persistent n impl storage) →
      (gcAt, queueId) ∈ impl.queueGcAt.toList → gcAt < unixTimeNow → ∃ impl' deleted,
        collectFirst impl gcAt queueId unixTimeNow = some (impl', deleted) ∧ impl'.Sound ∧
          (∃ storage', Persistent n impl' storage') ∧
            due unixTimeNow impl' < due unixTimeNow impl := by
    rintro impl gcAt queueId _ ⟨storage, h⟩ hfirst hdue
    obtain ⟨impl', deleted, hcollect, ht, hless⟩ := collectFirst_ok h.sound
      (follows_stable n queueId storage _) (fun _ _ _ hf => hf) (h.follows queueId) hfirst hdue
    exact ⟨impl', deleted, hcollect, ht.sound, h.touched ht, hless⟩
  obtain ⟨impl', deleted, hrun, _, storage', h'⟩ := runGc_ok hpass h.sound ⟨storage, h⟩
  exact ⟨impl', deleted, storage', hrun, h'⟩

end

/-- The event right below the new tail is the new one. -/
theorem Added.ended (h : Added queueId e impl impl') : (impl'.queue queueId).Ended := by
  obtain ⟨log, hlog⟩ := logEvent_eq (dropLast impl.callback (impl.queue queueId)).1 queueId e
  refine .inr ⟨{ e with logEventId := log }, ?_, h.tail.symm⟩
  rw [h.events, hlog]
  exact mem_append_right _ (mem_singleton.mpr rfl)

/-- **`push` keeps the invariant.** A new event uses up one log id. -/
theorem Persistent.push (h : Persistent n impl storage) (hn : n < 0x10000000000000000)
    {hintNewId : EventId} (hhint : hintNewId.next.isSome) (queueId : QueueId) (data : Bytes)
    (expiresAt extra : Int) (random : UInt32) :
    ∃ impl' answer m storage',
      TQueue.push impl queueId data expiresAt extra hintNewId random = some (impl', answer) ∧
      (m = n ∨ m = n + 1) ∧ (Pushable (impl.queue queueId) data expiresAt → m = n + 1) ∧
      (∀ id, id ≠ queueId → impl'.queue id = impl.queue id) ∧ Persistent m impl' storage' := by
  obtain ⟨impl', answer, hpush, hcases⟩ := push_ok h.sound (mirror_stable n queueId storage .empty)
    (fun _ _ _ hm => hm) (h.mirror queueId) hhint data expiresAt extra random
  rcases hcases with ⟨hnot, hsame⟩ | ⟨_, impl1, eventId, _, ht, hadded⟩
  · refine ⟨impl', answer, n, storage, hpush, .inl rfl, fun hp => absurd hp hnot,
      fun id _ => hsame.queue id, ?_, hsame.callback.trans h.callback, h.numbered, fun id => ?_,
      fun id => ?_⟩
    · refine ⟨fun id => ?_, fun x => ?_⟩
      · rw [hsame.queue]
        exact h.sound.queues id
      · rw [hsame.queueGcAt, h.sound.gc x]
        dsimp only
        rw [hsame.queue]
    · rw [hsame.queue, h.slices]
    · rw [hsame.queue]
      exact h.ended id
  · have hmirror := (ht.here.dropLast (ht.sound.queues queueId)).logEvent
      (e := ⟨0, eventId, data, extra, expiresAt⟩) hn rfl
    rw [← hadded.callback, ← hadded.events] at hmirror
    have hothers := fun id hid => (hadded.queue_of_ne hid).trans (ht.others id hid)
    obtain ⟨storage', h'⟩ := h.change hadded.sound hmirror hadded.ended hothers
    exact ⟨impl', answer, n + 1, storage', hpush, .inr rfl, fun _ => rfl, hothers, h'⟩

/-- A hint is empty, or it has a next id. -/
def Op.Hinted : Op → Prop
  | .push _ _ _ _ hintNewId _ => hintNewId.next.isSome
  | _ => True

instance : DecidablePred Op.Hinted
  | .push _ _ _ _ hintNewId _ => inferInstanceAs (Decidable (hintNewId.next.isSome))
  | .forget .. | .get .. | .runGc _ => .isTrue trivial

def Op.isPush : Op → Bool
  | .push .. => true
  | _ => false

/-- The number of pushes in a run. -/
def pushes (ops : List Op) : Nat := ops.countP Op.isPush

/-- **No operation fails, and each one keeps the invariant.** -/
theorem Persistent.step (h : Persistent n impl storage) {op : Op} (hhint : op.Hinted)
    (hn : op.isPush → n < 0x10000000000000000) :
    ∃ impl' m storage', TQueue.step impl op = some impl' ∧
      m ≤ n + (if op.isPush then 1 else 0) ∧ Persistent m impl' storage' := by
  cases op with
  | push queueId data expiresAt extra hintNewId random =>
    obtain ⟨impl', answer, m, storage', hpush, hm, _, _, h'⟩ :=
      h.push (hn rfl) hhint queueId data expiresAt extra random
    refine ⟨impl', m, storage', by rw [TQueue.step, hpush]; rfl, ?_, h'⟩
    show m ≤ n + 1
    omega
  | forget queueId eventId =>
    obtain ⟨impl', storage', hforget, h'⟩ := h.forget queueId eventId
    exact ⟨impl', n, storage', hforget, le_rfl, h'⟩
  | get queueId fromId forgetPrevious unixTimeNow size =>
    obtain ⟨impl', answer, storage', hget, h'⟩ :=
      h.get queueId fromId forgetPrevious unixTimeNow size
    exact ⟨impl', n, storage', by rw [TQueue.step, hget]; rfl, le_rfl, h'⟩
  | runGc unixTimeNow =>
    obtain ⟨impl', deleted, storage', hrun, h'⟩ := h.runGc unixTimeNow
    exact ⟨impl', n, storage', by rw [TQueue.step, hrun]; rfl, le_rfl, h'⟩

theorem Persistent.run (h : Persistent n impl storage) {ops : List Op}
    (hhints : ∀ op ∈ ops, op.Hinted) (hn : n + pushes ops ≤ 0x10000000000000000) :
    ∃ impl' m storage', TQueue.run impl ops = some impl' ∧ m ≤ n + pushes ops ∧
      Persistent m impl' storage' := by
  induction ops generalizing n impl storage with
  | nil => exact ⟨impl, n, storage, rfl, le_rfl, h⟩
  | cons op ops ih =>
    have hcount : pushes (op :: ops) = pushes ops + (if op.isPush then 1 else 0) :=
      countP_cons
    obtain ⟨impl1, m, storage1, hstep, hm, h1⟩ := h.step (hhints op mem_cons_self) fun hpush => by
      rw [hcount, if_pos hpush] at hn
      omega
    obtain ⟨impl', m', storage', hrun, hm', h'⟩ := ih h1
      (forall_mem_cons.1 hhints).2 (by omega)
    refine ⟨impl', m', storage', ?_, by omega, h'⟩
    rw [TQueue.run, foldlM_cons, hstep]
    exact hrun

/-! ## Replaying -/

theorem sliceOf_append (l l' : List Stored) (id : QueueId) :
    sliceOf (l ++ l') id = sliceOf l id ++ sliceOf l' id := by
  rw [sliceOf, filter_append, map_append]
  rfl

theorem sliceOf_cons_self (x : Stored) (l : List Stored) :
    sliceOf (x :: l) x.queueId = x.restored :: sliceOf l x.queueId := by
  rw [sliceOf, filter_cons_of_pos (by simp)]
  rfl

theorem sliceOf_cons_of_ne {x : Stored} {id : QueueId} (h : id ≠ x.queueId) (l : List Stored) :
    sliceOf (x :: l) id = sliceOf l id := by
  rw [sliceOf, filter_cons_of_neg (by simp [Ne.symm h])]
  rfl

/-- The queues after the entries `l` were replayed. -/
structure Rebuilt (l : List Stored) (impl : TQueueImpl) : Prop where
  sound : impl.Sound
  callback : impl.callback = none
  slices : ∀ id, (impl.queue id).events.toList = sliceOf l id
  ended : ∀ id, (impl.queue id).Ended

variable {l rest : List Stored}

section

variable {y : Stored} (h : Rebuilt l impl) (hq : q.Sound)
  (hlist : q.events.toList = sliceOf l y.queueId ++ y.restored :: sliceOf rest y.queueId)
include h hq hlist

/-- The next event of a sound queue fits into what was rebuilt of it. -/
theorem Rebuilt.fits :
    Fits (impl.queue y.queueId) y.restored ∧ ∀ x ∈ sliceOf l y.queueId, x.data ≠ [] := by
  have hslice := h.slices y.queueId
  have hmem : y.restored ∈ q.events.toList := by
    rw [hlist]
    exact mem_append_right _ mem_cons_self
  have hbefore : ∀ x ∈ sliceOf l y.queueId,
      x ∈ q.events.toList ∧ x.eventId < y.restored.eventId := by
    intro x hx
    have hsorted := q.events.sorted
    rw [hlist] at hsorted ⊢
    exact ⟨mem_append_left _ hx, (pairwise_append.mp hsorted).2.2 x hx _ mem_cons_self⟩
  obtain ⟨hpos, hlt⟩ := hq.ids _ hmem
  have hvalid := q.tailId.isValidId
  rw [EventId.lt_iff] at hlt
  refine ⟨⟨⟨?_, (hq.each _ hmem).1, ?_, ?_, (hq.each _ hmem).2⟩, hpos, by omega⟩,
    fun x hx hblank => ?_⟩
  · rw [EventId.le_iff]
    rcases h.ended y.queueId with hzero | ⟨x, hx, hlast⟩
    · omega
    · have hx := (hbefore x (hslice ▸ hx)).2
      rw [EventId.lt_iff] at hx
      omega
  · have hcount := hq.count
    rw [hlist, length_append, length_cons] at hcount
    rw [hslice]
    omega
  · have hbytes := hq.bytes
    rw [hq.total, hlist, lengths_append, lengths_cons] at hbytes
    rw [(h.sound.queues y.queueId).total, hslice]
    omega
  · -- an event without data is the last one
    have hlast := hq.blank x (hbefore x hx).1 hblank
    have hx := (hbefore x hx).2
    rw [EventId.lt_iff] at hx
    omega

/-- **One event of `replay`.** -/
theorem Rebuilt.step : ∃ impl', replayEvent impl y = some impl' ∧ Rebuilt (l ++ [y]) impl' := by
  obtain ⟨hfits, hdata⟩ := h.fits hq hlist
  obtain ⟨impl', hpush, hadded⟩ := doPush_ok h.sound hfits
  have hdrop : dropLast impl.callback (impl.queue y.queueId)
      = (none, impl.queue y.queueId) := by
    rw [h.callback]
    rcases dropLast_cases none (h.sound.queues y.queueId) with ⟨heq, _⟩ |
      ⟨init, last, hsplit, hblank, _⟩
    · exact heq
    · refine absurd hblank (hdata last ?_)
      rw [← h.slices, hsplit]
      exact mem_append_right _ (mem_singleton.mpr rfl)
  have hcallback := hadded.callback
  have hevents := hadded.events
  rw [hdrop] at hcallback hevents
  refine ⟨impl', ?_, hadded.sound, hcallback, fun id => ?_, fun id => ?_⟩
  · have hpush' : doPush impl y.queueId { y.event with logEventId := y.logEventId }
        = some (impl', true) := hpush
    rw [replayEvent, hpush']
  · rw [sliceOf_append]
    by_cases hid : id = y.queueId
    · rw [hid, hevents, sliceOf_cons_self, h.slices]
      rfl
    · rw [hadded.queue_of_ne hid, sliceOf_cons_of_ne hid, h.slices]
      exact (append_nil _).symm
  · by_cases hid : id = y.queueId
    · rw [hid]
      exact hadded.ended
    · rw [hadded.queue_of_ne hid]
      exact h.ended id

end

/-- **A storage that mirrors sound queues can be replayed.** -/
theorem Rebuilt.replay (h : Rebuilt l impl)
    (hqueues : ∀ id, ∃ q : Queue, q.Sound ∧ q.events.toList = sliceOf (l ++ rest) id) :
    ∃ impl', rest.foldlM replayEvent impl = some impl' ∧ Rebuilt (l ++ rest) impl' := by
  induction rest generalizing l impl with
  | nil => exact ⟨impl, rfl, by rwa [append_nil]⟩
  | cons y rest ih =>
    obtain ⟨q, hq, hlist⟩ := hqueues y.queueId
    rw [sliceOf_append, sliceOf_cons_self] at hlist
    obtain ⟨impl1, hstep, h1⟩ := h.step hq hlist
    obtain ⟨impl', hrun, h'⟩ := ih h1 (by rwa [append_assoc])
    refine ⟨impl', ?_, by rwa [append_assoc] at h'⟩
    rw [foldlM_cons, hstep]
    exact hrun

theorem rebuilt_nil : Rebuilt [] (.new none) where
  sound := .new _
  callback := rfl
  slices _ := rfl
  ended _ := .inl rfl

/-- The events of a queue and its tail go together. -/
theorem tail_eq {p : Queue} (hp : p.Sound) (hq : q.Sound) (hp' : p.Ended) (hq' : q.Ended)
    (h : p.events.toList = q.events.toList) : p.tailId = q.tailId := by
  have hbelow : ∀ {a b : Queue}, a.Sound → b.Sound → a.Ended →
      a.events.toList = b.events.toList → a.tailId.value ≤ b.tailId.value := by
    intro a b ha hb ha' heq
    have hvalid := b.tailId.isValidId
    rcases ha' with hzero | ⟨x, hx, hlast⟩
    · omega
    · have hlt := (hb.ids x (heq ▸ hx)).2
      rw [EventId.lt_iff] at hlt
      omega
  exact EventId.eq_of_value (le_antisymm (hbelow hp hq hp' h) (hbelow hq hp hq' h.symm))

theorem getTail_eq (impl : TQueueImpl) (id : QueueId) :
    impl.getTail id = (impl.queue id).tailId := by
  unfold TQueueImpl.getTail TQueueImpl.queue
  cases impl.queues id <;> rfl

theorem live_eq (impl : TQueueImpl) (id : QueueId) : impl.live id = (impl.queue id).live := by
  unfold TQueueImpl.live TQueueImpl.queue
  cases impl.queues id <;> rfl

/-- **The queues come back from the storage**, at every moment of every run with fewer than 2^64
pushes: no operation fails, `replay` does not fail, and every queue has its tail and its live events
again. -/
theorem replay_restores (ops : List Op) (hhints : ∀ op ∈ ops, op.Hinted)
    (hpushes : pushes ops < 0x10000000000000000) :
    ∃ s storage r, run (.new (some .new)) ops = some s ∧ s.callback = some storage ∧
      replay storage (.new none) = some r ∧
      ∀ id, r.getTail id = s.getTail id ∧ r.live id = s.live id := by
  obtain ⟨s, m, storage, hrun, _, h⟩ := Persistent.new.run hhints (by omega)
  have hqueues : ∀ id, ∃ q : Queue, q.Sound ∧
      q.events.toList = sliceOf ([] ++ storage.events.toList) id := fun id =>
    ⟨s.queue id, h.sound.queues id, (h.slices id).symm⟩
  obtain ⟨r, hreplay, hr⟩ := rebuilt_nil.replay hqueues
  refine ⟨s, storage, r, hrun, h.callback, hreplay, fun id => ?_⟩
  have hevents : (r.queue id).events.toList = (s.queue id).events.toList :=
    (hr.slices id).trans (h.slices id)
  rw [getTail_eq, getTail_eq, live_eq, live_eq]
  refine ⟨tail_eq (hr.sound.queues id) (h.sound.queues id) (hr.ended id) (h.ended id) hevents, ?_⟩
  rw [Queue.live, Queue.live, hevents]

/-- A queue that runs out of ids, is read and collected. -/
def wrap : List Op :=
  [.push 7 [1] 100 0 ⟨1999999998, by decide⟩ 0, .push 7 [2] 100 0 ⟨5, by decide⟩ 0,
    .push 7 [3] 50 0 ⟨5, by decide⟩ 0, .get 7 ⟨6, by decide⟩ true 20 10, .runGc 101]

theorem replay_restores_wrap : (∀ op ∈ wrap, op.Hinted) ∧ pushes wrap < 0x10000000000000000 ∧
    ∃ s storage r, run (.new (some .new)) wrap = some s ∧ s.callback = some storage ∧
      replay storage (.new none) = some r ∧
      ∀ id, r.getTail id = s.getTail id ∧ r.live id = s.live id :=
  ⟨by decide, by decide, replay_restores wrap (by decide) (by decide)⟩

/-! ## The last log id -/

def oneId : EventId := ⟨1, by decide⟩

/-- One event is pushed to a queue of its own. -/
def pushTo (i : Nat) : Op := .push ((i : Int) - 0x8000000000000000) [0] 1 0 oneId 0

/-- Each of `k` queues gets one event. -/
def fill (k : Nat) : List Op := (range k).map pushTo

theorem run_append {ops ops' : List Op} (h : run impl ops = some impl') :
    run impl (ops ++ ops') = run impl' ops' := by
  rw [run, foldlM_append]
  exact (congrArg (bind · _) h).trans rfl

theorem hinted_fill (k : Nat) : ∀ op ∈ fill k, op.Hinted := by
  intro op hop
  obtain ⟨i, _, rfl⟩ := mem_map.mp hop
  exact (by decide : oneId.next.isSome)

theorem pushable_new : Pushable .new [0] 1 :=
  ⟨by simp, by decide, by decide, by decide, by decide⟩

/-- Every push uses up a log id. -/
theorem run_fill (k : Nat) (hk : k < 0x10000000000000000) :
    ∃ s storage, run (.new (some .new)) (fill k) = some s ∧ Persistent (k + 1) s storage ∧
      ∀ id : Int, (k : Int) - 0x8000000000000000 ≤ id → s.queue id = .new := by
  induction k with
  | zero => exact ⟨_, _, rfl, .new, fun _ _ => rfl⟩
  | succ k ih =>
    obtain ⟨s, storage, hrun, h, hfree⟩ := ih (by omega)
    have hqueue := hfree (k - 0x8000000000000000) le_rfl
    obtain ⟨s', answer, m, storage', hpush, _, hm, hothers, h'⟩ :=
      h.push hk (rfl : oneId.next.isSome = true) (k - 0x8000000000000000) [0] 1 0 0
    obtain rfl := hm (hqueue ▸ pushable_new)
    refine ⟨s', storage', ?_, h', fun id hid => ?_⟩
    · rw [fill, range_succ, map_append]
      refine (run_append hrun).trans ?_
      show ((step s (pushTo k)).bind some) = _
      rw [pushTo, step, hpush]
      rfl
    · have hne : id ≠ (k : Int) - 0x8000000000000000 := by omega
      rw [hothers id hne]
      exact hfree id (by omega)

/-- An event that was given no log id is not removed from the storage. -/
theorem forget_unlogged (hcallback : impl.callback = some storage)
    (hevents : (impl.queue queueId).events.toList = [e]) (hlog : e.logEventId = 0) :
    ∃ impl', forget impl queueId e.eventId = some impl' ∧ impl'.callback = some storage ∧
      impl'.live queueId = [] := by
  have hfind : (impl.queue queueId).events.find? e.eventId = some e :=
    find?_eq_some.mpr ⟨by rw [hevents]; exact mem_singleton.mpr rfl, rfl⟩
  unfold forget
  cases hqueues : impl.queues queueId with
  | none =>
    rw [TQueueImpl.queue, hqueues] at hevents
    cases hevents
  | some q =>
    rw [queue_of_queues hqueues] at hfind hevents
    dsimp only
    rw [hfind, hcallback]
    dsimp only [pop]
    rw [if_pos hlog]
    refine ⟨_, rfl, rfl, ?_⟩
    rw [live_eq, queue_withQueue_self, live_removeEvent, Queue.live, hevents]
    by_cases hdata : e.data = [] <;> simp [hdata, RawEvent.toEvent]

/-- The storage with one more event, whose log id is 0. -/
theorem slice_insert_zero (h : storage.Numbered n) (e : RawEvent) (queueId id : QueueId) :
    sliceOf (storage.events.insert ⟨0, queueId, e⟩).toList id
      = (if id = queueId then [{ e with logEventId := 0 }] else []) ++ storage.slice id := by
  rw [toList_insert_of_gt (a := ⟨0, queueId, e⟩) fun x hx => (h.keys x hx).1]
  by_cases hid : id = queueId
  · rw [if_pos hid, sliceOf, filter_cons_of_pos (by simp [hid])]
    rfl
  · rw [if_neg hid, sliceOf_cons_of_ne hid]
    rfl

theorem pushes_fill (k : Nat) (ops : List Op) : pushes (fill k ++ ops) = k + pushes ops := by
  have hall : (fill k).countP Op.isPush = (fill k).length :=
    countP_eq_length.mpr fun op hop => by
      obtain ⟨i, _, rfl⟩ := mem_map.mp hop
      rfl
  rw [pushes, countP_append, hall, fill, length_map, length_range]
  rfl

/-- The push after the log ids were used up: the event is stored under 0. -/
theorem push_unlogged (h : Persistent 0x10000000000000000 impl storage)
    (hqueue : impl.queue queueId = .new) :
    ∃ impl' eventId, push impl queueId [0] 1 0 oneId 0 = some (impl', .ok eventId) ∧
      impl'.Sound ∧ (∀ id, id ≠ queueId → impl'.queue id = impl.queue id) ∧
      (impl'.queue queueId).events.toList = [⟨0, eventId, [0], 0, 1⟩] ∧
      impl'.callback = some ⟨1, storage.events.insert ⟨0, queueId, ⟨0, eventId, [0], 0, 1⟩⟩⟩ := by
  have hstable : PopStable queueId .empty fun callback q =>
      callback = some storage ∧ q.events.toList = [] := by
    rintro callback q e callback' q' _ he ⟨_, hnil⟩
    rw [hnil] at he
    cases he
  have hnil : (impl.queue queueId).events.toList = [] := by
    rw [hqueue]
    rfl
  obtain ⟨impl', answer, hpush, hcases⟩ := push_ok h.sound hstable (fun _ _ _ hR => hR)
    ⟨h.callback, hnil⟩ (rfl : oneId.next.isSome = true) [0] 1 0 0
  rcases hcases with ⟨hnot, _⟩ | ⟨_, impl1, eventId, rfl, ht, hadded⟩
  · exact absurd (hqueue ▸ pushable_new) hnot
  obtain ⟨hcallback, hnil⟩ := ht.here
  have hdrop : dropLast impl1.callback (impl1.queue queueId)
      = (some storage, impl1.queue queueId) := by
    rw [hcallback]
    rcases dropLast_cases (some storage) (ht.sound.queues queueId) with ⟨heq, _⟩ |
      ⟨init, last, hsplit, _⟩
    · exact heq
    · rw [hnil] at hsplit
      exact absurd hsplit (by simp)
  have hlog : logEvent (some storage) queueId ⟨0, eventId, [0], 0, 1⟩
      = (some ⟨1, storage.events.insert ⟨0, queueId, ⟨0, eventId, [0], 0, 1⟩⟩⟩,
        ⟨0, eventId, [0], 0, 1⟩) := by
    have hnext : storage.nextLogEventId = 0 := h.numbered.next
    dsimp only [logEvent, TQueueMemoryStorage.push]
    rw [if_pos rfl, if_pos rfl, hnext]
  have hevents := hadded.events
  have hcallback' := hadded.callback
  rw [hdrop, hlog] at hevents hcallback'
  rw [hnil] at hevents
  exact ⟨impl', eventId, hpush, hadded.sound, fun id hid =>
    (hadded.queue_of_ne hid).trans (ht.others id hid), hevents, hcallback'⟩

/-- After 2^64 pushes an event that was forgotten comes back. -/
theorem replay_resurrects : ∃ ops id s storage r, (∀ op ∈ ops, op.Hinted) ∧
    pushes ops = 0x10000000000000000 ∧ Op.push id [0] 1 0 oneId 0 ∈ ops ∧
    run (.new (some .new)) ops = some s ∧ s.callback = some storage ∧
    replay storage (.new none) = some r ∧ s.live id = [] ∧ r.live id ≠ [] := by
  let id : QueueId := 0x7fffffffffffffff
  obtain ⟨s, storage, hrun, h, hfree⟩ := run_fill 0xffffffffffffffff (by omega)
  have hqueue : s.queue id = .new := hfree id (by decide)
  obtain ⟨s', eventId, hpush, hsound, hothers, hevents, hcallback⟩ := push_unlogged h hqueue
  obtain ⟨s'', hforget, hcallback', hlive⟩ := forget_unlogged hcallback hevents rfl
  have hslices : ∀ x, (s'.queue x).events.toList
      = sliceOf ([] ++ (storage.events.insert ⟨0, id, ⟨0, eventId, [0], 0, 1⟩⟩).toList) x := by
    intro x
    rw [nil_append, slice_insert_zero h.numbered, h.slices]
    by_cases hx : x = id
    · rw [hx, hevents, hqueue]
      rfl
    · rw [if_neg hx, hothers x hx]
      rfl
  obtain ⟨r, hreplay, hr⟩ := rebuilt_nil.replay fun x => ⟨s'.queue x, hsound.queues x, hslices x⟩
  refine ⟨fill 0xffffffffffffffff ++ [.push id [0] 1 0 oneId 0, .forget id eventId], id, s'', _, r,
    ?_, pushes_fill _ _, ?_, ?_, hcallback', hreplay, hlive, ?_⟩
  · intro op hop
    rcases mem_append.mp hop with hop | hop
    · exact hinted_fill _ op hop
    · rcases mem_cons.mp hop with rfl | hop
      · exact rfl
      · rw [mem_singleton.mp hop]
        trivial
  · exact mem_append_right _ mem_cons_self
  · refine (run_append hrun).trans ?_
    rw [run, foldlM_cons, step, hpush]
    dsimp only [Option.map_some, Option.bind_eq_bind, Option.bind_some]
    rw [foldlM_cons, step, hforget]
    rfl
  · rw [live_eq, Queue.live, hr.slices, ← hslices id, hevents]
    simp

end Tdlib.TQueue
