import Tdlib.TQueue.Persistence

/-!
# Every sequence of calls

`do_push` is public: a log is replayed with it, and whoever replays decides what the events are. It
may leave gaps between the ids and push events without data. The queues stay sound all the same, as
long as the ids are valid and have a next one.

The storage may be set at any time. As nothing here depends on what it holds, or on the log ids that
it gives to events, a storage that is set anew before each call stands for every storage.
-/

namespace Tdlib.TQueue

open Lib Tl

variable {queueId : QueueId} {q : Queue} {e : RawEvent} {impl impl' : TQueueImpl}

/-! ## What `do_push` can do -/

theorem Unchanged.sound (himpl : impl.Sound) (h : Unchanged impl impl') : impl'.Sound := by
  refine ⟨?_, ?_⟩
  · intro id
    rw [h.queue]
    exact himpl.queues id
  · intro x
    dsimp only
    rw [h.queueGcAt, h.queue]
    exact himpl.gc x

/-- What is left of an event that is not accepted: a queue, unless the data is too long. -/
def refused (impl : TQueueImpl) (queueId : QueueId) (e : RawEvent) : TQueueImpl :=
  if e.data.length > maxEventLength then impl else impl.withQueue queueId (impl.queue queueId)

theorem unchanged_refused (impl : TQueueImpl) (queueId : QueueId) (e : RawEvent) :
    Unchanged impl (refused impl queueId e) := by
  unfold refused
  split
  · exact ⟨fun _ => rfl, rfl, rfl⟩
  · exact .withQueue impl queueId

theorem doPush_refused (hpos : e.eventId.value ≠ 0) (hnot : ¬Accepts (impl.queue queueId) e) :
    doPush impl queueId e = some (refused impl queueId e, false) := by
  have hlimit : maxEventLength ≤ maxTotalEventLength := by decide
  unfold doPush refused
  rw [if_neg hpos]
  by_cases hsize : e.data.length > maxEventLength
  · rw [if_pos hsize, if_pos hsize]
  rw [if_neg hsize, if_neg hsize, if_pos ?_]
  by_contra hall
  simp only [not_or, not_le, not_lt, not_le] at hall
  exact hnot ⟨hall.2.2.2, by omega, hall.1, by omega, hall.2.2.1⟩

/-- There has to be an id for the tail. -/
theorem addEvent_last (hnext : e.eventId.next = none) : addEvent impl queueId e = none := by
  obtain ⟨log, hlog⟩ := logEvent_eq (dropLast impl.callback (impl.queue queueId)).1 queueId e
  unfold addEvent
  cases hschedule : scheduleFirst impl.queueGcAt queueId
      (dropLast impl.callback (impl.queue queueId)).2 e with
  | none =>
    dsimp only [Option.bind_eq_bind]
    rw [hschedule]
    rfl
  | some out =>
    dsimp only [Option.bind_eq_bind]
    rw [hschedule]
    rw [hlog]
    rw [hnext]
    rfl

theorem doPush_last (hpos : e.eventId.value ≠ 0) (haccepts : Accepts (impl.queue queueId) e)
    (hnext : e.eventId.next = none) : doPush impl queueId e = none := by
  rw [haccepts.doPush hpos, addEvent_last hnext]
  rfl

theorem Accepts.fits (h : Accepts q e) (hpos : e.eventId.value ≠ 0)
    (hnext : e.eventId.next.isSome) : Fits q e := by
  obtain ⟨next, hnext⟩ := Option.isSome_iff_exists.mp hnext
  have hvalue := EventId.next_eq_some.mp hnext
  have hvalid := e.eventId.isValidId
  have hvalid' := next.isValidId
  exact ⟨h, by omega, by omega⟩

/-- **`do_push` of a valid event** adds it or changes nothing. -/
theorem doPush_sound (himpl : impl.Sound) (hpos : e.eventId.value ≠ 0)
    (hnext : e.eventId.next.isSome) (queueId : QueueId) :
    ∃ impl' isAdded, doPush impl queueId e = some (impl', isAdded) ∧ impl'.Sound := by
  by_cases haccepts : Accepts (impl.queue queueId) e
  · obtain ⟨impl', hpush, hadded⟩ := doPush_ok himpl (haccepts.fits hpos hnext)
    exact ⟨impl', true, hpush, hadded.sound⟩
  · exact ⟨_, false, doPush_refused hpos haccepts, (unchanged_refused ..).sound himpl⟩

/-! ## Runs -/

inductive Call where
  | setCallback (callback : Option TQueueMemoryStorage)
  | doPush (queueId : QueueId) (rawEvent : RawEvent)
  /-- `push`, `forget`, `get` or `run_gc`. -/
  | run (op : Op)

/-- The events have valid ids with a next one, and the hints are empty or have a next one. -/
def Call.Valid : Call → Prop
  | .setCallback _ => True
  | .doPush _ rawEvent => rawEvent.eventId.value ≠ 0 ∧ rawEvent.eventId.next.isSome
  | .run op => op.Hinted

def call (impl : TQueueImpl) : Call → Option TQueueImpl
  | .setCallback callback => some { impl with callback }
  | .doPush queueId rawEvent => (doPush impl queueId rawEvent).map Prod.fst
  | .run op => step impl op

def runCalls (impl : TQueueImpl) (calls : List Call) : Option TQueueImpl := calls.foldlM call impl

/-- Nothing is asked of the storage. -/
def Anything (_ : Option TQueueMemoryStorage) (_ : Queue) : Prop := True

theorem anything (callback : Option TQueueMemoryStorage) (q : Queue) :
    Anything callback q := trivial

theorem anything_stable (queueId : QueueId) (tailId : EventId) :
    PopStable queueId tailId Anything := fun _ _ _ _ _ _ _ _ _ => trivial

theorem step_sound (himpl : impl.Sound) {op : Op} (hhint : op.Hinted) :
    ∃ impl', step impl op = some impl' ∧ impl'.Sound := by
  cases op with
  | push queueId data expiresAt extra hintNewId random =>
    obtain ⟨impl', answer, hpush, hcases⟩ := push_ok himpl (anything_stable queueId .empty)
      (fun _ _ _ _ => trivial) (anything _ _) hhint data expiresAt extra random
    refine ⟨impl', by rw [step, hpush]; rfl, ?_⟩
    rcases hcases with ⟨-, hsame⟩ | ⟨-, impl1, eventId, -, -, hadded⟩
    · exact hsame.sound himpl
    · exact hadded.sound
  | forget queueId eventId =>
    obtain ⟨impl', hforget, htouched⟩ :=
      forget_ok himpl (anything_stable queueId _) (anything _ _) eventId
    exact ⟨impl', hforget, htouched.sound⟩
  | get queueId fromId forgetPrevious unixTimeNow size =>
    obtain ⟨impl', answer, hget, htouched⟩ :=
      get_ok himpl (anything_stable queueId _) (anything _ _) fromId forgetPrevious unixTimeNow size
    exact ⟨impl', by rw [step, hget]; rfl, htouched.sound⟩
  | runGc unixTimeNow =>
    have hpass : ∀ ⦃impl gcAt queueId⦄, impl.Sound → True →
        (gcAt, queueId) ∈ impl.queueGcAt.toList → gcAt < unixTimeNow → ∃ impl' deleted,
          collectFirst impl gcAt queueId unixTimeNow = some (impl', deleted) ∧ impl'.Sound ∧ True ∧
            due unixTimeNow impl' < due unixTimeNow impl := by
      intro impl gcAt queueId himpl _ hfirst hdue
      obtain ⟨impl', deleted, hcollect, htouched, hless⟩ := collectFirst_ok himpl
        (anything_stable queueId _) (fun _ _ _ _ => trivial) (anything _ _) hfirst hdue
      exact ⟨impl', deleted, hcollect, htouched.sound, trivial, hless⟩
    obtain ⟨impl', deleted, hrun, hsound, -⟩ := runGc_ok hpass himpl trivial
    exact ⟨impl', by rw [step, hrun]; rfl, hsound⟩

theorem call_sound (himpl : impl.Sound) {c : Call} (hvalid : c.Valid) :
    ∃ impl', call impl c = some impl' ∧ impl'.Sound := by
  cases c with
  | setCallback callback => exact ⟨_, rfl, himpl.queues, himpl.gc⟩
  | doPush queueId rawEvent =>
    obtain ⟨impl', isAdded, hpush, hsound⟩ := doPush_sound himpl hvalid.1 hvalid.2 queueId
    exact ⟨impl', by rw [call, hpush]; rfl, hsound⟩
  | run op => exact step_sound himpl hvalid

/-- Every sequence of valid calls is carried out, and leaves the queues sound. -/
theorem runCalls_sound (himpl : impl.Sound) {calls : List Call} (hvalid : ∀ c ∈ calls, c.Valid) :
    ∃ impl', runCalls impl calls = some impl' ∧ impl'.Sound := by
  induction calls generalizing impl with
  | nil => exact ⟨impl, rfl, himpl⟩
  | cons c calls ih =>
    obtain ⟨impl1, hcall, himpl1⟩ := call_sound himpl (hvalid c List.mem_cons_self)
    obtain ⟨impl', hrun, himpl'⟩ := ih himpl1 (List.forall_mem_cons.1 hvalid).2
    refine ⟨impl', ?_, himpl'⟩
    rw [runCalls, List.foldlM_cons, hcall]
    exact hrun

/-! ## The representation -/

theorem Queue.Sound.length_le_total (hq : q.Sound) (he : e ∈ q.events.toList) :
    e.data.length ≤ q.totalEventLength := by
  have hlen := hq.length_le he
  omega

/-- The queues with a time are all there. -/
theorem TQueueImpl.Sound.mem_queueGcAt (himpl : impl.Sound) (gcAt : Int) (id : QueueId) :
    (gcAt, id) ∈ impl.queueGcAt.toList ↔
      gcAt ≠ 0 ∧ ∃ q, impl.queues id = some q ∧ q.gcAt = gcAt := by
  rw [himpl.gc (gcAt, id)]
  dsimp only
  refine and_congr_right ?_
  intro hne
  constructor
  · intro heq
    cases hqueues : impl.queues id with
    | none =>
      -- such a queue has no time
      have hnew : (impl.queue id).gcAt = 0 := by
        rw [TQueueImpl.queue, hqueues]
        rfl
      exact absurd (heq.symm.trans hnew) hne
    | some q =>
      rw [queue_of_queues hqueues] at heq
      exact ⟨q, rfl, heq⟩
  · rintro ⟨q, hqueues, heq⟩
    rw [queue_of_queues hqueues]
    exact heq

/-- **The representation of the queues.** No valid call fails a `CHECK` or goes on for ever, and
after each of them the lengths add up, the ids are below the tail, only the last event may have no
data, and `queue_gc_at_` holds exactly the queues with a time. -/
theorem representation_kept (callback : Option TQueueMemoryStorage) {calls : List Call}
    (hvalid : ∀ c ∈ calls, c.Valid) :
    ∃ impl, runCalls (.new callback) calls = some impl ∧
      (∀ id q, impl.queues id = some q →
        q.totalEventLength = lengths q.events.toList ∧
        (∀ e ∈ q.events.toList, e.data.length ≤ q.totalEventLength) ∧
        (∀ e ∈ q.events.toList, e.eventId < q.tailId) ∧
        (∀ init last, q.events.toList = init ++ [last] →
          (∀ e ∈ init, e.data ≠ []) ∧
          (last.data = [] → last.eventId.value + 1 = q.tailId.value)) ∧
        ((∃ e ∈ q.events.toList, e.data ≠ []) → q.gcAt ≠ 0)) ∧
      ∀ gcAt id, (gcAt, id) ∈ impl.queueGcAt.toList ↔
        gcAt ≠ 0 ∧ ∃ q, impl.queues id = some q ∧ q.gcAt = gcAt := by
  obtain ⟨impl, hrun, himpl⟩ := runCalls_sound (.new callback) hvalid
  refine ⟨impl, hrun, ?_, himpl.mem_queueGcAt⟩
  intro id q hqueues
  have hq : q.Sound := queue_of_queues hqueues ▸ himpl.queues id
  refine ⟨hq.total, fun e he => hq.length_le_total he, fun e he => (hq.ids e he).2, ?_, ?_⟩
  · intro init last hlist
    refine ⟨fun e he => hq.data_of_init hlist he, fun hblank => hq.blank last ?_ hblank⟩
    rw [hlist]
    exact List.mem_append_right _ (List.mem_singleton.mpr rfl)
  · rintro ⟨e, he, hdata⟩
    exact hq.scheduled e he hdata

/-- An event is pushed, one without data is replayed over a gap, and the queue is collected. -/
theorem representation_kept_gap :
    ∃ impl, runCalls (.new none)
        [.run (.push 1 [7] 100 0 oneId 0), .doPush 1 ⟨3, ⟨5, by decide⟩, [], 0, 9⟩,
          .run (.runGc 200)]
        = some impl ∧
      ∀ gcAt id, (gcAt, id) ∈ impl.queueGcAt.toList ↔
        gcAt ≠ 0 ∧ ∃ q, impl.queues id = some q ∧ q.gcAt = gcAt := by
  have hvalid : ∀ c ∈ ([.run (.push 1 [7] 100 0 oneId 0), .doPush 1 ⟨3, ⟨5, by decide⟩, [], 0, 9⟩,
      .run (.runGc 200)] : List Call), c.Valid := by
    intro c hc
    simp only [List.mem_cons, List.not_mem_nil, or_false] at hc
    rcases hc with rfl | rfl | rfl
    · show oneId.next.isSome
      decide
    · exact ⟨by decide, by decide⟩
    · trivial
  obtain ⟨impl, hrun, -, hgc⟩ := representation_kept none hvalid
  exact ⟨impl, hrun, hgc⟩

end Tdlib.TQueue
