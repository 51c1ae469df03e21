import Tdlib.TQueue.Queue

/-!
# All queues stay sound

`queue_gc_at_` holds the times of the queues, and every operation keeps this and
the soundness of each queue. So `schedule_queue_gc`, `push` and `run_gc` never
fail a `CHECK`, `push` always finds an id, and `run_gc` ends.
-/

namespace Tdlib.TQueue

open Lib Tl List Ordered
open Option (bind_eq_bind bind_some isSome_iff_exists)

variable {queueId : QueueId} {tailId : EventId} {callback callback' : Option TQueueMemoryStorage}
  {q q' : Queue} {e x : RawEvent} {R : Option TQueueMemoryStorage → Queue → Prop}

/-! ## The times of the queues -/

theorem gcKey_inj {x y : Int × QueueId} (h : gcKey x = gcKey y) : x = y := toLex.injective h

/-- The set holds exactly the queues with a time, each with its time. -/
def Scheduled (queueGcAt : Ordered gcKey) (gcAt : QueueId → Int) : Prop :=
  ∀ x, x ∈ queueGcAt.toList ↔ x.1 ≠ 0 ∧ gcAt x.2 = x.1

/-- The times after that of one queue was set. -/
def setTime (gcAt : QueueId → Int) (queueId : QueueId) (time : Int) : QueueId → Int := fun id =>
  if id = queueId then time else gcAt id

variable {queueGcAt : Ordered gcKey} {gcAt : QueueId → Int}

theorem setTime_self (time : Int) : setTime gcAt queueId time queueId = time := if_pos rfl

theorem setTime_of_ne {id : QueueId} (h : id ≠ queueId) (time : Int) :
    setTime gcAt queueId time id = gcAt id := if_neg h

theorem unschedule_ok (h : Scheduled queueGcAt gcAt) (hq : q.gcAt = gcAt queueId) :
    ∃ s, unschedule queueGcAt queueId q = some s ∧
      Scheduled s (setTime gcAt queueId 0) ∧
      (q.gcAt ≠ 0 → queueGcAt.toList.Perm ((q.gcAt, queueId) :: s.toList)) := by
  unfold unschedule
  by_cases hzero : q.gcAt = 0
  · rw [if_neg (not_not.mpr hzero)]
    refine ⟨queueGcAt, rfl, fun x => (h x).trans ?_, fun hne => absurd hzero hne⟩
    by_cases hx : x.2 = queueId
    · rw [hx, setTime_self, ← hq, hzero]
    · rw [setTime_of_ne hx]
  rw [if_pos hzero]
  have hmem : (q.gcAt, queueId) ∈ queueGcAt.toList := (h _).mpr ⟨hzero, hq.symm⟩
  rw [if_pos (isSome_iff_exists.mpr ⟨_, find?_eq_some.mpr ⟨hmem, rfl⟩⟩)]
  refine ⟨_, rfl, fun x => ?_, fun _ => perm_erase hmem⟩
  rw [mem_erase, h x]
  by_cases hx : x.2 = queueId
  · rw [hx, setTime_self]
    refine ⟨fun ⟨⟨_, heq⟩, hne⟩ => absurd ?_ hne, fun ⟨hne, heq⟩ => absurd heq.symm hne⟩
    exact congrArg gcKey (Prod.ext (by rw [← heq, hq]) hx)
  · rw [setTime_of_ne hx, and_iff_left]
    exact fun heq => hx (congrArg Prod.snd (gcKey_inj heq))

theorem reschedule_ok (h : Scheduled queueGcAt gcAt) (hnone : gcAt queueId = 0) (time : Int) :
    ∃ s, reschedule queueGcAt queueId time = some s ∧
      Scheduled s (setTime gcAt queueId time) ∧
      s.toList.Perm (if time = 0 then queueGcAt.toList else (time, queueId) ::
        queueGcAt.toList) := by
  unfold reschedule
  by_cases hzero : time = 0
  · rw [if_neg (not_not.mpr hzero), if_pos hzero]
    refine ⟨queueGcAt, rfl, fun x => (h x).trans ?_, .refl _⟩
    by_cases hx : x.2 = queueId
    · rw [hx, setTime_self, hnone, hzero]
    · rw [setTime_of_ne hx]
  rw [if_pos hzero, if_neg hzero]
  have hfree : ∀ x ∈ queueGcAt.toList, x.2 ≠ queueId := by
    intro x hx heq
    obtain ⟨hne, hgc⟩ := (h x).mp hx
    rw [heq, hnone] at hgc
    exact hne hgc.symm
  have hnew : ∀ x ∈ queueGcAt.toList, gcKey x ≠ gcKey (time, queueId) := fun x hx heq =>
    hfree x hx (congrArg Prod.snd (gcKey_inj heq))
  rw [emplace, find?_eq_none.mpr hnew]
  refine ⟨_, rfl, fun x => ?_, ?_⟩
  · rw [mem_insert, h x]
    by_cases hx : x.2 = queueId
    · rw [hx, setTime_self]
      refine ⟨?_, fun ⟨_, heq⟩ => .inl (Prod.ext heq.symm hx)⟩
      rintro (rfl | ⟨⟨hne, heq⟩, _⟩)
      · exact ⟨hzero, rfl⟩
      · exact absurd (heq.symm.trans hnone) hne
    · rw [setTime_of_ne hx]
      refine ⟨?_, fun hmem => .inr ⟨hmem, fun heq => hx (congrArg Prod.snd (gcKey_inj heq))⟩⟩
      rintro (rfl | ⟨hmem, _⟩)
      · exact absurd rfl hx
      · exact hmem
  · have hperm := perm_insert queueGcAt (time, queueId)
    rwa [erase_eq_self hnew] at hperm

/-- **`schedule_queue_gc` never fails**, and gives the queue its new time. -/
theorem scheduleQueueGc_ok (h : Scheduled queueGcAt gcAt) (hq : q.gcAt = gcAt queueId)
    (time : Int) :
    ∃ s, scheduleQueueGc queueGcAt queueId q time = some (s, { q with gcAt := time }) ∧
      Scheduled s (setTime gcAt queueId time) ∧
      ∀ p : Int × QueueId → Bool, q.gcAt ≠ 0 → p (q.gcAt, queueId) →
        (time ≠ 0 → ¬ p (time, queueId)) → s.toList.countP p < queueGcAt.toList.countP p := by
  obtain ⟨s1, hun, hs1, hperm1⟩ := unschedule_ok h hq
  obtain ⟨s, hre, hs, hperm⟩ := reschedule_ok hs1 (setTime_self 0) time
  refine ⟨s, ?_, fun x => (hs x).trans ?_, fun p hne hp hnot => ?_⟩
  · rw [scheduleQueueGc, hun]
    dsimp only [bind_eq_bind, bind_some]
    rw [hre]
    rfl
  · by_cases hx : x.2 = queueId
    · rw [hx, setTime_self, setTime_self]
    · rw [setTime_of_ne hx, setTime_of_ne hx, setTime_of_ne hx]
  · rw [(hperm1 hne).countP_eq p, hperm.countP_eq p, countP_cons_of_pos hp]
    split
    · exact Nat.lt_succ_self _
    · rename_i htime
      rw [countP_cons_of_neg (hnot htime)]
      exact Nat.lt_succ_self _

/-! ## All queues -/

variable {impl impl' : TQueueImpl}

/-- **The invariant of `TQueueImpl`.** -/
structure TQueueImpl.Sound (impl : TQueueImpl) : Prop where
  queues : ∀ id, (impl.queue id).Sound
  /-- `queue_gc_at_` is the set of the times of the queues. -/
  gc : Scheduled impl.queueGcAt fun id => (impl.queue id).gcAt

theorem TQueueImpl.Sound.new (callback : Option TQueueMemoryStorage) :
    (TQueueImpl.new callback).Sound where
  queues _ := Queue.Sound.new
  gc x := by
    refine ⟨nofun, fun ⟨hne, heq⟩ => ?_⟩
    exact absurd heq.symm hne

theorem queue_withQueue_self : (impl.withQueue queueId q).queue queueId = q := by
  show (if queueId = queueId then some q else _).getD _ = q
  rw [if_pos rfl]
  rfl

theorem queue_withQueue_of_ne {id : QueueId} (h : id ≠ queueId) :
    (impl.withQueue queueId q).queue id = impl.queue id := by
  show (if id = queueId then some q else impl.queues id).getD _ = _
  rw [if_neg h]
  rfl

theorem queue_of_queues (h : impl.queues queueId = some q) : impl.queue queueId = q := by
  rw [TQueueImpl.queue, h]
  rfl

/-- One queue and the storage were changed, in a way that `R` tells. -/
structure Touched (R : Option TQueueMemoryStorage → Queue → Prop) (queueId : QueueId)
    (impl impl' : TQueueImpl) : Prop where
  sound : impl'.Sound
  here : R impl'.callback (impl'.queue queueId)
  others : ∀ id, id ≠ queueId → impl'.queue id = impl.queue id

/-- The queue gets a new time. -/
theorem Touched.of_scheduled (himpl : impl.Sound) (hq : q.Sound)
    (hgc : Scheduled queueGcAt (setTime (fun id => (impl.queue id).gcAt) queueId q.gcAt))
    (h : R callback q) :
    Touched R queueId impl ({ impl with callback, queueGcAt }.withQueue queueId q) where
  sound := by
    refine ⟨fun id => ?_, fun x => (hgc x).trans ?_⟩
    · by_cases hid : id = queueId
      · rw [hid, queue_withQueue_self]
        exact hq
      · rw [queue_withQueue_of_ne hid]
        exact himpl.queues id
    · dsimp only
      by_cases hid : x.2 = queueId
      · rw [hid, queue_withQueue_self, setTime_self]
      · rw [queue_withQueue_of_ne hid, setTime_of_ne hid]
        rfl
  here := by
    rw [queue_withQueue_self]
    exact h
  others _ hid := queue_withQueue_of_ne hid

/-- The queue keeps its time. -/
theorem Touched.of_sound (himpl : impl.Sound) (hq : q.Sound)
    (hgc : q.gcAt = (impl.queue queueId).gcAt) (h : R callback q) :
    Touched R queueId impl ({ impl with callback }.withQueue queueId q) := by
  refine .of_scheduled himpl hq (fun x => (himpl.gc x).trans ?_) h
  by_cases hid : x.2 = queueId
  · rw [hid, setTime_self, hgc]
  · rw [setTime_of_ne hid]

section

variable (himpl : impl.Sound) (hstable : PopStable queueId (impl.queue queueId).tailId R)
  (h : R impl.callback (impl.queue queueId))
include himpl hstable h

theorem forget_ok (eventId : EventId) :
    ∃ impl', forget impl queueId eventId = some impl' ∧ Touched R queueId impl impl' := by
  have hsame : Touched R queueId impl impl := ⟨himpl, h, fun _ _ => rfl⟩
  unfold forget
  split
  · exact ⟨impl, rfl, hsame⟩
  rename_i q hqueues
  rw [queue_of_queues hqueues] at hstable h
  have hq := queue_of_queues hqueues ▸ himpl.queues queueId
  split
  · exact ⟨impl, rfl, hsame⟩
  rename_i e hfind
  have he := (find?_eq_some.mp hfind).1
  obtain ⟨callback', q', hpop, hpopped⟩ := pop_ok queueId impl.callback hq he (.inl rfl)
  rw [hpop]
  refine ⟨_, rfl, .of_sound himpl hpopped.sound ?_ (hstable hq he h hpop)⟩
  rw [queue_of_queues hqueues, hpopped.gcAt]

theorem get_ok (fromId : EventId) (forget : Bool) (unixTimeNow : Int) (size : Nat) :
    ∃ impl' answer, get impl queueId fromId forget unixTimeNow size = some (impl', answer) ∧
      Touched R queueId impl impl' := by
  have hsame : Touched R queueId impl impl := ⟨himpl, h, fun _ _ => rfl⟩
  unfold get
  split
  · exact ⟨impl, _, rfl, hsame⟩
  rename_i q hqueues
  rw [queue_of_queues hqueues] at hstable h
  have hq := queue_of_queues hqueues ▸ himpl.queues queueId
  split
  · exact ⟨impl, _, rfl, hsame⟩
  split
  · exact ⟨impl, _, rfl, hsame⟩
  obtain ⟨callback', q', found, gone, hget, hpopped, h', _⟩ :=
    doGet_ok hstable hq h fromId forget unixTimeNow size
  rw [hget]
  refine ⟨_, _, rfl, .of_sound himpl hpopped.sound ?_ h'⟩
  rw [queue_of_queues hqueues, hpopped.gcAt]

end

/-! ## Collecting -/

/-- All events but the last one have data. -/
theorem Queue.Sound.data_of_init (hq : q.Sound) {init : List RawEvent} {last : RawEvent}
    (h : q.events.toList = init ++ [last]) (hx : x ∈ init) : x.data ≠ [] := by
  intro hdata
  have hsorted := q.events.sorted
  rw [h] at hsorted
  have hlt := (pairwise_append.mp hsorted).2.2 x hx last (mem_singleton.mpr rfl)
  have hblank := hq.blank x (by rw [h]; exact mem_append_left _ hx) hdata
  have hbelow := (hq.ids last (by simp [h])).2
  rw [EventId.lt_iff] at hlt hbelow
  omega

/-- `get_size` counts the live events. -/
theorem Queue.Sound.size_eq (hq : q.Sound) : q.size = q.live.length := by
  rw [Queue.size, Queue.live]
  rcases eq_nil_or_concat' q.events.toList with hnil | ⟨init, last, h⟩
  · rw [hnil]
    rfl
  · have hinit : init.filter (fun e => e.data ≠ []) = init :=
      filter_eq_self.mpr fun x hx => by simpa using hq.data_of_init h hx
    rw [h, filter_append, hinit]
    by_cases hdata : last.data = [] <;> simp [hdata]

theorem Popped.size_le {gone : List RawEvent} (hq : q.Sound) (h : Popped gone q q') :
    q'.size ≤ q.size := by
  rw [h.sound.size_eq, hq.size_eq, h.live]
  exact length_filter_le _ _

theorem Queue.Sound.withTime (hq : q.Sound) {time : Int}
    (h : ∀ e ∈ q.events.toList, e.data ≠ [] → time ≠ 0) : ({ q with gcAt := time } : Queue).Sound :=
  ⟨hq.ids, hq.blank, hq.total, hq.count, hq.bytes, hq.each, h⟩

/-- One pass over a queue. The new time is not due, or there is none. -/
theorem collect_ok (hstable : PopStable queueId q.tailId R) (hq : q.Sound) (h : R callback q)
    (unixTimeNow : Int) :
    ∃ callback' q' time deleted,
      collect callback queueId q unixTimeNow = some (callback', q', time, deleted) ∧
      R callback' q' ∧ q'.gcAt = q.gcAt ∧ (time ≠ 0 → unixTimeNow ≤ time) ∧
      ({ q' with gcAt := time } : Queue).Sound := by
  unfold collect
  split
  · rename_i hhead
    refine ⟨callback, q, 0, 0, rfl, h, rfl, fun hne => absurd rfl hne, hq.withTime fun e he => ?_⟩
    rw [head?_eq_none_iff.mp hhead] at he
    cases he
  rename_i first hhead
  obtain ⟨callback', q', found, gone, hget, hpopped, h', hread⟩ :=
    doGet_ok hstable hq h first.eventId false unixTimeNow 1
  have hread := hread rfl
  rw [hget]
  dsimp only [bind_eq_bind, bind_some]
  rw [if_pos (hpopped.size_le hq)]
  cases found with
  | nil =>
    refine ⟨callback', q', 0, _, rfl, h', hpopped.gcAt, fun hne => absurd rfl hne,
      hpopped.sound.withTime fun e he hdata => ?_⟩
    -- nothing fresh was found, so every event was removed
    have hlive : e.toEvent ∈ q'.live :=
      mem_map_of_mem (mem_filter.mpr ⟨he, by simpa using hdata⟩)
    rw [hpopped.live, mem_filter] at hlive
    obtain ⟨x, hx, hxe⟩ := mem_map.mp hlive.1
    have hmem : x ∈ q.events.toList := mem_of_mem_filter hx
    obtain ⟨rest, hrest⟩ := head?_eq_some_iff.mp hhead
    have hx : x ∈ q.events.lowerBound first.eventId :=
      mem_lowerBound.mpr ⟨hmem, le_of_head hrest hmem⟩
    have hstale : ¬ Fresh unixTimeNow x := by
      intro hfresh
      have hnil := hread.found_eq
      rw [eq_comm, take_eq_nil_iff, map_eq_nil_iff, filter_eq_nil_iff] at hnil
      exact absurd hfresh (by simpa using hnil.resolve_left (by simp) x hx)
    have hgone := hread.all (by simp) x hx hstale
    refine absurd hlive.2 (by
      simp only [decide_not, Bool.not_eq_true', decide_eq_false_iff_not, not_not]
      rw [← hxe]
      exact mem_map_of_mem hgone)
  | cons event found =>
    have hevent : event ∈ ((q.events.lowerBound first.eventId).filter
        (Fresh unixTimeNow)).map RawEvent.toEvent :=
      mem_of_mem_take (hread.found_eq ▸ mem_cons_self)
    obtain ⟨x, hx, rfl⟩ := mem_map.mp hevent
    obtain ⟨hx, hfresh⟩ := mem_filter.mp hx
    have hfresh : Fresh unixTimeNow x := by simpa using hfresh
    have hpos := (hq.each x (mem_lowerBound.mp hx).1).2
    refine ⟨callback', q', x.expiresAt, q.size - q'.size, ?_, h', hpopped.gcAt,
      fun _ => hfresh.1, hpopped.sound.withTime fun _ _ _ => ne_of_gt hpos⟩
    have hnew : newGcAt unixTimeNow (x.toEvent :: found) = some x.expiresAt :=
      (if_neg hfresh.2).trans (if_pos hfresh.1)
    rw [hnew]
    rfl

/-- The number of queues that `run_gc` has to look at. -/
def due (unixTimeNow : Int) (impl : TQueueImpl) : Nat :=
  impl.queueGcAt.toList.countP fun x => x.1 < unixTimeNow

variable {unixTimeNow expiresAt : Int}

/-- **One pass of `run_gc`**: afterwards one queue less is due. -/
theorem collectFirst_ok (himpl : impl.Sound)
    (hstable : PopStable queueId (impl.queue queueId).tailId R)
    (htime : ∀ ⦃callback q⦄ (time : Int), R callback q → R callback { q with gcAt := time })
    (h : R impl.callback (impl.queue queueId)) {gcAt : Int}
    (hfirst : (gcAt, queueId) ∈ impl.queueGcAt.toList) (hdue : gcAt < unixTimeNow) :
    ∃ impl' deleted, collectFirst impl gcAt queueId unixTimeNow = some (impl', deleted) ∧
      Touched R queueId impl impl' ∧ due unixTimeNow impl' < due unixTimeNow impl := by
  obtain ⟨hne, hgc⟩ := (himpl.gc _).mp hfirst
  dsimp only at hgc
  obtain ⟨callback', q', time, deleted, hcollect, h', hsame, hlater, hsound⟩ :=
    collect_ok hstable (himpl.queues queueId) h unixTimeNow
  obtain ⟨s, hschedule, hs, hcount⟩ := scheduleQueueGc_ok himpl.gc hsame time
  refine ⟨_, deleted, ?_, .of_scheduled himpl hsound hs (htime time h'), ?_⟩
  · rw [collectFirst, if_neg (not_not.mpr hgc), hcollect]
    dsimp only [bind_eq_bind, bind_some]
    rw [hschedule]
    rfl
  · refine hcount _ (by rw [hsame, hgc]; exact hne) ?_ fun htime => ?_
    · rw [hsame, hgc]
      simpa using hdue
    · simpa using hlater htime

/-- **`run_gc` ends**, and keeps what every pass keeps. -/
theorem runGc_ok {P : TQueueImpl → Prop}
    (hpass : ∀ ⦃impl gcAt queueId⦄, impl.Sound → P impl → (gcAt, queueId) ∈ impl.queueGcAt.toList →
      gcAt < unixTimeNow → ∃ impl' deleted,
        collectFirst impl gcAt queueId unixTimeNow = some (impl', deleted) ∧ impl'.Sound ∧ P impl' ∧
          due unixTimeNow impl' < due unixTimeNow impl)
    (himpl : impl.Sound) (h : P impl) :
    ∃ impl' deleted, runGc impl unixTimeNow = some (impl', deleted) ∧ impl'.Sound ∧ P impl' := by
  have hloop : ∀ (passes deleted : Nat) {impl : TQueueImpl}, impl.Sound → P impl →
      due unixTimeNow impl < passes → ∃ impl' total,
        runGcLoop unixTimeNow passes impl deleted = some (impl', total) ∧ impl'.Sound ∧
          P impl' := by
    intro passes
    induction passes with
    | zero => exact fun _ _ _ _ hlt => absurd hlt (Nat.not_lt_zero _)
    | succ passes ih =>
      intro deleted impl himpl h hlt
      rw [runGcLoop]
      split
      · exact ⟨impl, deleted, rfl, himpl, h⟩
      rename_i gcAt queueId hhead
      split
      · exact ⟨impl, deleted, rfl, himpl, h⟩
      rename_i hdue
      obtain ⟨impl', d, hcollect, himpl', h', hless⟩ :=
        hpass himpl h (mem_of_mem_head? hhead) (not_le.mp hdue)
      rw [hcollect]
      exact ih _ himpl' h' (by omega)
  exact hloop _ 0 himpl h (Nat.lt_succ_of_le countP_le_length)

/-! ## Adding an event -/

/-- What `do_push` does first: nothing if all events have data, or the last one goes, which has
none. -/
theorem dropLast_cases (callback : Option TQueueMemoryStorage) (hq : q.Sound) :
    (dropLast callback q = (callback, q) ∧ ∀ x ∈ q.events.toList, x.data ≠ []) ∨
    ∃ init last, q.events.toList = init ++ [last] ∧ last.data = [] ∧
      (q.events.erase last.eventId).toList = init ∧
      dropLast callback q =
        (if last.logEventId ≠ 0 then callback.map fun s => s.pop last.logEventId else callback,
          { q with events := q.events.erase last.eventId }) := by
  unfold dropLast
  rcases eq_nil_or_concat' q.events.toList with hnil | ⟨init, last, h⟩
  · rw [hnil]
    exact .inl ⟨rfl, forall_mem_nil _⟩
  have hlast : q.events.toList.getLast? = some last := by rw [h, getLast?_concat]
  rw [hlast]
  by_cases hdata : last.data = []
  · refine .inr ⟨init, last, h, hdata, ?_, if_pos hdata⟩
    have hsorted := q.events.sorted
    rw [h] at hsorted
    have hcross := (pairwise_append.mp hsorted).2.2
    show q.events.toList.filter (fun x => x.eventId ≠ last.eventId) = init
    rw [h, filter_append, filter_cons_of_neg (by simp), filter_nil, append_nil]
    exact filter_eq_self.mpr fun x hx => by
      simpa using ne_of_lt (hcross x hx last (mem_singleton.mpr rfl))
  · refine .inl ⟨if_neg hdata, fun x hx => ?_⟩
    rw [h, mem_append] at hx
    rcases hx with hx | hx
    · exact hq.data_of_init h hx
    · rw [mem_singleton.mp hx]
      exact hdata

/-- The queue that the event is added to: no events without data are left. -/
structure Trimmed (q q' : Queue) : Prop where
  sound : q'.Sound
  tail : q'.tailId = q.tailId
  gcAt : q'.gcAt = q.gcAt
  total : q'.totalEventLength = q.totalEventLength
  count : q'.events.toList.length ≤ q.events.toList.length
  data : ∀ x ∈ q'.events.toList, x.data ≠ []

theorem trimmed_dropLast (callback : Option TQueueMemoryStorage) (hq : q.Sound) :
    Trimmed q (dropLast callback q).2 := by
  rcases dropLast_cases callback hq with ⟨heq, hdata⟩ | ⟨init, last, h, hblank, herase, heq⟩
  · rw [heq]
    exact ⟨hq, rfl, rfl, rfl, le_rfl, hdata⟩
  rw [heq]
  have hmem : ∀ x ∈ init, x ∈ q.events.toList := fun x hx => by
    rw [h]
    exact mem_append_left _ hx
  have hcount := hq.count
  have htotal : lengths q.events.toList = lengths init := by
    rw [h, lengths_append, lengths_cons, hblank]
    exact add_zero _
  rw [h, length_append] at hcount
  refine ⟨⟨?_, ?_, ?_, ?_, hq.bytes, ?_, ?_⟩, rfl, rfl, rfl, ?_, ?_⟩ <;> dsimp only <;> rw [herase]
  · exact fun x hx => hq.ids x (hmem x hx)
  · exact fun x hx => hq.blank x (hmem x hx)
  · rw [hq.total, htotal]
  · omega
  · exact fun x hx => hq.each x (hmem x hx)
  · exact fun x hx => hq.scheduled x (hmem x hx)
  · rw [h, length_append]
    omega
  · exact fun x hx => hq.data_of_init h hx

/-- The checks of `do_push` that return `false`. -/
structure Accepts (q : Queue) (e : RawEvent) : Prop where
  tail : q.tailId ≤ e.eventId
  size : e.data.length ≤ maxEventLength
  count : q.events.toList.length < maxQueueEvents
  bytes : q.totalEventLength + e.data.length ≤ maxTotalEventLength
  expiry : 0 < e.expiresAt

/-- The queue can take the event, and its id is valid and has a next one. -/
structure Fits (q : Queue) (e : RawEvent) : Prop extends Accepts q e where
  pos : 0 < e.eventId.value
  next : e.eventId.value + 1 < maxId

theorem Accepts.trimmed (h : Accepts q e) (ht : Trimmed q q') : Accepts q' e :=
  ⟨ht.tail ▸ h.tail, h.size, lt_of_le_of_lt ht.count h.count, ht.total ▸ h.bytes, h.expiry⟩

theorem Accepts.doPush (h : Accepts (impl.queue queueId) e) (hpos : e.eventId.value ≠ 0) :
    doPush impl queueId e = (addEvent impl queueId e).map fun impl => (impl, true) := by
  have hsize := h.size
  have hcount := h.count
  have hbytes := h.bytes
  have hexpiry := h.expiry
  unfold TQueue.doPush
  rw [if_neg hpos, if_neg (by omega), if_neg ?_]
  rintro (hbad | hbad | hbad | hbad)
  · omega
  · omega
  · omega
  · exact absurd hbad (not_lt_of_ge h.tail)

/-- The event goes to the end. -/
theorem Fits.toList_emplace (h : Fits q e) (hq : q.Sound) :
    (q.events.emplace e).1.toList = q.events.toList ++ [e] := by
  have hlt : ∀ x ∈ q.events.toList, x.eventId < e.eventId := fun x hx =>
    lt_of_lt_of_le (hq.ids x hx).2 h.tail
  rw [emplace, find?_eq_none.mpr fun x hx => ne_of_lt (hlt x hx)]
  exact toList_insert_of_lt hlt

variable (tailId) in
theorem Fits.sound (h : Fits q e) (hq : q.Sound) (hdata : ∀ x ∈ q.events.toList, x.data ≠ [])
    (htail : tailId.value = e.eventId.value + 1) {gcAt : Int}
    (hgc : ∀ x ∈ q.events.toList ++ [e], x.data ≠ [] → gcAt ≠ 0) :
    (⟨tailId, (q.events.emplace e).1, q.totalEventLength + e.data.length, gcAt⟩ : Queue).Sound := by
  have hcount := h.count
  have hbelow := EventId.le_iff.mp h.tail
  refine ⟨?_, ?_, ?_, ?_, h.bytes, ?_, ?_⟩ <;> dsimp only <;> rw [h.toList_emplace hq]
  · intro x hx
    rw [mem_append] at hx
    rw [EventId.lt_iff]
    rcases hx with hx | hx
    · have hids := hq.ids x hx
      rw [EventId.lt_iff] at hids
      omega
    · rw [mem_singleton.mp hx]
      exact ⟨h.pos, by omega⟩
  · intro x hx hblank
    rcases mem_append.mp hx with hx | hx
    · exact absurd hblank (hdata x hx)
    · rw [mem_singleton.mp hx, htail]
  · rw [lengths_append, hq.total]
    rfl
  · rw [length_append, length_singleton]
    omega
  · intro x hx
    rcases mem_append.mp hx with hx | hx
    · exact hq.each x hx
    · rw [mem_singleton.mp hx]
      exact ⟨h.size, h.expiry⟩
  · exact hgc

theorem scheduleFirst_ok (h : Scheduled queueGcAt gcAt) (hq : q.Sound)
    (hdata : ∀ x ∈ q.events.toList, x.data ≠ []) (hgc : q.gcAt = gcAt queueId)
    (hexpiry : 0 < e.expiresAt) :
    ∃ s time, scheduleFirst queueGcAt queueId q e = some (s, { q with gcAt := time }) ∧
      Scheduled s (setTime gcAt queueId time) ∧
      ∀ x ∈ q.events.toList ++ [e], x.data ≠ [] → time ≠ 0 := by
  unfold scheduleFirst
  by_cases hfirst : q.events.toList = [] ∧ e.data ≠ []
  · rw [if_pos hfirst]
    obtain ⟨s, hschedule, hs, _⟩ := scheduleQueueGc_ok h hgc e.expiresAt
    exact ⟨s, e.expiresAt, hschedule, hs, fun _ _ _ => ne_of_gt hexpiry⟩
  rw [if_neg hfirst]
  refine ⟨queueGcAt, q.gcAt, rfl, fun x => (h x).trans ?_, fun x hx hx' => ?_⟩
  · by_cases hid : x.2 = queueId
    · rw [hid, setTime_self, hgc]
    · rw [setTime_of_ne hid]
  -- there are older events, and they all have data
  rcases mem_append.mp hx with hx | hx
  · exact hq.scheduled x hx hx'
  · rw [mem_singleton.mp hx] at hx'
    obtain ⟨y, hy⟩ := exists_mem_of_ne_nil _ fun hnil => hfirst ⟨hnil, hx'⟩
    exact hq.scheduled y hy (hdata y hy)

/-- A new event differs from what was given only in its log id. -/
theorem logEvent_eq (callback : Option TQueueMemoryStorage) (queueId : QueueId) (e : RawEvent) :
    ∃ log, (logEvent callback queueId e).2 = { e with logEventId := log } := by
  unfold logEvent
  split
  · exact ⟨e.logEventId, rfl⟩
  · split
    · exact ⟨_, rfl⟩
    · exact ⟨e.logEventId, rfl⟩

/-- What is there after the event was added. -/
structure Added (queueId : QueueId) (e : RawEvent) (impl impl' : TQueueImpl) : Prop where
  sound : impl'.Sound
  callback : impl'.callback =
    (logEvent (dropLast impl.callback (impl.queue queueId)).1 queueId e).1
  events : (impl'.queue queueId).events.toList =
    (dropLast impl.callback (impl.queue queueId)).2.events.toList ++
      [(logEvent (dropLast impl.callback (impl.queue queueId)).1 queueId e).2]
  tail : (impl'.queue queueId).tailId.value = e.eventId.value + 1
  others : ∀ id, id ≠ queueId → impl'.queues id = impl.queues id

theorem Added.queue_of_ne (h : Added queueId e impl impl') {id : QueueId} (hid : id ≠ queueId) :
    impl'.queue id = impl.queue id := by
  rw [TQueueImpl.queue, h.others id hid]
  rfl

theorem addEvent_ok (himpl : impl.Sound) (hfits : Fits (impl.queue queueId) e) :
    ∃ impl', addEvent impl queueId e = some impl' ∧ Added queueId e impl impl' := by
  have htrim := trimmed_dropLast impl.callback (himpl.queues queueId)
  obtain ⟨log, hlog⟩ := logEvent_eq (dropLast impl.callback (impl.queue queueId)).1 queueId e
  obtain ⟨s, time, hschedule, hs, htime⟩ := scheduleFirst_ok himpl.gc htrim.sound htrim.data
    htrim.gcAt hfits.expiry
  rcases hdrop : dropLast impl.callback (impl.queue queueId) with ⟨callback, q⟩
  rw [hdrop] at htrim hlog hschedule htime
  rcases hevent : logEvent callback queueId e with ⟨callback', e'⟩
  rw [hevent] at hlog
  dsimp only at hlog
  have hvalid := e.eventId.isValidId
  let tailId : EventId := ⟨e.eventId.value + 1, by omega, hfits.next⟩
  have hnext : e'.eventId.next = some tailId := by
    rw [hlog]
    exact EventId.next_eq_some.mpr rfl
  -- the log id plays no part in what follows
  have hfits' : Fits q e' := by
    rw [hlog]
    exact ⟨{ hfits.trimmed htrim with }, hfits.pos, hfits.next⟩
  have htime' : ∀ x ∈ q.events.toList ++ [e'], x.data ≠ [] → time ≠ 0 := by
    intro x hx hdata
    rcases mem_append.mp hx with hx | hx
    · exact htime x (mem_append_left _ hx) hdata
    · rw [mem_singleton.mp hx, hlog] at hdata
      exact htime e (mem_append_right _ (mem_singleton.mpr rfl)) hdata
  have hsound := hfits'.sound tailId htrim.sound htrim.data (by rw [hlog]) htime'
  have htouched := Touched.of_scheduled (R := fun c q' => c = callback' ∧ q' = _) himpl hsound hs
    ⟨rfl, rfl⟩
  refine ⟨_, ?_, htouched.sound, ?_, ?_, ?_, fun _ hid => if_neg hid⟩
  · rw [addEvent, hdrop]
    dsimp only [bind_eq_bind]
    rw [hschedule]
    rw [hevent]
    rw [hnext]
    rfl
  · rw [hdrop, hevent]
    exact htouched.here.1
  · rw [hdrop, hevent, htouched.here.2]
    exact hfits'.toList_emplace htrim.sound
  · rw [htouched.here.2]

/-- **`do_push` adds an event that fits.** -/
theorem doPush_ok (himpl : impl.Sound) (hfits : Fits (impl.queue queueId) e) :
    ∃ impl', doPush impl queueId e = some (impl', true) ∧ Added queueId e impl impl' := by
  obtain ⟨impl', hadd, hadded⟩ := addEvent_ok himpl hfits
  refine ⟨impl', ?_, hadded⟩
  rw [hfits.doPush hfits.pos.ne', hadd]
  rfl

/-! ## Pushing -/

/-- With no tail to compare with, `pop` removes every event it is given. -/
theorem popEach_clears {gone : List RawEvent} (hq : q.Sound)
    (hall : ∀ x ∈ q.events.toList, x ∈ gone) (hgone : ∀ x ∈ gone, x ∈ q.events.toList)
    (hnodup : gone.Nodup) (h : popEach queueId .empty callback q gone = some (callback', q')) :
    q'.events.toList = [] := by
  induction gone generalizing callback q with
  | nil =>
    obtain ⟨_, rfl⟩ := Prod.mk.inj (Option.some.inj h)
    exact eq_nil_iff_forall_not_mem.mpr fun x hx => absurd (hall x hx) (by simp)
  | cons e rest ih =>
    obtain ⟨hnot, hrest⟩ := nodup_cons.mp hnodup
    have he := hgone e mem_cons_self
    obtain ⟨⟨callback1, q1⟩, hpop, hloop⟩ := Option.bind_eq_some_iff.mp h
    have hnext : e.eventId.next ≠ some .empty := fun heq => by
      have hvalue := EventId.next_eq_some.mp heq
      have hpos := (hq.ids e he).1
      have hzero : EventId.empty.value = 0 := rfl
      omega
    rcases pop_cases hpop with ⟨rfl, _⟩ | ⟨_, _, _, heq, _⟩ | ⟨_, heq, _⟩
    · refine ih (hq.removeEvent he) (fun x hx => ?_) (fun x hx => ?_) hrest hloop
      · obtain ⟨hx, hne⟩ := mem_erase.mp hx
        rcases mem_cons.mp (hall x hx) with rfl | hx
        · exact absurd rfl hne
        · exact hx
      · have hmem := hgone x (mem_cons_of_mem _ hx)
        exact mem_erase.mpr ⟨hmem, fun heq =>
          hnot (eq_of_key hmem he heq ▸ hx)⟩
    · exact absurd heq hnext
    · exact absurd heq hnext

variable {hintNewId : EventId}

theorem randomId_ok (random : UInt32) :
    ∃ id, randomId random = some id ∧ 0 < id.value ∧ id.value + 1 < maxId := by
  have hmax : maxId = 2000000000 := rfl
  have hcount : maxQueueEvents = 1000000 := rfl
  have hspan : maxId / 2 - (2 * maxQueueEvents + 1) + 1 = 997999999 + 1 := rfl
  unfold randomId EventId.fromInt32
  dsimp only
  rw [hspan, dif_pos (by omega)]
  exact ⟨_, rfl, by dsimp only; omega, by dsimp only; omega⟩

/-- A queue begins with an id that has a next one. -/
theorem firstId_ok (hhint : hintNewId.next.isSome) (random : UInt32) :
    ∃ id, firstId hintNewId random = some id ∧ 0 < id.value ∧ id.value + 1 < maxId := by
  unfold firstId
  split
  · exact randomId_ok random
  obtain ⟨next, hnext⟩ := isSome_iff_exists.mp hhint
  have hvalue := EventId.next_eq_some.mp hnext
  have hvalid := hintNewId.isValidId
  have hvalid' := next.isValidId
  exact ⟨hintNewId, rfl, by omega, by omega⟩

/-- The queue that is ready for the event with the id `eventId`. -/
structure Chosen (q q' : Queue) (eventId : EventId) : Prop where
  sound : q'.Sound
  tail : q'.tailId = eventId
  pos : 0 < eventId.value
  next : eventId.value + 1 < maxId
  gcAt : q'.gcAt = q.gcAt
  count : q'.events.toList.length ≤ q.events.toList.length
  total : q'.totalEventLength ≤ q.totalEventLength

/-- A queue without events may get any tail. -/
theorem Queue.Sound.withTail (hq : q.Sound) (hnil : q.events.toList = []) (tailId : EventId) :
    ({ q with tailId } : Queue).Sound := by
  refine ⟨?_, ?_, hq.total, hq.count, hq.bytes, ?_, ?_⟩ <;> dsimp only <;> rw [hnil] <;>
    exact forall_mem_nil _

theorem Queue.Sound.nil_of_tail (hq : q.Sound) (htail : q.tailId.value = 0) :
    q.events.toList = [] := by
  refine eq_nil_iff_forall_not_mem.mpr fun x hx => ?_
  obtain ⟨hpos, hlt⟩ := hq.ids x hx
  rw [EventId.lt_iff] at hlt
  omega

/-- **The loop of `push` makes at most two passes.** The queue has no tail yet, or its tail is the
new id, or the ids are used up and all events go. -/
theorem chooseId_cases (hstable : PopStable queueId .empty R) (hq : q.Sound) (h : R callback q)
    (hhint : hintNewId.next.isSome) (random : UInt32) :
    ∃ first, firstId hintNewId random = some first ∧ 0 < first.value ∧ first.value + 1 < maxId ∧
      (q.tailId.value = 0 ∧ chooseId callback q queueId hintNewId random
          = some (callback, { q with tailId := first }, first) ∨
        0 < q.tailId.value ∧ q.tailId.value + 1 < maxId ∧
          chooseId callback q queueId hintNewId random = some (callback, q, q.tailId) ∨
        0 < q.tailId.value ∧ q.tailId.value + 1 = maxId ∧ ∃ callback' q',
          Popped q.events.toList q q' ∧ q'.events.toList = [] ∧ R callback' q' ∧
          chooseId callback q queueId hintNewId random
            = some (callback', { q' with tailId := first }, first)) := by
  obtain ⟨first, hfirst, hpos, hnext⟩ := firstId_ok hhint random
  refine ⟨first, hfirst, hpos, hnext, ?_⟩
  have hsome : first.next.isSome := isSome_iff_exists.mpr
    ⟨⟨first.value + 1, by omega, hnext⟩, EventId.next_eq_some.mpr rfl⟩
  -- a pass over a queue without a tail is the last one
  have hempty : ∀ (passes : Nat) c p, p.tailId.value = 0 →
      chooseLoop queueId hintNewId random (passes + 1) c p
        = some (c, { p with tailId := first }, first) := by
    intro passes c p hzero
    rw [chooseLoop, startTail, if_pos hzero, hfirst]
    dsimp only [bind_eq_bind, bind_some, Option.map_some]
    rw [if_neg (by omega), if_pos hsome]
  by_cases hzero : q.tailId.value = 0
  · exact .inl ⟨hzero, hempty 1 callback q hzero⟩
  have hvalid := q.tailId.isValidId
  by_cases hroom : q.tailId.value + 1 < maxId
  · have hroom' : q.tailId.next.isSome := isSome_iff_exists.mpr
      ⟨⟨q.tailId.value + 1, by omega, hroom⟩, EventId.next_eq_some.mpr rfl⟩
    refine .inr (.inl ⟨by omega, hroom, ?_⟩)
    rw [chooseId, chooseLoop, startTail, if_neg hzero]
    dsimp only [bind_eq_bind, bind_some]
    rw [if_neg hzero, if_pos hroom']
  -- the ids are used up
  have hnone : ¬ q.tailId.next.isSome := by
    intro hsome
    obtain ⟨next, hnext⟩ := isSome_iff_exists.mp hsome
    have hvalue := EventId.next_eq_some.mp hnext
    have hvalid' := next.isValidId
    omega
  obtain ⟨callback1, q1, hloop, hpopped, h1⟩ := popEach_ok hstable hq h (fun _ he => he)
    q.events.nodup (.inr rfl)
  have hnil := popEach_clears hq (fun _ hx => hx) (fun _ hx => hx) q.events.nodup hloop
  refine .inr (.inr ⟨by omega, by omega, callback1, q1, hpopped, hnil, h1, ?_⟩)
  rw [chooseId, chooseLoop, startTail, if_neg hzero]
  dsimp only [bind_eq_bind, bind_some]
  rw [if_neg hzero, if_neg hnone, hloop]
  dsimp only [bind_some]
  rw [if_neg (by simpa using Option.isSome_iff_ne_none.mp hhint),
    hempty 0 callback1 { q1 with tailId := .empty } rfl]

/-- The queue is left sound, with the id at its tail. -/
theorem chooseId_ok (hstable : PopStable queueId .empty R)
    (htail : ∀ ⦃callback q⦄ (tailId : EventId), R callback q → R callback { q with tailId })
    (hq : q.Sound) (h : R callback q) (hhint : hintNewId.next.isSome) (random : UInt32) :
    ∃ callback' q' eventId,
      chooseId callback q queueId hintNewId random = some (callback', q', eventId) ∧
      R callback' q' ∧ Chosen q q' eventId := by
  obtain ⟨first, -, hpos, hnext, ⟨hzero, hchoose⟩ | ⟨hpos', hroom, hchoose⟩ |
    ⟨-, -, callback1, q1, hpopped, hnil, h1, hchoose⟩⟩ := chooseId_cases hstable hq h hhint random
  · exact ⟨callback, _, first, hchoose, htail first h,
      hq.withTail (hq.nil_of_tail hzero) first, rfl, hpos, hnext, rfl, le_rfl, le_rfl⟩
  · exact ⟨callback, q, q.tailId, hchoose, h, hq, rfl, hpos', hroom, rfl, le_rfl,
      le_rfl⟩
  have htotal : q1.totalEventLength = 0 := by
    rw [hpopped.sound.total, hnil]
    rfl
  refine ⟨callback1, _, first, hchoose, htail first h1, hpopped.sound.withTail hnil first, rfl,
    hpos, hnext, hpopped.gcAt, ?_, ?_⟩
  · rw [hnil]
    exact Nat.zero_le _
  · rw [htotal]
    exact Nat.zero_le _

/-- The event is one that a queue with these events may take. -/
structure Pushable (q : Queue) (data : Bytes) (expiresAt : Int) : Prop where
  nonempty : data ≠ []
  size : data.length ≤ maxEventLength
  count : q.events.toList.length < maxQueueEvents
  bytes : q.totalEventLength + data.length ≤ maxTotalEventLength
  expiry : 0 < expiresAt

/-- A queue that is ready takes the event. -/
theorem pushChecked_chosen (himpl : impl.Sound) {eventId : EventId} {random : UInt32}
    (hchoose : chooseId impl.callback (impl.queue queueId) queueId hintNewId random
      = some (callback, q, eventId))
    (hchosen : Chosen (impl.queue queueId) q eventId) {data : Bytes}
    (hpush : Pushable (impl.queue queueId) data expiresAt) (extra : Int) :
    ∃ impl', pushChecked impl queueId data expiresAt extra hintNewId random
        = some (impl', eventId) ∧
      Added queueId ⟨0, eventId, data, extra, expiresAt⟩
        ({ impl with callback }.withQueue queueId q) impl' := by
  have hsound : ({ impl with callback }.withQueue queueId q).Sound :=
    (Touched.of_sound (R := fun _ _ => True) himpl hchosen.sound hchosen.gcAt trivial).sound
  have hcount := hpush.count
  have hbytes := hpush.bytes
  have hcount1 := hchosen.count
  have htotal1 := hchosen.total
  have hfits : Fits (({ impl with callback }.withQueue queueId q).queue queueId)
      ⟨0, eventId, data, extra, expiresAt⟩ := by
    rw [queue_withQueue_self]
    exact ⟨⟨le_of_eq hchosen.tail, hpush.size, by omega, by dsimp only; omega, hpush.expiry⟩,
      hchosen.pos, hchosen.next⟩
  obtain ⟨impl', hdoPush, hadded⟩ := doPush_ok hsound hfits
  refine ⟨impl', ?_, hadded⟩
  rw [pushChecked, hchoose]
  dsimp only [bind_eq_bind, bind_some]
  rw [hdoPush]
  rfl

/-- The queue is made ready first, and then the event is added to it. -/
theorem pushChecked_ok (himpl : impl.Sound) (hstable : PopStable queueId .empty R)
    (htail : ∀ ⦃callback q⦄ (tailId : EventId), R callback q → R callback { q with tailId })
    (h : R impl.callback (impl.queue queueId)) (hhint : hintNewId.next.isSome) {data : Bytes}
    (hpush : Pushable (impl.queue queueId) data expiresAt) (extra : Int) (random : UInt32) :
    ∃ impl1 impl' eventId,
      pushChecked impl queueId data expiresAt extra hintNewId random = some (impl', eventId) ∧
      Touched R queueId impl impl1 ∧
      Added queueId ⟨0, eventId, data, extra, expiresAt⟩ impl1 impl' := by
  obtain ⟨callback1, q1, eventId, hchoose, h1, hchosen⟩ :=
    chooseId_ok hstable htail (himpl.queues queueId) h hhint random
  obtain ⟨impl', hpushed, hadded⟩ := pushChecked_chosen himpl hchoose hchosen hpush extra
  exact ⟨_, impl', eventId, hpushed, .of_sound himpl hchosen.sound hchosen.gcAt h1, hadded⟩

/-- Nothing but a queue with no events may have come into being. -/
structure Unchanged (impl impl' : TQueueImpl) : Prop where
  queue : ∀ id, impl'.queue id = impl.queue id
  queueGcAt : impl'.queueGcAt = impl.queueGcAt
  callback : impl'.callback = impl.callback

theorem Unchanged.withQueue (impl : TQueueImpl) (queueId : QueueId) :
    Unchanged impl (impl.withQueue queueId (impl.queue queueId)) where
  queue id := by
    by_cases hid : id = queueId
    · rw [hid, queue_withQueue_self]
    · exact queue_withQueue_of_ne hid
  queueGcAt := rfl
  callback := rfl

/-- **`push` never fails a `CHECK`.** It refuses the event and changes nothing, or adds it. -/
theorem push_ok (himpl : impl.Sound) (hstable : PopStable queueId .empty R)
    (htail : ∀ ⦃callback q⦄ (tailId : EventId), R callback q → R callback { q with tailId })
    (h : R impl.callback (impl.queue queueId)) (hhint : hintNewId.next.isSome) (data : Bytes)
    (expiresAt extra : Int) (random : UInt32) :
    ∃ impl' answer, push impl queueId data expiresAt extra hintNewId random = some (impl', answer) ∧
      (¬ Pushable (impl.queue queueId) data expiresAt ∧ Unchanged impl impl' ∨
        Pushable (impl.queue queueId) data expiresAt ∧ ∃ impl1 eventId, answer = .ok eventId ∧
          Touched R queueId impl impl1 ∧
          Added queueId ⟨0, eventId, data, extra, expiresAt⟩ impl1 impl') := by
  have hsame : Unchanged impl impl := ⟨fun _ => rfl, rfl, rfl⟩
  unfold push
  by_cases hdata : data = []
  · rw [if_pos hdata]
    exact ⟨_, _, rfl, .inl ⟨fun hp => hp.nonempty hdata, hsame⟩⟩
  rw [if_neg hdata]
  by_cases hsize : data.length > maxEventLength
  · rw [if_pos hsize]
    exact ⟨_, _, rfl, .inl ⟨fun hp => absurd hp.size (by omega), hsame⟩⟩
  rw [if_neg hsize]
  by_cases hcount : (impl.queue queueId).events.toList.length ≥ maxQueueEvents
  · rw [if_pos hcount]
    exact ⟨_, _, rfl, .inl ⟨fun hp => absurd hp.count (by omega), .withQueue _ _⟩⟩
  rw [if_neg hcount]
  by_cases hbytes : (impl.queue queueId).totalEventLength > maxTotalEventLength - data.length
  · rw [if_pos hbytes]
    exact ⟨_, _, rfl, .inl ⟨fun hp => absurd hp.bytes (by omega), .withQueue _ _⟩⟩
  rw [if_neg hbytes]
  by_cases hexpiry : expiresAt ≤ 0
  · rw [if_pos hexpiry]
    exact ⟨_, _, rfl, .inl ⟨fun hp => absurd hp.expiry (by omega), .withQueue _ _⟩⟩
  rw [if_neg hexpiry]
  have hlimit : maxEventLength ≤ maxTotalEventLength := by decide
  have hpush : Pushable (impl.queue queueId) data expiresAt :=
    ⟨hdata, by omega, by omega, by omega, by omega⟩
  obtain ⟨impl1, impl', eventId, hchecked, htouched, hadded⟩ :=
    pushChecked_ok himpl hstable htail h hhint hpush extra random
  rw [hchecked]
  exact ⟨impl', .ok eventId, rfl, .inr ⟨hpush, impl1, eventId, rfl, htouched, hadded⟩⟩

end Tdlib.TQueue
