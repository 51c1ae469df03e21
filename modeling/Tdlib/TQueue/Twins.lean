import Tdlib.TQueue.Recent

/-!
# Queues with and without a storage

Two objects are given the same calls. One has no storage. The other one has one, and now and then it
is thrown away and built again from the storage. Each collects its garbage when it likes.

They differ in much: in the events that have expired and were not collected, in the last event,
which only one of them keeps without its data, and so in their heads and sizes. But they agree in
their tails and their recent events, and nobody is shown anything else. What is refused is shown
too, and there the space that is taken by expired events can be seen.
-/

namespace Tdlib.TQueue

open List Lib Tl

/-- Two queues that get the same pushes; one has a storage. -/
structure Twins where
  plain : TQueueImpl
  stored : TQueueImpl

namespace Twins

def new : Twins := ⟨.new none, .new (some .new)⟩

/-- A call on both, or a clean-up or restart of one. -/
inductive Move where
  /-- Each object has a random generator of its own. -/
  | push (queueId : QueueId) (data : Bytes) (expiresAt extra : Int) (hintNewId : EventId)
      (random random' : UInt32)
  | get (queueId : QueueId) (fromId : EventId) (forgetPrevious : Bool) (unixTimeNow : Int)
      (size : Nat)
  | forget (queueId : QueueId) (eventId : EventId)
  | gcPlain (unixTimeNow : Int)
  | gcStored (unixTimeNow : Int)
  | restart

/-- What the two have answered. -/
inductive Seen where
  | pushed (plain stored : Except PushError EventId)
  | got (plain stored : Except GetError (List Event))
  | nothing

def Seen.Same : Seen → Prop
  | .pushed plain stored => plain = stored
  | .got plain stored => plain = stored
  | .nothing => True

end Twins

/-- A new object that the storage is replayed into before it gets it. -/
def restart (impl : TQueueImpl) : Option TQueueImpl :=
  impl.callback.bind fun storage =>
    (replay storage (.new none)).map fun impl => { impl with callback := some storage }

namespace Twins

def move (s : Twins) : Move → Option (Twins × Seen)
  | .push queueId data expiresAt extra hintNewId random random' => do
      let (plain, a) ← TQueue.push s.plain queueId data expiresAt extra hintNewId random
      let (stored, b) ← TQueue.push s.stored queueId data expiresAt extra hintNewId random'
      return (⟨plain, stored⟩, .pushed a b)
  | .get queueId fromId forgetPrevious unixTimeNow size => do
      let (plain, a) ← TQueue.get s.plain queueId fromId forgetPrevious unixTimeNow size
      let (stored, b) ← TQueue.get s.stored queueId fromId forgetPrevious unixTimeNow size
      return (⟨plain, stored⟩, .got (a.map Prod.snd) (b.map Prod.snd))
  | .forget queueId eventId => do
      let plain ← TQueue.forget s.plain queueId eventId
      let stored ← TQueue.forget s.stored queueId eventId
      return (⟨plain, stored⟩, .nothing)
  | .gcPlain unixTimeNow => do
      let (plain, _) ← runGc s.plain unixTimeNow
      return ({ s with plain }, .nothing)
  | .gcStored unixTimeNow => do
      let (stored, _) ← runGc s.stored unixTimeNow
      return ({ s with stored }, .nothing)
  | .restart => do
      let stored ← TQueue.restart s.stored
      return ({ s with stored }, .nothing)

/-- The time after a move. -/
def Move.time (time : Int) : Move → Int
  | .get _ _ _ unixTimeNow _ | .gcPlain unixTimeNow | .gcStored unixTimeNow => unixTimeNow
  | _ => time

def Move.pushes : Move → Nat
  | .push .. => 1
  | _ => 0

/-- The queue is full neither in events nor in bytes. -/
structure HasRoom (q : Queue) (data : Bytes) : Prop where
  count : q.events.toList.length < maxQueueEvents
  bytes : q.totalEventLength + data.length ≤ maxTotalEventLength

/-- What is asked of a move: a hint with a next id, room, an id near the tail, and a time that is
not before the last one. -/
def Allowed (time : Int) (s : Twins) : Move → Prop
  | .push queueId data _ _ hintNewId _ _ => hintNewId.value ≠ 0 ∧ hintNewId.next.isSome ∧
      HasRoom (s.plain.queue queueId) data ∧ HasRoom (s.stored.queue queueId) data
  | .get queueId fromId _ unixTimeNow _ => time ≤ unixTimeNow ∧
      (s.plain.getTail queueId).value - maxQueueEvents ≤ fromId.value ∧
      fromId.value ≤ (s.plain.getTail queueId).value + 10
  | .forget .. => True
  | .gcPlain unixTimeNow => time ≤ unixTimeNow
  | .gcStored unixTimeNow => time ≤ unixTimeNow
  | .restart => True

/-- What can be reached by so many pushes up to this time. -/
inductive Reached : Nat → Int → Twins → Prop
  | new (time : Int) : Reached 0 time .new
  | move {n : Nat} {time : Int} {s s' : Twins} {m : Move} {seen : Seen} (h : Reached n time s)
      (hallowed : Allowed time s m) (hmove : s.move m = some (s', seen)) :
      Reached (n + m.pushes) (m.time time) s'

/-! ## What the two have in common -/

variable {n : Nat} {time unixTimeNow : Int} {s s' : Twins} {a a' b b' : TQueueImpl}

/-- The same tails, and the same events that have not expired. -/
structure Agree (time : Int) (a b : TQueueImpl) : Prop where
  tail : ∀ id, (a.queue id).tailId = (b.queue id).tailId
  recent : ∀ id, (a.queue id).recent time = (b.queue id).recent time

theorem Agree.later (h : Agree time a b) (hle : time ≤ unixTimeNow) : Agree unixTimeNow a b where
  tail := h.tail
  recent id := by
    rw [Queue.recent_later hle, Queue.recent_later hle, h.recent]

/-- The same events were removed from both. -/
theorem Agree.filtered {keep : QueueId → Event → Bool} (h : Agree time a b)
    (ha : Filtered time keep a a') (hb : Filtered time keep b b') : Agree time a' b' where
  tail id := by
    rw [ha.tail, hb.tail, h.tail]
  recent id := by
    rw [ha.recent, hb.recent, h.recent]

variable {queueId : QueueId} {hintNewId : EventId} {data : Bytes}

/-- The same event was added to both. -/
theorem Agree.added {v : Event} (h : Agree time a b)
    (hothers : ∀ id, id ≠ queueId → a'.queue id = a.queue id)
    (hothers' : ∀ id, id ≠ queueId → b'.queue id = b.queue id)
    (htail : (a'.queue queueId).tailId.value =
      (pickId (a.queue queueId).tailId hintNewId).value + 1)
    (htail' : (b'.queue queueId).tailId.value =
      (pickId (b.queue queueId).tailId hintNewId).value + 1)
    (hlive : (a'.queue queueId).live =
      (if (a.queue queueId).tailId.value + 1 = maxId then [] else (a.queue queueId).live) ++ [v])
    (hlive' : (b'.queue queueId).live =
      (if (b.queue queueId).tailId.value + 1 = maxId then [] else (b.queue queueId).live) ++ [v]) :
    Agree time a' b' where
  tail id := by
    by_cases hid : id = queueId
    · rw [hid]
      refine EventId.eq_of_value ?_
      rw [htail, htail', h.tail]
    · rw [hothers id hid, hothers' id hid, h.tail]
  recent id := by
    by_cases hid : id = queueId
    · have hrecent := h.recent queueId
      rw [hid, Queue.recent, Queue.recent, hlive, hlive', h.tail, filter_append,
        filter_append]
      congr 1
      split
      · rfl
      · exact hrecent
    · rw [hothers id hid, hothers' id hid, h.recent]

/-- **The relation between the two.** The storage has given away a log id for each push at most. -/
structure Matched (n : Nat) (time : Int) (s : Twins) : Prop where
  plain : s.plain.Sound
  /-- The storage mirrors its queues. -/
  stored : ∃ k storage, k ≤ n + 1 ∧ Persistent k s.stored storage
  agree : Agree time s.plain s.stored

theorem Matched.new (time : Int) : Matched 0 time .new where
  plain := .new none
  stored := ⟨1, .new, le_rfl, .new⟩
  agree := ⟨fun _ => rfl, fun _ => rfl⟩

/-! ## One move -/

/-- **What is built again from the storage shows the same.** -/
theorem restart_ok {k : Nat} {storage : TQueueMemoryStorage} (h : Persistent k b storage) :
    ∃ b', TQueue.restart b = some b' ∧ Persistent k b' storage ∧
      ∀ time, Filtered time keepAll b b' := by
  have hqueues : ∀ id, ∃ q : Queue, q.Sound ∧
      q.events.toList = sliceOf ([] ++ storage.events.toList) id := fun id =>
    ⟨b.queue id, h.sound.queues id, (h.slices id).symm⟩
  obtain ⟨r, hreplay, hr⟩ := rebuilt_nil.replay hqueues
  have hreplay : replay storage (.new none) = some r := hreplay
  have hevents : ∀ id, (r.queue id).events.toList = (b.queue id).events.toList := fun id =>
    (hr.slices id).trans (h.slices id)
  refine ⟨{ r with callback := some storage }, ?_, ?_, fun time => ⟨fun id => ?_, fun id => ?_⟩⟩
  · rw [TQueue.restart, h.callback, Option.bind_some, hreplay]
    rfl
  · exact ⟨⟨hr.sound.queues, hr.sound.gc⟩, rfl, h.numbered, fun id => (hr.slices id).symm, hr.ended⟩
  · exact tail_eq (hr.sound.queues id) (h.sound.queues id) (hr.ended id) (h.ended id) (hevents id)
  · rw [filter_keepAll, Queue.recent_eq, Queue.recent_eq]
    exact congrArg (fun l => (l.filter (Fresh time)).map RawEvent.toEvent) (hevents id)

/-- After a call the queues are as sound as before it. -/
theorem sound_of_step (op : Op) (ha : a.Sound) (hhint : op.Hinted) (h : step a op = some a') :
    a'.Sound := by
  obtain ⟨a'', hstep, hsound⟩ := step_sound ha hhint
  rw [h] at hstep
  cases hstep
  exact hsound

theorem Matched.forget (h : Matched n time s) (queueId : QueueId) (eventId : EventId) :
    ∃ s', s.move (.forget queueId eventId) = some (s', .nothing) ∧ Matched n time s' := by
  obtain ⟨k, storage, hk, hstored⟩ := h.stored
  obtain ⟨plain, hplain, hfiltered⟩ := forget_recent h.plain queueId eventId time
  obtain ⟨stored, hforget, hfiltered'⟩ := forget_recent hstored.sound queueId eventId time
  obtain ⟨stored', storage', hforget', hstored'⟩ := hstored.forget queueId eventId
  rw [hforget] at hforget'
  cases hforget'
  refine ⟨⟨plain, stored⟩, ?_, ?_, ⟨k, storage', hk, hstored'⟩,
    h.agree.filtered hfiltered hfiltered'⟩
  · show (TQueue.forget s.plain queueId eventId).bind _ = _
    rw [hplain]
    rw [hforget]
    rfl
  · exact sound_of_step (.forget queueId eventId) h.plain trivial hplain

section

variable (h : Matched n time s) (htime : time ≤ unixTimeNow)
include h htime

theorem Matched.get {fromId : EventId}
    (hlow : (s.plain.getTail queueId).value - maxQueueEvents ≤ fromId.value)
    (hhigh : fromId.value ≤ (s.plain.getTail queueId).value + 10) (forget : Bool) (size : Nat) :
    ∃ s' seen, s.move (.get queueId fromId forget unixTimeNow size) = some (s', seen) ∧ seen.Same ∧
      Matched n unixTimeNow s' := by
  obtain ⟨k, storage, hk, hstored⟩ := h.stored
  have hagree := h.agree.later htime
  have htail : s.stored.getTail queueId = s.plain.getTail queueId := by
    rw [getTail_eq, getTail_eq, hagree.tail]
  obtain ⟨plain, count, hplain, hfiltered⟩ :=
    get_recent h.plain hlow hhigh forget unixTimeNow size
  obtain ⟨stored, count', hget, hfiltered'⟩ := get_recent hstored.sound
    (by rw [htail]; exact hlow) (by rw [htail]; exact hhigh) forget unixTimeNow size
  rw [← hagree.recent] at hget
  obtain ⟨found, hfound⟩ : ∃ found, found
      = (((s.plain.queue queueId).recent unixTimeNow).filter fun v => fromId ≤ v.id).take size :=
    ⟨_, rfl⟩
  rw [← hfound] at hplain hget
  obtain ⟨stored', answer, storage', hget', hstored'⟩ :=
    hstored.get queueId fromId forget unixTimeNow size
  rw [hget] at hget'
  cases hget'
  refine ⟨⟨plain, stored⟩, .got (.ok found) (.ok found), ?_, rfl, ?_, ⟨k, storage', hk, hstored'⟩,
    hagree.filtered hfiltered hfiltered'⟩
  · show (TQueue.get s.plain queueId fromId forget unixTimeNow size).bind _ = _
    rw [hplain]
    rw [hget]
    rfl
  · refine sound_of_step (.get queueId fromId forget unixTimeNow size) h.plain trivial ?_
    rw [step, hplain]
    rfl

theorem Matched.gcPlain :
    ∃ s', s.move (.gcPlain unixTimeNow) = some (s', .nothing) ∧ Matched n unixTimeNow s' := by
  obtain ⟨plain, deleted, hplain, hfiltered⟩ := runGc_recent h.plain unixTimeNow
  refine ⟨{ s with plain }, ?_, ?_, h.stored,
    (h.agree.later htime).filtered hfiltered (.refl unixTimeNow s.stored)⟩
  · show (runGc s.plain unixTimeNow).bind _ = _
    rw [hplain]
    rfl
  · refine sound_of_step (.runGc unixTimeNow) h.plain trivial ?_
    rw [step, hplain]
    rfl

theorem Matched.gcStored :
    ∃ s', s.move (.gcStored unixTimeNow) = some (s', .nothing) ∧ Matched n unixTimeNow s' := by
  obtain ⟨k, storage, hk, hstored⟩ := h.stored
  obtain ⟨stored, deleted, hgc, hfiltered⟩ := runGc_recent hstored.sound unixTimeNow
  obtain ⟨stored', deleted', storage', hgc', hstored'⟩ := hstored.runGc unixTimeNow
  rw [hgc] at hgc'
  cases hgc'
  refine ⟨{ s with stored }, ?_, h.plain, ⟨k, storage', hk, hstored'⟩,
    (h.agree.later htime).filtered (.refl unixTimeNow s.plain) hfiltered⟩
  show (runGc s.stored unixTimeNow).bind _ = _
  rw [hgc]
  rfl

end

theorem Matched.restart (h : Matched n time s) :
    ∃ s', s.move .restart = some (s', .nothing) ∧ Matched n time s' := by
  obtain ⟨k, storage, hk, hstored⟩ := h.stored
  obtain ⟨stored, hrestart, hstored', hfiltered⟩ := restart_ok hstored
  refine ⟨{ s with stored }, ?_, h.plain, ⟨k, storage, hk, hstored'⟩,
    h.agree.filtered (.refl time s.plain) (hfiltered time)⟩
  show (TQueue.restart s.stored).bind _ = _
  rw [hrestart]
  rfl

theorem Agree.unchanged (h : Agree time a b) (ha : Unchanged a a') (hb : Unchanged b b') :
    Agree time a' b' where
  tail id := by
    rw [ha.queue, hb.queue, h.tail]
  recent id := by
    rw [ha.queue, hb.queue, h.recent]

/-- Both refuse the event for the same reason, or give it the same id. -/
theorem Agree.push (h : Agree time a b) (ha : a.Sound) (hb : b.Sound) (hne : hintNewId.value ≠ 0)
    (hhint : hintNewId.next.isSome) (hroom : HasRoom (a.queue queueId) data)
    (hroom' : HasRoom (b.queue queueId) data) (expiresAt extra : Int) (random random' : UInt32) :
    ∃ a' b' answer,
      TQueue.push a queueId data expiresAt extra hintNewId random = some (a', answer) ∧
      TQueue.push b queueId data expiresAt extra hintNewId random' = some (b', answer) ∧
      Agree time a' b' := by
  rcases push_room hroom.count hroom.bytes expiresAt extra hintNewId random with
    ⟨error, a', hrefusal, hpush, hsame⟩ | ⟨hrefusal, hpushable, hpush⟩
  · rcases push_room hroom'.count hroom'.bytes expiresAt extra hintNewId random' with
      ⟨error', b', hrefusal', hpush', hsame'⟩ | ⟨hrefusal', -, -⟩
    · rw [hrefusal] at hrefusal'
      cases hrefusal'
      exact ⟨a', b', _, hpush, hpush', h.unchanged hsame hsame'⟩
    · rw [hrefusal] at hrefusal'
      cases hrefusal'
  rcases push_room hroom'.count hroom'.bytes expiresAt extra hintNewId random' with
    ⟨error', b', hrefusal', -, -⟩ | ⟨-, hpushable', hpush'⟩
  · rw [hrefusal] at hrefusal'
    cases hrefusal'
  obtain ⟨a', hadd, hothers, htail, hlive⟩ :=
    pushChecked_recent ha hhint hne hpushable extra random
  obtain ⟨b', hadd', hothers', htail', hlive'⟩ :=
    pushChecked_recent hb hhint hne hpushable' extra random'
  have hid : pickId (b.queue queueId).tailId hintNewId
      = pickId (a.queue queueId).tailId hintNewId := by
    rw [h.tail]
  refine ⟨a', b', .ok (pickId (a.queue queueId).tailId hintNewId), ?_, ?_, ?_⟩
  · rw [hpush, hadd]
    rfl
  · rw [hpush', hadd', hid]
    rfl
  · rw [hid] at hlive'
    exact h.added hothers hothers' htail htail' hlive hlive'

/-- A push takes place in both. -/
theorem move_push {plain stored : TQueueImpl} {expiresAt extra : Int} {random random' : UInt32}
    {answer answer' : Except PushError EventId}
    (h : TQueue.push s.plain queueId data expiresAt extra hintNewId random = some (plain, answer))
    (h' : TQueue.push s.stored queueId data expiresAt extra hintNewId random'
      = some (stored, answer')) :
    s.move (.push queueId data expiresAt extra hintNewId random random')
      = some (⟨plain, stored⟩, .pushed answer answer') := by
  show (TQueue.push s.plain queueId data expiresAt extra hintNewId random).bind _ = _
  rw [h]
  rw [h']
  rfl

theorem Matched.push (h : Matched n time s) (hn : n + 1 < 0x10000000000000000)
    (hne : hintNewId.value ≠ 0) (hhint : hintNewId.next.isSome)
    (hroom : HasRoom (s.plain.queue queueId) data)
    (hroom' : HasRoom (s.stored.queue queueId) data) (expiresAt extra : Int)
    (random random' : UInt32) :
    ∃ s' seen, s.move (.push queueId data expiresAt extra hintNewId random random')
        = some (s', seen) ∧ seen.Same ∧ Matched (n + 1) time s' := by
  obtain ⟨k, storage, hk, hstored⟩ := h.stored
  obtain ⟨plain, stored, answer, hpush, hpush', hagree⟩ :=
    h.agree.push h.plain hstored.sound hne hhint hroom hroom' expiresAt extra random random'
  obtain ⟨stored', answer', k', storage', hpush'', hk', -, -, hstored'⟩ :=
    hstored.push (by omega) hhint queueId data expiresAt extra random'
  rw [hpush'] at hpush''
  cases hpush''
  refine ⟨⟨plain, stored⟩, .pushed answer answer, move_push hpush hpush', rfl, ?_,
    ⟨k', storage', by omega, hstored'⟩, hagree⟩
  refine sound_of_step (.push queueId data expiresAt extra hintNewId random) h.plain hhint ?_
  rw [step, hpush]
  rfl

/-- **Every move keeps the relation**, and the two give the same answer. -/
theorem Matched.move (h : Matched n time s) {m : Move} (hallowed : Allowed time s m)
    (hn : n + m.pushes < 0x10000000000000000) :
    ∃ s' seen, s.move m = some (s', seen) ∧ seen.Same ∧
      Matched (n + m.pushes) (m.time time) s' := by
  cases m with
  | push queueId data expiresAt extra hintNewId random random' =>
    obtain ⟨hne, hhint, hroom, hroom'⟩ := hallowed
    exact h.push hn hne hhint hroom hroom' expiresAt extra random random'
  | get queueId fromId forgetPrevious unixTimeNow size =>
    obtain ⟨htime, hlow, hhigh⟩ := hallowed
    exact h.get htime hlow hhigh forgetPrevious size
  | forget queueId eventId =>
    obtain ⟨s', hmove, h'⟩ := h.forget queueId eventId
    exact ⟨s', .nothing, hmove, trivial, h'⟩
  | gcPlain unixTimeNow =>
    obtain ⟨s', hmove, h'⟩ := h.gcPlain hallowed
    exact ⟨s', .nothing, hmove, trivial, h'⟩
  | gcStored unixTimeNow =>
    obtain ⟨s', hmove, h'⟩ := h.gcStored hallowed
    exact ⟨s', .nothing, hmove, trivial, h'⟩
  | restart =>
    obtain ⟨s', hmove, h'⟩ := h.restart
    exact ⟨s', .nothing, hmove, trivial, h'⟩

theorem Reached.matched (h : Reached n time s) (hn : n < 0x10000000000000000) :
    Matched n time s := by
  induction h with
  | new time => exact .new time
  | move h hallowed hmove ih =>
    obtain ⟨s', seen, hmove', -, h'⟩ := (ih (by omega)).move hallowed hn
    rw [hmove] at hmove'
    cases hmove'
    exact h'

/-- **A storage and restarts make no difference.** Wherever fewer than 2^64 pushes have led the two,
they have the same tails, and they give the same answer to whatever comes next. -/
theorem same_answers (h : Reached n time s) (hn : n < 0x10000000000000000) :
    (∀ id, s.plain.getTail id = s.stored.getTail id) ∧
      ∀ m, Allowed time s m → n + m.pushes < 0x10000000000000000 →
        ∃ s' seen, s.move m = some (s', seen) ∧ seen.Same := by
  have hmatched := h.matched hn
  refine ⟨fun id => ?_, fun m hallowed hn' => ?_⟩
  · rw [getTail_eq, getTail_eq, hmatched.agree.tail]
  · obtain ⟨s', seen, hmove, hsame, -⟩ := hmatched.move hallowed hn'
    exact ⟨s', seen, hmove, hsame⟩

/-- One of two events has expired and was collected on one side, which was then restarted. -/
theorem same_answers_restarted : ∃ s, Reached 2 50 s ∧
    (s.plain.live 1).length = 2 ∧ (s.stored.live 1).length = 1 ∧
    s.plain.getTail 1 = s.stored.getTail 1 ∧
    ∃ s' seen, s.move (.get 1 oneId true 60 5) = some (s', seen) ∧ seen.Same := by
  have h1 : Reached 1 0 _ := (Reached.new 0).move (m := .push 1 [7] 10 0 oneId 0 0)
    ⟨by decide, by decide, ⟨by decide, by decide⟩, ⟨by decide, by decide⟩⟩ rfl
  have h2 : Reached 2 0 _ := h1.move (m := .push 1 [8] 100 0 oneId 0 0)
    ⟨by decide, by decide, ⟨by decide, by decide⟩, ⟨by decide, by decide⟩⟩ rfl
  have h3 : Reached 2 50 _ := h2.move (m := .gcStored 50) (by decide : (0 : Int) ≤ 50) rfl
  have h4 : Reached 2 50 _ := h3.move (m := .restart) trivial rfl
  obtain ⟨htail, hanswer⟩ := same_answers h4 (by decide)
  exact ⟨_, h4, by decide, by decide, htail 1,
    hanswer (.get 1 oneId true 60 5) ⟨by decide, by decide, by decide⟩ (by decide)⟩

end Twins

/-! ## Expired events take space -/

/-- Events without data have no bytes. -/
theorem lengths_eq (l : List RawEvent) :
    lengths l = (((l.filter fun e => e.data ≠ []).map RawEvent.toEvent).map
      fun v => v.data.length).sum := by
  induction l with
  | nil => rfl
  | cons e l ih =>
    rw [lengths_cons, ih]
    by_cases hdata : e.data = []
    · rw [filter_cons_of_neg (by simpa using hdata), hdata]
      exact zero_add _
    · rw [filter_cons_of_pos (by simpa using hdata)]
      rfl

/-- At most one event has no data. -/
theorem Queue.Sound.length_le_live {q : Queue} (hq : q.Sound) :
    q.events.toList.length ≤ q.live.length + 1 := by
  rw [← hq.size_eq, Queue.size]
  cases hlast : q.events.toList.getLast? with
  | none =>
    rw [getLast?_eq_none_iff.mp hlast]
    exact Nat.zero_le _
  | some last =>
    dsimp only
    split
    · omega
    · omega

/-- As much data as an event may have. -/
def block : Bytes := replicate maxEventLength 0

theorem length_block : block.length = maxEventLength := length_replicate

theorem block_ne_nil : block ≠ [] := by
  intro hnil
  have hlength := length_block
  have hmax : maxEventLength = 524288 := rfl
  rw [hnil, length_nil] at hlength
  omega

/-- So many of the largest events were pushed to the first queue, all of them for one second. -/
structure Filled (k : Nat) (impl : TQueueImpl) : Prop where
  count : (impl.queue 1).live.length = k
  each : ∀ v ∈ (impl.queue 1).live, v.data.length = maxEventLength ∧ v.expiresAt = 1
  tail : (impl.queue 1).tailId.value ≤ k + 1

variable {k : Nat} {impl : TQueueImpl}

theorem Filled.total (h : Filled k impl) (himpl : impl.Sound) :
    (impl.queue 1).totalEventLength = k * maxEventLength := by
  have hmap : (impl.queue 1).live.map (fun v => v.data.length)
      = (impl.queue 1).live.map fun _ => maxEventLength :=
    map_congr_left fun v hv => (h.each v hv).1
  rw [(himpl.queues 1).total, lengths_eq]
  show ((impl.queue 1).live.map fun v => v.data.length).sum = _
  rw [hmap, map_const', sum_replicate_nat, h.count]

theorem Filled.hasRoom (h : Filled k impl) (himpl : impl.Sound) (hk : k < 2048) :
    Twins.HasRoom (impl.queue 1) block := by
  have hmax : maxEventLength = 524288 := rfl
  have hmax' : maxTotalEventLength = 1073741824 := rfl
  have hmax'' : maxQueueEvents = 1000000 := rfl
  have hcount := (himpl.queues 1).length_le_live
  rw [h.count] at hcount
  refine ⟨by omega, ?_⟩
  rw [h.total himpl, length_block, hmax]
  omega

/-- The largest event is added where there is room. -/
theorem push_block (himpl : impl.Sound) (hroom : Twins.HasRoom (impl.queue 1) block)
    {expiresAt : Int} (hexpiry : 0 < expiresAt) (random : UInt32) :
    ∃ impl', push impl 1 block expiresAt 0 oneId random
        = some (impl', .ok (pickId (impl.queue 1).tailId oneId)) ∧
      (impl'.queue 1).tailId.value = (pickId (impl.queue 1).tailId oneId).value + 1 ∧
      (impl'.queue 1).live =
        (if (impl.queue 1).tailId.value + 1 = maxId then [] else (impl.queue 1).live) ++
          [⟨pickId (impl.queue 1).tailId oneId, expiresAt, block, 0⟩] := by
  have hfine : refusal block expiresAt = none := by
    unfold refusal
    rw [if_neg block_ne_nil, if_neg (by rw [length_block]; omega), if_neg (by omega)]
  rcases push_room hroom.count hroom.bytes expiresAt 0 oneId random with
    ⟨error, -, hrefusal, -⟩ | ⟨-, hpushable, hpush⟩
  · rw [hfine] at hrefusal
    cases hrefusal
  have hhint : oneId.next.isSome := by decide
  have hne : oneId.value ≠ 0 := by decide
  obtain ⟨impl', hadd, -, htail, hlive⟩ :=
    pushChecked_recent himpl hhint hne hpushable 0 random
  refine ⟨impl', ?_, htail, hlive⟩
  rw [hpush, hadd]
  rfl

theorem Filled.push (h : Filled k impl) (himpl : impl.Sound) (hk : k < 2048) :
    ∃ impl' answer, push impl 1 block 1 0 oneId 0 = some (impl', answer) ∧
      Filled (k + 1) impl' := by
  have hmax : maxId = 2000000000 := rfl
  have htail := h.tail
  obtain ⟨impl', hpush, htail', hlive⟩ :=
    push_block himpl (h.hasRoom himpl hk) (by decide : (0 : Int) < 1) 0
  rw [if_neg (by omega)] at hlive
  refine ⟨impl', _, hpush, ?_, fun v hv => ?_, ?_⟩
  · rw [hlive, length_append, h.count]
    rfl
  · rw [hlive] at hv
    rcases mem_append.mp hv with hv | hv
    · exact h.each v hv
    · rw [mem_singleton.mp hv]
      exact ⟨length_block, rfl⟩
  · rw [htail', pickId]
    have hone : oneId.value = 1 := rfl
    split
    · omega
    · omega

namespace Twins

/-- The two are filled in the same way. -/
theorem reached_filled (k : Nat) (hk : k ≤ 2048) :
    ∃ s, Reached k 0 s ∧ Filled k s.plain ∧ Filled k s.stored := by
  induction k with
  | zero =>
    have hfilled : ∀ callback, Filled 0 (.new callback) := fun _ =>
      ⟨rfl, fun v hv => absurd hv not_mem_nil, (by decide : (0 : Int) ≤ 0 + 1)⟩
    exact ⟨.new, .new 0, hfilled _, hfilled _⟩
  | succ k ih =>
    obtain ⟨s, hreached, hplain, hstored⟩ := ih (by omega)
    have hmatched := hreached.matched (by omega)
    obtain ⟨_, storage, -, hpersistent⟩ := hmatched.stored
    obtain ⟨plain, answer, hpush, hplain'⟩ := hplain.push hmatched.plain (by omega)
    obtain ⟨stored, answer', hpush', hstored'⟩ := hstored.push hpersistent.sound (by omega)
    have hallowed : Allowed 0 s (.push 1 block 1 0 oneId 0 0) :=
      ⟨by decide, by decide, hplain.hasRoom hmatched.plain (by omega),
        hstored.hasRoom hpersistent.sound (by omega)⟩
    exact ⟨⟨plain, stored⟩, hreached.move hallowed (move_push hpush hpush'), hplain', hstored'⟩

/-- After 2048 of the largest events have expired, only one of the two collects them. The other one
has no room for a further event. -/
theorem expired_events_refuse : ∃ time s plain stored eventId, Reached 2048 time s ∧
    TQueue.push s.plain 1 block 1 0 oneId 0 = some (plain, .error .queueSizeIsTooBig) ∧
    TQueue.push s.stored 1 block 1 0 oneId 0 = some (stored, .ok eventId) := by
  have hmax'' : maxQueueEvents = 1000000 := rfl
  obtain ⟨s, hreached, hplain, hstored⟩ := reached_filled 2048 le_rfl
  have hmatched := hreached.matched (by decide)
  obtain ⟨_, storage, -, hpersistent⟩ := hmatched.stored
  -- late enough for the queue to be due
  obtain ⟨now, hnow, hdue⟩ : ∃ now : Int, 2 ≤ now ∧ (s.stored.queue 1).gcAt < now :=
    ⟨max 2 ((s.stored.queue 1).gcAt + 1), by omega, by omega⟩
  have hexpired : (s.stored.queue 1).recent now = [] := by
    refine filter_eq_nil_iff.mpr fun v hv => ?_
    rw [(hstored.each v hv).2]
    simpa using (by omega)
  obtain ⟨stored, deleted, hgc, hlive⟩ :=
    runGc_clears hpersistent.sound hexpired (by omega) hdue
  have hallowed : Allowed 0 s (.gcStored now) := (by omega : 0 ≤ now)
  have hmove : s.move (.gcStored now) = some ({ s with stored }, .nothing) := by
    show (runGc s.stored now).bind _ = _
    rw [hgc]
    rfl
  have hreached' : Reached 2048 now { s with stored } := hreached.move hallowed hmove
  have hstored' := sound_of_step (.runGc now) hpersistent.sound trivial (by
    rw [step, hgc]
    rfl : step s.stored (.runGc now) = some stored)
  have hroom : HasRoom (stored.queue 1) block := by
    have hcount := (hstored'.queues 1).length_le_live
    have htotal : (stored.queue 1).totalEventLength
        = ((stored.queue 1).live.map fun v => v.data.length).sum :=
      (hstored'.queues 1).total.trans (lengths_eq _)
    rw [hlive] at hcount htotal
    rw [length_nil] at hcount
    refine ⟨by omega, ?_⟩
    rw [htotal, length_block]
    decide
  obtain ⟨stored'', hpush, -⟩ := push_block hstored' hroom (by decide : (0 : Int) < 1) 0
  refine ⟨now, { s with stored }, s.plain.withQueue 1 (s.plain.queue 1), stored'', _, hreached', ?_,
    hpush⟩
  have hcount := (hmatched.plain.queues 1).length_le_live
  rw [hplain.count] at hcount
  have htotal := hplain.total hmatched.plain
  unfold TQueue.push
  dsimp only
  rw [if_neg block_ne_nil, if_neg (by rw [length_block]; omega), if_neg (by omega), if_pos ?_]
  rw [htotal, length_block]
  decide

end Twins

end Tdlib.TQueue
