import Tdlib.SecretChat.OutboundEvents

/-!
# Sequence numbers survive a crash

The counters of a chat are not saved before a message is sent. What is on the disk by then is
the log event of the message, and a restart takes the counters from the log events that it
finds. The order of writing does the rest: a log event is erased only after the counters have
been saved, so at no time does the binlog reach less far than it did (`Log`). A message is
handed over only after its log event is safe, so every restart goes on behind it.

There is one place where the code does not keep to that order. A chat that is cancelled erases
its log events first and writes the record that closes it after that. `Whole` says that no crash
falls in between; without it a number is used twice (`number_reused_and_not_sent_again`).
-/

namespace Tdlib.SecretChat.Outbound

open Lib List

variable {x : Int} {t : List Entry} {c c' : Chat} {s s0 : MessageState}

/-! ## A chat that is closed -/

/-- A chat that was closed after `p` records. Nothing is written any more, but what was to be sent
is still sent. -/
structure Closed (x : Int) (t : List Entry) (p : Nat) (c : Chat) : Prop where
  closeFlag : c.closeFlag = true
  closedAt : c.closedAt = some p
  x : c.x = x
  lt : p < c.records.length
  synced : c.synced ≤ c.records.length
  /-- Without a crash in between, all that is found is that the chat is closed. -/
  live : ∃ id, Journal.live c.records = [(id, .close)]
  log : Log c.x t (c.records.take p)
  seen : Seen c.x t c.views c.nextStateId
  sending : Sending c.x t c.views c.nextStateId (bound (c.records.take p)) c.synced c.syncing
    c.mailbox c.network

/-- A list of log events is erased. -/
theorem foldl_erase (states : List MessageState) (c : Chat) :
    states.foldl (fun c s => c.write (.erase s.logEventId)) c =
      { c with records := c.records ++ (states.map MessageState.logEventId).map .erase } := by
  induction states generalizing c with
  | nil => simp
  | cons s states ih =>
    rw [foldl_cons, ih]
    simp [Chat.write]

/-- **A chat is closed.** The log events are erased although nothing was saved for them, so the
chat is safe only if the record that closes it is found as well. -/
theorem Running.cancel (h : Running x t c) :
    Closed x t c.records.length c.cancelChat ∧ Keeps c c.cancelChat ∧
      c.cancelChat.mailbox = c.mailbox ∧ c.cancelChat.network = c.network := by
  have hw := h.works
  have hx := h.x
  subst hx
  rw [Chat.cancelChat, if_neg (by simp [hw.closeFlag])]
  dsimp only
  rw [foldl_erase]
  have htake : ∀ l, (c.records ++ l).take c.records.length = c.records := fun l => take_left
  refine ⟨⟨rfl, rfl, rfl, ?_, ?_, ?_, ?_, hw.seen, ?_⟩, .of_views rfl, rfl, rfl⟩
  · show c.records.length < ((c.records ++ _) ++ [_]).length
    rw [length_append, length_append]
    exact Nat.lt_succ_of_le (Nat.le_add_right _ _)
  · show c.synced ≤ ((c.records ++ _) ++ [_]).length
    rw [length_append, length_append]
    exact Nat.le_add_right_of_le (Nat.le_add_right_of_le hw.synced)
  · refine ⟨c.nextLogEventId, ?_⟩
    show Journal.live (_ ++ [_]) = _
    rw [Journal.live_concat, Journal.live_erase_all, ← h.logged]
    -- every log event is that of a state
    have hnil : (c.views.map View.entry).filter (fun p => p.1 ∉
        (c.states.filter Chat.isOutbound ++ c.states.filter fun s => !Chat.isOutbound s).map
          MessageState.logEventId) = [] := by
      refine filter_eq_nil_iff.mpr fun p hp => ?_
      obtain ⟨v, hv, rfl⟩ := mem_map.mp hp
      obtain ⟨s, hs, rfl⟩ := mem_map.mp hv
      rw [decide_eq_true_eq, not_not]
      refine mem_map.mpr ⟨s, mem_append.mpr ?_, rfl⟩
      cases hout : Chat.isOutbound s with
      | true => exact .inl (mem_filter.mpr ⟨hs, hout⟩)
      | false => exact .inr (mem_filter.mpr ⟨hs, by rw [hout]; rfl⟩)
    rw [hnil]
    rfl
  · show Log c.x t (((c.records ++ _) ++ [_]).take c.records.length)
    rw [append_assoc, htake]
    exact hw.log
  · show Sending c.x t c.views _ (bound (((c.records ++ _) ++ [_]).take c.records.length)) _ _ _ _
    rw [append_assoc, htake]
    exact hw.sending.wait (by simp)

/-! ## Steps -/

/-- What holds between two events. -/
def Good (x : Int) (c : Chat) : Prop := ∃ t, Running x t c ∨ ∃ p, Closed x t p c

/-- Callbacks and queries are only added. -/
structure Grows (c c' : Chat) : Prop where
  mailbox : c.mailbox <+: c'.mailbox
  network : c.network <+: c'.network
  keeps : Keeps c c'

theorem Grows.refl (c : Chat) : Grows c c := ⟨prefix_rfl, prefix_rfl, .of_views rfl⟩

theorem NewFrame.grows (h : NewFrame c c') : Grows c c' :=
  ⟨h.mailbox ▸ prefix_rfl, h.network ▸ prefix_rfl, h.keeps⟩

theorem Running.good (h : Running x t c) (hcalm : Calm t c c') : Good x c' ∧ Grows c c' :=
  ⟨⟨t, .inl (h.stays hcalm.1)⟩, hcalm.1.mailbox, hcalm.1.network, hcalm.2⟩

theorem Running.cancel_good (h : Running x t c) : Good x c.cancelChat ∧ Grows c c.cancelChat := by
  obtain ⟨hclosed, hkeeps, hmailbox, hnetwork⟩ := h.cancel
  exact ⟨⟨t, .inr ⟨_, hclosed⟩⟩, hmailbox ▸ prefix_rfl, hnetwork ▸ prefix_rfl, hkeeps⟩

variable {mailbox : List Callback} {i n p k : Nat} {c0 : Chat} {m : OutboundSecretMessage}

theorem Running.pop (h : Running x t c) {callback : Callback}
    (hmailbox : c.mailbox = callback :: mailbox) : Running x t { c with mailbox := mailbox } :=
  ⟨h.works.pop hmailbox, h.x, h.logged, h.replayed, h.current⟩

theorem Running.onSendMessageError (h : Running x t c) (shouldFail : Bool)
    (hsafe : ∀ v ∈ c.views, v.stateId = i → rank v.event ≤ bound c.records c.synced) :
    Good x (c.onSendMessageError i shouldFail) ∧ Grows c (c.onSendMessageError i shouldFail) := by
  have hw := h.works
  have hsame : Good x c ∧ Grows c c := ⟨⟨t, .inl h⟩, .refl c⟩
  have hresend : Good x (c.resend i false) ∧ Grows c (c.resend i false) :=
    h.good (hw.resend h.logged false hsafe)
  rw [Chat.onSendMessageError, if_neg (by simp [hw.closeFlag])]
  split
  · split
    · split
      · split
        · obtain ⟨hs, hk⟩ := hw.outboundRewriteWithEmpty h.logged i
          obtain ⟨hs', hk'⟩ := hs.works.resend hs.logged true (hw.rewrite_safe hsafe)
          exact h.good ⟨hs.trans hs', hk.trans hk'⟩
        · exact hresend
      · split
        · exact h.cancel_good
        · exact hresend
    · exact hsame
  · exact hsame

/-- What a callback does, apart from the one that tells a state that it is saved. -/
structure Handles (callback : Callback) (mailbox : List Callback) (c c' : Chat) : Prop where
  mailbox : mailbox <+: c'.mailbox
  network : c.network <+: c'.network
  keeps : (∀ i, callback ≠ .saveChangesFinish i) → Keeps c c'

/-- **A callback of an open chat is worked off.** -/
theorem Running.run (h : Running x t c) {callback : Callback}
    (hmailbox : c.mailbox = callback :: mailbox) :
    ∃ c', { c with mailbox := mailbox }.run callback = some c' ∧ Good x c' ∧
      Handles callback mailbox c c' := by
  have hpop := h.pop hmailbox
  have hsafe := h.works.sending.mailbox callback (hmailbox ▸ mem_cons_self)
  have hdone : ∀ {c'}, Good x c' ∧ Grows { c with mailbox := mailbox } c' →
      Good x c' ∧ Handles callback mailbox c c' := by
    rintro c' ⟨hgood, hgrows⟩
    exact ⟨hgood, hgrows.mailbox, hgrows.network, fun _ => hgrows.keeps⟩
  cases callback with
  | sendMessageStart i =>
    exact ⟨_, rfl, hdone (hpop.good (hpop.works.onSendMessageStart hpop.logged hsafe.2))⟩
  | sendMessageFinish i =>
    exact ⟨_, rfl, hdone (hpop.good (hpop.works.onSendMessageFinish hpop.logged i))⟩
  | sendMessageError i shouldFail =>
    exact ⟨_, rfl, hdone (hpop.onSendMessageError shouldFail hsafe.2)⟩
  | saveChangesStart token =>
    exact ⟨_, rfl, hdone (hpop.good (hpop.works.onSaveChangesStart hpop.logged token))⟩
  | saveChangesFinish i =>
    obtain ⟨c', heq, hs⟩ := h.works.onSaveChangesFinish h.logged hmailbox
    exact ⟨c', heq, ⟨t, .inl (hpop.stays hs)⟩, hs.mailbox, hs.network, fun hne =>
      absurd rfl (hne i)⟩
  | resendQuery q =>
    have hw := hpop.works
    have hs : Stays t { c with mailbox := mailbox }
        { c with mailbox := mailbox, network := c.network ++ [q] } :=
      ⟨{ hw with sending := hw.sending.send hsafe }, hpop.logged, rfl, rfl, rfl, prefix_rfl,
        prefix_append _ _⟩
    exact ⟨_, rfl, hdone (hpop.good ⟨hs, .of_views rfl⟩)⟩

theorem Running.sync (h : Running x t c) (hle : c.synced ≤ n) (hn : n ≤ c.records.length) :
    Running x t (c.sync n) := by
  have hw := h.works
  have hno : finishes ((c.syncing.filter fun p => p.1 ≤ n).flatMap Prod.snd) = [] := by
    rw [finishes, filterMap_flatMap]
    refine flatMap_eq_nil_iff.mpr fun p hp => ?_
    exact (hw.syncing p (mem_filter.mp hp).1).2
  have hsync : Works t (c.sync n) :=
    { hw with
      synced := hn
      syncing := fun p hp => hw.syncing p (mem_filter.mp hp).1
      saving := by
        show Saving _ _ _ _ _ (finishes (c.mailbox ++ _))
        rw [finishes_append, hno, append_nil]
        exact hw.saving
      sending := hw.sending.sync hw.log.bound_mono hle }
  exact ⟨hsync, h.x, h.logged, h.replayed, h.current⟩

section

variable (h : Closed x t p c)
include h

theorem Closed.sync (hle : c.synced ≤ n) (hn : n ≤ c.records.length) : Closed x t p (c.sync n) :=
  { h with
    synced := hn
    sending := h.sending.sync h.log.bound_mono hle }

theorem Closed.set (hs0 : s0 ∈ c.states) (hid : s.stateId = s0.stateId)
    (hevent : s.progress.event = s0.progress.event)
    (hquery : rank s0.progress.event ≤ bound (c.records.take p) c.synced) :
    Closed x t p (c.set s) :=
  { h with
    seen := by
      rw [Chat.views_set]
      refine h.seen.update (Chat.mem_views hs0) hid ?_
      show ∃ i, EventOk c.x t s.progress.event i
      rw [hevent]
      exact h.seen.event s0.view (Chat.mem_views hs0)
    sending := by
      rw [Chat.views_set]
      refine h.sending.update (Chat.mem_views hs0) hid (congrArg rank hevent) fun _ => ?_
      exact (le_of_eq (congrArg rank hevent)).trans hquery }

/-- A closed chat hands a message over, but does nothing else. -/
theorem Closed.onSendMessageStart
    (hsafe : ∀ v ∈ c.views, v.stateId = i → rank v.event ≤ bound (c.records.take p) c.synced) :
    Closed x t p (c.onSendMessageStart i) ∧ Grows c (c.onSendMessageStart i) := by
  rw [Chat.onSendMessageStart]
  split
  · rename_i s hfind
    obtain ⟨hs, hid⟩ := Chat.mem_of_find? hfind
    split
    · rename_i progress hp
      have hview := view_event hp
      have hle := hsafe s.view (Chat.mem_views hs) hid
      obtain ⟨i, hi⟩ := h.seen.event s.view (Chat.mem_views hs)
      split
      · have hset : Closed x t p (c.set { s with progress := .outbound { progress with
            netQuery := true
            netQueryMayFail := progress.message.isRewritable } }) :=
          h.set hs rfl hview.symm hle
        rw [hview] at hi hle
        refine ⟨{ hset with sending := hset.sending.send (hi.netOk hle) }, prefix_rfl,
          prefix_append _ _, ?_⟩
        refine Keeps.set h.seen.ids hs rfl rfl ?_
        show StillUnsent s.view.event _
        rw [hview]
        exact .refl _
      · rw [Chat.onSendMessageFinish, if_pos h.closeFlag]
        exact ⟨h, .refl c⟩
    · exact ⟨h, .refl c⟩
  · exact ⟨h, .refl c⟩

theorem Closed.pop {callback : Callback} (hmailbox : c.mailbox = callback :: mailbox) :
    Closed x t p { c with mailbox := mailbox } := by
  have hsending := h.sending
  rw [hmailbox] at hsending
  exact { h with sending := hsending.pop }

theorem Closed.run {callback : Callback} (hmailbox : c.mailbox = callback :: mailbox) :
    ∃ c', { c with mailbox := mailbox }.run callback = some c' ∧ Closed x t p c' ∧
      Handles callback mailbox c c' := by
  have hpop := h.pop hmailbox
  have hclose : { c with mailbox := mailbox }.closeFlag = true := h.closeFlag
  have hsafe := h.sending.mailbox callback (hmailbox ▸ mem_cons_self)
  have hsame : Handles callback mailbox c { c with mailbox := mailbox } :=
    ⟨prefix_rfl, prefix_rfl, fun _ => .of_views rfl⟩
  cases callback with
  | sendMessageStart i =>
    obtain ⟨hc, hg⟩ := hpop.onSendMessageStart hsafe.2
    exact ⟨_, rfl, hc, hg.mailbox, hg.network, fun _ => hg.keeps⟩
  | sendMessageFinish i | sendMessageError i shouldFail | saveChangesStart token =>
    exact ⟨_, congrArg some (if_pos hclose), hpop, hsame⟩
  | saveChangesFinish i => exact ⟨_, if_pos hclose, hpop, hsame⟩
  | resendQuery q =>
    exact ⟨_, rfl, { hpop with sending := hpop.sending.send hsafe }, prefix_rfl,
      prefix_append _ _, fun _ => .of_views rfl⟩

/-- Everything is found, and the chat is closed. -/
theorem Closed.restart :
    ∃ c', c.restart c.records.length = some c' ∧ Closed x t p c' ∧ c'.states = [] ∧
      c'.mailbox = [] ∧ c'.network = c.network := by
  obtain ⟨id, hlive⟩ := h.live
  have hall : c.records.take c.records.length = c.records := take_length
  have hfilter : c.closedAt.filter (· < c.records.length) = some p := by
    rw [h.closedAt, Option.filter_some, if_pos (decide_eq_true h.lt)]
  refine ⟨{ c.startUp c.records.length with closeFlag := true, binlogReplayFinishFlag := true }, ?_,
    ?_, rfl, rfl, rfl⟩
  · rw [Chat.restart, hall, hlive]
    rfl
  constructor
  · rfl
  · exact hfilter
  · exact h.x
  · show p < (c.records.take _).length
    rw [hall]
    exact h.lt
  · show c.records.length ≤ (c.records.take _).length
    rw [hall]
  · show ∃ id, Journal.live (c.records.take _) = _
    rw [hall]
    exact h.live
  · show Log c.x t ((c.records.take _).take p)
    rw [hall]
    exact h.log
  · exact .nil
  · refine .nil fun q hq => ?_
    show NetOk c.x t (bound ((c.records.take _).take p) c.records.length) q
    rw [hall]
    exact (h.sending.network q hq).mono (h.log.bound_mono h.synced)

end

/-! ## Events -/

/-- A crash does not cut the closing of a chat in two. -/
def Whole (c : Chat) : Event → Prop
  | .crash n => ∀ p, c.closedAt = some p → n ≤ p ∨ n = c.records.length
  | _ => True

theorem Good.start (x : Int) : Good x { x := x } := by
  refine ⟨[⟨0, 0, 0, none⟩], .inl ⟨?_, rfl, rfl, rfl, .init .init⟩⟩
  constructor
  · rfl
  · rfl
  · exact .init
  · rfl
  · exact le_rfl
  · exact forall_mem_nil _
  · exact ⟨0, .init .init⟩
  · exact forall_mem_nil _
  · exact le_rfl
  · exact .nil
  · exact .nil
  · exact .nil (forall_mem_nil _)

theorem Good.callback (h : Good x c) :
    ∃ c', c.runNext = some c' ∧ Good x c' ∧
      (c.mailbox = [] ∧ c' = c ∨
        ∃ callback mailbox, c.mailbox = callback :: mailbox ∧
          { c with mailbox := mailbox }.run callback = some c' ∧
            Handles callback mailbox c c') := by
  rw [Chat.runNext]
  cases hmailbox : c.mailbox with
  | nil => exact ⟨c, rfl, h, .inl ⟨rfl, rfl⟩⟩
  | cons callback mailbox =>
    obtain ⟨t, hrun | ⟨p, hclosed⟩⟩ := h
    · obtain ⟨c', heq, hgood, hh⟩ := hrun.run hmailbox
      exact ⟨c', heq, hgood, .inr ⟨callback, mailbox, rfl, heq, hh⟩⟩
    · obtain ⟨c', heq, hc, hh⟩ := hclosed.run hmailbox
      exact ⟨c', heq, ⟨t, .inr ⟨p, hc⟩⟩, .inr ⟨callback, mailbox, rfl, heq, hh⟩⟩

/-- **An event that is neither a callback nor a crash.** -/
theorem Good.other (h : Good x c) {e : Event} (ha : c.Allowed e) (hcallback : e ≠ .callback)
    (hcrash : ∀ n, e ≠ .crash n) : ∃ c', c.step e = some c' ∧ Good x c' ∧ Grows c c' := by
  obtain ⟨t, h | ⟨p, h⟩⟩ := h
  · cases e with
    | send randomId content b b' =>
      obtain ⟨c', t', heq, hr, hf⟩ := h.send randomId content b b'
      refine ⟨c', heq, ⟨t', .inl hr⟩, ?_⟩
      rcases hf with rfl | hf
      · exact .refl _
      · exact hf.grows
    | receive ack layer =>
      obtain ⟨t', hr, hf⟩ := h.receive layer ha.1
      exact ⟨_, rfl, ⟨t', .inl hr⟩, hf.grows⟩
    | callback => exact absurd rfl hcallback
    | saveMessage i =>
      obtain ⟨c', heq, hcalm⟩ := h.works.onSaveMessageFinish h.logged ha
      exact ⟨c', heq, h.good hcalm⟩
    | sendOk i => exact ⟨_, rfl, h.good (h.works.onSendMessageResult h.logged (.inl rfl))⟩
    | sendError i b => exact ⟨_, rfl, h.good (h.works.onSendMessageResult h.logged (.inr ⟨b, rfl⟩))⟩
    | resend i =>
      obtain ⟨c', heq, hcalm⟩ := h.works.outboundResend h.logged ha
      exact ⟨c', heq, h.good hcalm⟩
    | delete i => exact ⟨_, rfl, h.good (h.works.outboundRewriteWithEmpty h.logged i)⟩
    | cancel => exact ⟨_, rfl, h.cancel_good⟩
    | sync n =>
      exact ⟨_, rfl, ⟨t, .inl (h.sync ha.1 ha.2)⟩, prefix_append _ _, prefix_rfl, .of_views rfl⟩
    | crash n => exact absurd rfl (hcrash n)
  · have hclose := h.closeFlag
    have hsame : Good x c ∧ Grows c c := ⟨⟨t, .inr ⟨p, h⟩⟩, .refl c⟩
    cases e with
    | send randomId content b b' | saveMessage i | resend i => exact ⟨c, if_pos hclose, hsame⟩
    | receive ack layer | sendOk i | sendError i b | delete i | cancel =>
      exact ⟨c, congrArg some (if_pos hclose), hsame⟩
    | callback => exact absurd rfl hcallback
    | sync n =>
      exact ⟨_, rfl, ⟨t, .inr ⟨p, h.sync ha.1 ha.2⟩⟩, prefix_append _ _, prefix_rfl, .of_views rfl⟩
    | crash n => exact absurd rfl (hcrash n)

/-- What a restart leaves to be done: the messages of ours that were found are handed over. -/
structure Resumes (c : Chat) (n : Nat) (c' : Chat) : Prop where
  network : c'.network = c.network
  quiet : Quiet c'
  mailbox : ∀ callback ∈ c'.mailbox, ∀ i, callback ≠ .saveChangesFinish i
  starts : ∀ id m, (id, .outbound m) ∈ Journal.live (c.records.take n) →
    ∃ v ∈ c'.views, v.event = .outbound m ∧ .sendMessageStart v.stateId ∈ c'.mailbox

theorem Restarted.resumes (h : Restarted x t c') (hnetwork : c'.network = c.network)
    (hrecords : c'.records = c.records.take n) : Resumes c n c' where
  network := hnetwork
  quiet := h.quiet
  mailbox := by
    intro callback hc i heq
    rcases h.mailbox callback hc with ⟨j, rfl⟩ | ⟨k, rfl⟩ <;> cases heq
  starts := by
    intro id m hmem
    rw [← hrecords, ← h.running.logged] at hmem
    obtain ⟨v, hv, heq⟩ := mem_map.mp hmem
    have hevent : v.event = .outbound m := congrArg Prod.snd heq
    exact ⟨v, hv, hevent, h.starts v hv m hevent⟩

/-- **A crash, and the restart after it.** -/
theorem Good.crash (h : Good x c) (ha : c.Allowed (.crash n)) (hw : Whole c (.crash n)) :
    ∃ c', c.restart n = some c' ∧ Good x c' ∧ Resumes c n c' := by
  obtain ⟨t, h | ⟨p, h⟩⟩ := h
  · have hworks := h.works
    have hx := h.x
    subst hx
    obtain ⟨c', heq, hr, hnetwork, hrecords⟩ := restart_ok hworks.log rfl ha.2
      (by rw [hworks.closedAt]; rfl)
      fun q hq => (hworks.sending.network q hq).mono (hworks.log.bound_mono ha.1)
    exact ⟨c', heq, ⟨_, .inl hr.running⟩, hr.resumes hnetwork hrecords⟩
  have hx := h.x
  subst hx
  rcases hw p h.closedAt with hle | rfl
  · have htake : c.records.take n = (c.records.take p).take n := by
      rw [take_take, min_eq_left hle]
    obtain ⟨c', heq, hr, hnetwork, hrecords⟩ := restart_ok h.log htake
      (by rw [length_take]; exact Nat.le_min.mpr ⟨hle, ha.2⟩)
      (by rw [h.closedAt, Option.filter_some, if_neg (by simpa using hle)])
      fun q hq => (h.sending.network q hq).mono (h.log.bound_mono ha.1)
    exact ⟨c', heq, ⟨_, .inl hr.running⟩, hr.resumes hnetwork (hrecords.trans htake.symm)⟩
  obtain ⟨c', heq, hc, hstates, hmailbox, hnetwork⟩ := h.restart
  refine ⟨c', heq, ⟨t, .inr ⟨p, hc⟩⟩, hnetwork, ?_, ?_, ?_⟩
  · rw [Quiet, Chat.views, hstates]
    exact forall_mem_nil _
  · rw [hmailbox]
    exact forall_mem_nil _
  · intro id m hmem
    obtain ⟨id', hlive⟩ := h.live
    rw [take_length, hlive, mem_singleton] at hmem
    cases hmem

/-! ## Runs -/

/-- The chats that are reached by events that meet a condition. -/
inductive Reachable (P : Chat → Event → Prop) (x : Int) : Chat → Prop
  | start : Reachable P x { x := x }
  | step {c c' : Chat} {e : Event} (h : Reachable P x c) (ha : c.Allowed e) (hP : P c e)
      (hs : c.step e = some c') : Reachable P x c'

theorem Good.step (h : Good x c) {e : Event} (ha : c.Allowed e) (hw : Whole c e) :
    ∃ c', c.step e = some c' ∧ Good x c' := by
  by_cases hcallback : e = .callback
  · subst hcallback
    obtain ⟨c', heq, hgood, -⟩ := h.callback
    exact ⟨c', heq, hgood⟩
  by_cases hcrash : ∃ n, e = .crash n
  · obtain ⟨n, rfl⟩ := hcrash
    obtain ⟨c', heq, hgood, -⟩ := h.crash ha hw
    exact ⟨c', heq, hgood⟩
  · obtain ⟨c', heq, hgood, -⟩ := h.other ha hcallback fun n hn => hcrash ⟨n, hn⟩
    exact ⟨c', heq, hgood⟩

theorem Reachable.good (h : Reachable Whole x c) : Good x c := by
  induction h with
  | start => exact .start x
  | step _ ha hw hs ih =>
    obtain ⟨c', heq, hgood⟩ := ih.step ha hw
    rw [hs] at heq
    cases heq
    exact hgood

/-- The chat after some more events without a crash, `k` of them callbacks. -/
inductive Later (c0 : Chat) : Nat → Chat → Prop
  | refl : Later c0 0 c0
  | callback {k : Nat} {c c' : Chat} (h : Later c0 k c) (hs : c.step .callback = some c') :
      Later c0 (k + 1) c'
  | other {k : Nat} {c c' : Chat} {e : Event} (h : Later c0 k c) (ha : c.Allowed e)
      (hcallback : e ≠ .callback) (hcrash : ∀ n, e ≠ .crash n) (hs : c.step e = some c') :
      Later c0 k c'

/-- The query carries the number of the message. -/
def IsQueryOf (m : OutboundSecretMessage) (q : Query) : Prop :=
  q.randomId = m.randomId ∧ q.encryptedMessage.outSeqNo = m.encryptedMessage.outSeqNo

/-- The message has been handed over since `c0`, or it waits for a callback that was in the mailbox
of `c0`, `k` of which have been worked off. -/
def SentOrWaits (c0 : Chat) (k : Nat) (m : OutboundSecretMessage) (c : Chat) : Prop :=
  (∃ q ∈ c.network.drop c0.network.length, IsQueryOf m q) ∨
    Quiet c ∧ ∃ v ∈ c.views, .sendMessageStart v.stateId ∈ c0.mailbox.drop k ∧
      ∃ m', v.event = .outbound m' ∧ m'.isSent = false ∧ IsQueryOf m (createNetQuery m')

theorem mem_drop_of_prefix {l l' : List Query} (h : l <+: l') (hn : n ≤ l.length) {q : Query}
    (hq : q ∈ l.drop n) : q ∈ l'.drop n := by
  obtain ⟨l'', rfl⟩ := h
  rw [drop_append_of_le_length hn]
  exact mem_append_left _ hq

/-- A message that waits is kept. -/
theorem SentOrWaits.grows (h : SentOrWaits c0 k m c) (hlen : c0.network.length ≤ c.network.length)
    (hnetwork : c.network <+: c'.network) (hkeeps : Keeps c c') : SentOrWaits c0 k m c' := by
  rcases h with ⟨q, hq, hm⟩ | ⟨hquiet, v, hv, hstart, m', hevent, hsent, hm⟩
  · exact .inl ⟨q, mem_drop_of_prefix hnetwork hlen hq, hm⟩
  obtain ⟨hquiet', hviews⟩ := hkeeps hquiet
  obtain ⟨v', hv', hid, hstill⟩ := hviews v hv
  obtain ⟨m'', hevent', hsent', hrandom, hout⟩ := hstill m' hevent hsent
  exact .inr ⟨hquiet', v', hv', hid ▸ hstart, m'', hevent', hsent', hrandom.trans hm.1,
    hout.trans hm.2⟩

theorem Good.ids (h : Good x c) : (c.views.map View.stateId).Nodup := by
  obtain ⟨t, h | ⟨p, h⟩⟩ := h
  · exact h.works.seen.ids
  · exact h.seen.ids

/-- A message that is not marked as sent is handed to the network. -/
theorem Chat.onSendMessageStart_network (hids : (c.views.map View.stateId).Nodup) {v : View}
    (hv : v ∈ c.views) (hm : v.event = .outbound m) (hsent : m.isSent = false) :
    (c.onSendMessageStart v.stateId).network = c.network ++ [createNetQuery m] := by
  obtain ⟨s, hs, rfl⟩ := mem_map.mp hv
  rw [onSendMessageStart, show c.find? s.view.stateId = some s from find?_eq hids hs]
  have hevent : s.progress.event = .outbound m := hm
  dsimp only
  cases hp : s.progress with
  | inbound e b =>
    rw [hp] at hevent
    cases hevent
  | outbound p =>
    rw [hp] at hevent
    cases hevent
    dsimp only
    rw [if_pos (by rw [hsent]; exact Bool.false_ne_true)]

/-- The next callback of those that were in the mailbox is worked off. -/
theorem SentOrWaits.callback (h : SentOrWaits c0 k m c) (hgood : Good x c)
    (hlen : c0.network.length ≤ c.network.length) {callback : Callback}
    (hdrop : c0.mailbox.drop k = callback :: mailbox) {rest : List Callback}
    (hrun : { c with mailbox := rest }.run callback = some c')
    (hfinish : ∀ i, callback ≠ .saveChangesFinish i) (hh : Handles callback rest c c') :
    SentOrWaits c0 (k + 1) m c' := by
  have hdrop' : c0.mailbox.drop (k + 1) = mailbox := by
    rw [← tail_drop, hdrop]
    rfl
  rcases h with ⟨q, hq, hm⟩ | ⟨hquiet, v, hv, hstart, m', hevent, hsent, hm⟩
  · exact .inl ⟨q, mem_drop_of_prefix hh.network hlen hq, hm⟩
  rw [hdrop] at hstart
  rcases mem_cons.mp hstart with rfl | hstart
  · -- it is handed over now
    have hnetwork := Chat.onSendMessageStart_network (c := { c with mailbox := rest }) hgood.ids hv
      hevent hsent
    cases hrun
    refine .inl ⟨createNetQuery m', ?_, hm⟩
    rw [hnetwork, drop_append_of_le_length hlen]
    exact mem_append_right _ (mem_singleton_self _)
  · have hwaits : SentOrWaits c0 (k + 1) m c :=
      .inr ⟨hquiet, v, hv, hdrop' ▸ hstart, m', hevent, hsent, hm⟩
    exact hwaits.grows hlen hh.network (hh.keeps hfinish)

/-- What holds of a chat some time after a restart. -/
structure Resumed (x : Int) (c0 : Chat) (k : Nat) (m : OutboundSecretMessage) (c : Chat) :
    Prop where
  good : Good x c
  mailbox : c0.mailbox.drop k <+: c.mailbox
  network : c0.network <+: c.network
  sentOrWaits : SentOrWaits c0 k m c

theorem Resumed.next (h : Resumed x c0 k m c)
    (hno : ∀ callback ∈ c0.mailbox, ∀ i, callback ≠ .saveChangesFinish i)
    (hs : c.step .callback = some c') : Resumed x c0 (k + 1) m c' := by
  have hlen := h.network.length_le
  obtain ⟨c'', heq, hgood, hcase⟩ := h.good.callback
  rw [show c.step .callback = c.runNext from rfl, heq] at hs
  cases hs
  cases hdrop : c0.mailbox.drop k with
  | nil =>
    -- all of them have been worked off
    have hdrop' : c0.mailbox.drop (k + 1) = [] := by
      rw [← tail_drop, hdrop]
      rfl
    have hsent : ∃ q ∈ c.network.drop c0.network.length, IsQueryOf m q := by
      rcases h.sentOrWaits with hsent | ⟨-, v, -, hstart, -⟩
      · exact hsent
      · rw [hdrop] at hstart
        cases hstart
    have hnetwork : c.network <+: c'.network := by
      rcases hcase with ⟨-, rfl⟩ | ⟨callback, mailbox, -, -, hh⟩
      · exact prefix_rfl
      · exact hh.network
    obtain ⟨q, hq, hm⟩ := hsent
    exact ⟨hgood, hdrop' ▸ nil_prefix, h.network.trans hnetwork,
      .inl ⟨q, mem_drop_of_prefix hnetwork hlen hq, hm⟩⟩
  | cons callback mailbox =>
    have hmailbox := h.mailbox
    rw [hdrop] at hmailbox
    rcases hcase with ⟨hnil, -⟩ | ⟨callback', rest, hcons, hrun, hh⟩
    · rw [hnil] at hmailbox
      exact absurd (prefix_nil.mp hmailbox) (cons_ne_nil _ _)
    rw [hcons] at hmailbox
    obtain ⟨rfl, hrest⟩ := cons_prefix_cons.mp hmailbox
    have hmem : callback ∈ c0.mailbox := by
      refine mem_of_mem_drop (i := k) ?_
      rw [hdrop]
      exact mem_cons_self
    refine ⟨hgood, ?_, h.network.trans hh.network,
      h.sentOrWaits.callback h.good hlen hdrop hrun (hno callback hmem) hh⟩
    rw [← tail_drop, hdrop]
    exact hrest.trans hh.mailbox

/-- **What was found is handed over again.** -/
theorem Resumes.later {id : Nat} (h : Resumes c n c0) (hgood : Good x c0)
    (hmem : (id, .outbound m) ∈ Journal.live (c.records.take n)) (hsent : m.isSent = false)
    (hlater : Later c0 k c') : Resumed x c0 k m c' := by
  induction hlater with
  | refl =>
    obtain ⟨v, hv, hevent, hstart⟩ := h.starts id m hmem
    exact ⟨hgood, prefix_rfl, prefix_rfl, .inr ⟨h.quiet, v, hv, hstart, m, hevent, hsent, rfl, rfl⟩⟩
  | callback _ hs ih => exact ih.next h.mailbox hs
  | other _ ha hcallback hcrash hs ih =>
    obtain ⟨c'', heq, hgood', hgrows⟩ := ih.good.other ha hcallback hcrash
    rw [hs] at heq
    cases heq
    exact ⟨hgood', ih.mailbox.trans hgrows.mailbox, ih.network.trans hgrows.network,
      ih.sentOrWaits.grows ih.network.length_le hgrows.network hgrows.keeps⟩

/-- A number that was handed over belongs to one message. -/
theorem Good.same (h : Good x c) {q : Query} (hq : q ∈ c.network) :
    (∀ q' ∈ c.network, q.encryptedMessage.outSeqNo = q'.encryptedMessage.outSeqNo →
      SameMessage q q') ∧
    ∀ s ∈ c.states, ∀ p, s.progress = .outbound p →
      q.encryptedMessage.outSeqNo = p.message.encryptedMessage.outSeqNo →
        SameMessage q (createNetQuery p.message) := by
  -- queries and states are on one timeline
  obtain ⟨t, ht, bound, hnet, hseen⟩ : ∃ t, Timeline t ∧ ∃ bound,
      (∀ q ∈ c.network, NetOk c.x t bound q) ∧ Seen c.x t c.views c.nextStateId := by
    obtain ⟨t, h | ⟨p, h⟩⟩ := h
    · exact ⟨t, h.works.log.timeline, _, h.works.sending.network, h.works.seen⟩
    · exact ⟨t, h.log.timeline, _, h.sending.network, h.seen⟩
  obtain ⟨m, content, i, hm, -, rfl⟩ := hnet q hq
  constructor
  · intro q' hq' heq
    obtain ⟨m', content', i', hm', -, rfl⟩ := hnet q' hq'
    exact ht.same hm hm' heq
  · intro s hs p hp heq
    obtain ⟨j, hj⟩ := hseen.event s.view (Chat.mem_views hs)
    rw [view_event hp] at hj
    cases hj with
    | outbound hm' => exact ht.same hm hm' heq

/-- The chat after the events, if each of them is allowed. -/
def Chat.runAll (c : Chat) : List Event → Option Chat
  | [] => some c
  | e :: es => if c.Allowed e then (c.step e).bind fun c' => c'.runAll es else none

theorem Reachable.runAll {P : Chat → Event → Prop} {es : List Event} (h : Reachable P x c)
    (hP : ∀ c, ∀ e ∈ es, P c e) (hrun : c.runAll es = some c') : Reachable P x c' := by
  induction es generalizing c with
  | nil =>
    cases hrun
    exact h
  | cons e es ih =>
    rw [Chat.runAll] at hrun
    split at hrun
    · obtain ⟨c1, hs, hrun⟩ := Option.bind_eq_some_iff.mp hrun
      exact ih (h.step ‹_› (hP c e mem_cons_self) hs)
        (fun c e he => hP c e (mem_cons_of_mem _ he)) hrun
    · cases hrun

end Tdlib.SecretChat.Outbound
