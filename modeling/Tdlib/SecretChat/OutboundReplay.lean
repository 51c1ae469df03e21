import Tdlib.SecretChat.OutboundRun

/-!
# Messages are taken in, for the first time and again

A message is taken in the same way when it is new and when its log event is replayed. The
order differs: a new message of ours is logged after it has been counted, one of the other
side before that, and a replayed message is not logged at all.

After a restart the counters start from those that were saved, and each log event moves them
on to its own entry of the timeline, unless they are there already. So they end at the last
entry that was found (`restart_ok`).
-/

namespace Tdlib.SecretChat.Outbound

open Lib List

variable {t : List Entry} {c : Chat} {s : MessageState}

/-! ## Messages -/

/-- The state of a message that is taken in. -/
def Chat.newState (c : Chat) (progress : Progress) (logEventId : Nat) : MessageState :=
  { stateId := c.nextStateId
    logEventId := if logEventId = 0 then c.nextLogEventId else logEventId
    saveChangesFinish := false
    progress := progress }

/-- A message of ours is taken in, before anything is written or posted. -/
def Chat.prepareOutbound (c : Chat) (m : OutboundSecretMessage) (logEventId : Nat) : Chat × Nat :=
  let s := c.newState (.outbound { message := m }) logEventId
  let (c', token) := ((c.addState s).updateSeqNoState m.seqNo).addChanges s.stateId
  (c'.set { s with progress := .outbound (waitForAck c'.seqNoState.hisInSeqNo { message := m }) },
    token)

theorem Chat.doOutboundMessageImpl_eq (c : Chat) (m : OutboundSecretMessage) (logEventId : Nat)
    (hfresh : c.states.any (hasRandomId m.randomId) = false) :
    c.doOutboundMessageImpl m logEventId = some (
      let callbacks := [.sendMessageStart c.nextStateId,
        .saveChangesStart (c.prepareOutbound m logEventId).2]
      if logEventId = 0 then
        ((c.prepareOutbound m logEventId).1.binlogAdd (.outbound m)).forceSync callbacks
      else (c.prepareOutbound m logEventId).1.post callbacks) := by
  rw [doOutboundMessageImpl, if_neg (by simp [hfresh])]
  cases logEventId with
  | zero | succ n => rfl

theorem waitForAck_message (k : Int) (p : OutboundProgress) :
    (Chat.waitForAck k p).message = p.message ∧ (Chat.waitForAck k p).netQuery = p.netQuery := by
  rw [Chat.waitForAck]
  split
  · exact ⟨rfl, rfl⟩
  · exact ⟨rfl, rfl⟩

theorem Quiet.concat {c' : Chat} {v : View} (h : Quiet c) (hviews : c'.views = c.views ++ [v])
    (hflag : v.saveChangesFinish = false) : Quiet c' := by
  rw [Quiet, hviews]
  exact forall_mem_append.mpr ⟨h, forall_mem_singleton.mpr hflag⟩

variable {m : OutboundSecretMessage} {content i j id n : Nat}
  {rs : List (Record LogEvent SeqNoState)}

theorem Works.prepareOutbound (h : Works t c) (hi : StateAt t c.seqNoState i)
    (hm : MessageAt c.x t m content j) (logEventId : Nat)
    (hmode : Quiet c ∨ m.seqNo.hisInSeqNo = c.seqNoState.hisInSeqNo) {c' : Chat}
    (hc' : (c.prepareOutbound m logEventId).1 = c') :
    Works t c' ∧ StateAt t c'.seqNoState (max i j) ∧
      CountFrame (c.addState (c.newState (.outbound { message := m }) logEventId)) c' ∧
      c'.views = c.views ++ [(c.newState (.outbound { message := m }) logEventId).view] ∧
      c'.records = c.records := by
  subst hc'
  let s := c.newState (.outbound { message := m }) logEventId
  have hevent : rank (.outbound m) = j := hm.seqNo.messageId_eq
  have hadd := h.addState (s := s) rfl rfl rfl ⟨j, .outbound hm⟩
  have hviews := c.views_addState s
  have hmem : s ∈ (c.addState s).states := mem_append_right _ (mem_singleton_self _)
  have hquiet : Quiet c → Quiet (c.addState s) := fun hq => hq.concat hviews rfl
  obtain ⟨hw, hat, hf, -, hkept, hsame⟩ := hadd.take_in hmem (fun k => rfl) rfl h.not_waiting hi
    hm.seqNo hevent (.inr (hmode.imp hquiet id)) rfl
  obtain ⟨hsame, hrecords⟩ := hsame (hmode.imp hquiet id)
  have hview : ∀ k, MessageState.view
      { s with progress := .outbound (Chat.waitForAck k { message := m }) } = s.view := by
    intro k
    obtain ⟨hmessage, hquery⟩ := waitForAck_message k { message := m }
    simp only [MessageState.view, Progress.event, hmessage, hquery]
    rfl
  refine ⟨hw.set_same hkept (hview _), hat, ⟨hf.x, hf.nextStateId, hf.binlogReplayFinishFlag,
    hf.lastBinlogMessageId, hf.synced, hf.mailbox, hf.network⟩, ?_, hrecords⟩
  exact (hw.views_set_same hkept (hview _)).trans (hsame.trans hviews)

theorem Works.extend (h : Works t c) {b : Entry} (ht : Timeline (t ++ [b])) :
    Works (t ++ [b]) c := by
  have hkeep : ∀ {s : SeqNoState}, (∃ i, StateAt t s i) → ∃ i, StateAt (t ++ [b]) s i := by
    rintro s ⟨i, hi⟩
    exact ⟨i, hi.congr (getElem?_append_left hi.lt)⟩
  exact
    { h with
      log := h.log.extend ht
      current := hkeep h.current
      changes := fun change hc s hs => hkeep (h.changes change hc s hs)
      seen := h.seen.extend b
      sending := h.sending.extend b }

/-- No state has the random id. -/
theorem randomId_ne {randomId : Int} (hfresh : c.states.any (Chat.hasRandomId randomId) = false)
    {v : View} (hv : v ∈ c.views) : randomId? v.event ≠ some randomId := by
  obtain ⟨s, hs, rfl⟩ := mem_map.mp hv
  have hnot := any_eq_false.mp hfresh s hs
  show randomId? s.progress.event ≠ _
  cases hp : s.progress with
  | outbound p =>
    rw [Chat.hasRandomId, hp] at hnot
    exact fun heq => hnot (decide_eq_true (Option.some.inj heq))
  | inbound e b => exact nofun

/-- The log event of a state is found. -/
theorem Logged.rank_le (hl : Logged c) {v : View} (hv : v ∈ c.views) :
    rank v.event ≤ reach c.records := by
  refine rank_le_reach (p := v.entry) ?_
  rw [← hl]
  exact mem_map_of_mem hv

/-- What a new message leaves as it is. -/
structure NewFrame (c c' : Chat) : Prop where
  x : c'.x = c.x
  binlogReplayFinishFlag : c'.binlogReplayFinishFlag = c.binlogReplayFinishFlag
  mailbox : c'.mailbox = c.mailbox
  network : c'.network = c.network
  views : Quiet c → ∃ v, v.saveChangesFinish = false ∧ c'.views = c.views ++ [v]

/-- A new message is logged, and handed over after that. -/
theorem Works.doOutbound_new (h : Works t c) (hl : Logged c) (hi : StateAt t c.seqNoState i)
    (hm : MessageAt c.x t m content j) (hij : i ≤ j)
    (hhis : m.seqNo.hisInSeqNo = c.seqNoState.hisInSeqNo)
    (hlast : ∀ v ∈ c.views, rank v.event < j)
    (hfresh : c.states.any (Chat.hasRandomId m.randomId) = false) :
    ∃ c', c.doOutboundMessageImpl m 0 = some c' ∧ Works t c' ∧ Logged c' ∧
      StateAt t c'.seqNoState j ∧ NewFrame c c' := by
  obtain ⟨hw, hat, hf, hviews, hrecords⟩ := h.prepareOutbound hi hm 0 (.inr hhis) rfl
  rw [c.doOutboundMessageImpl_eq m 0 hfresh]
  generalize c.prepareOutbound m 0 = prepared at *
  obtain ⟨c', token⟩ := prepared
  have hx : c'.x = c.x := hf.x
  have hnext : c'.nextLogEventId = c.nextLogEventId := by
    rw [hw.nextLogEventId, h.nextLogEventId, hrecords]
  have hevent : EventOk c'.x t (.outbound m) j := hx ▸ .outbound hm
  have hnew : ∀ p ∈ Journal.live c'.records, rank p.2 < rank (.outbound m) ∧
      ∀ r, randomId? p.2 = some r → randomId? (.outbound m) ≠ some r := by
    rw [hrecords, ← hl]
    intro p hp
    obtain ⟨v, hv, rfl⟩ := mem_map.mp hp
    refine ⟨(hlast v hv).trans_eq hm.seqNo.messageId_eq.symm, fun r hr heq => ?_⟩
    exact randomId_ne hfresh hv (hr.trans heq.symm)
  have hadd := hw.binlogAdd hevent hnew
  have hlogged : Logged (c'.binlogAdd (.outbound m)) := by
    show c'.views.map View.entry = Journal.live (c'.records ++ [.add c'.nextLogEventId _])
    rw [Journal.live_concat, hviews, map_append, hl, hrecords, hnext]
    rfl
  have hlt : c.nextStateId < c'.nextStateId := by
    rw [hf.nextStateId]
    exact Nat.lt_succ_self _
  rw [max_eq_right hij] at hat
  exact ⟨_, rfl, hadd.forceSync rfl (forall_mem_cons.mpr
    ⟨⟨hlt, fun v hv _ => hlogged.rank_le hv⟩, forall_mem_singleton.mpr trivial⟩), hlogged, hat, hx,
    hf.binlogReplayFinishFlag, hf.mailbox, hf.network, fun _ => ⟨_, rfl, hviews⟩⟩

/-- A new message of the other side is logged before it is counted. -/
theorem Works.doInbound_new (h : Works t c) (hl : Logged c) {e : EventSeqNo}
    (hi : StateAt t c.seqNoState i) (he : EventAt t e none j) (hij : i ≤ j)
    (hlast : ∀ v ∈ c.views, rank v.event < j) :
    Works t (c.doInboundMessageDecrypted e 0) ∧ Logged (c.doInboundMessageDecrypted e 0) ∧
      StateAt t (c.doInboundMessageDecrypted e 0).seqNoState j ∧
      NewFrame c (c.doInboundMessageDecrypted e 0) := by
  have hevent : EventOk c.x t (.inbound e) j := .inbound he
  have hadd := h.addState (s := c.newState (.inbound e false) 0) rfl rfl rfl ⟨j, hevent⟩
  have hnew : ∀ p ∈ Journal.live c.records, rank p.2 < rank (.inbound e) ∧
      ∀ r, randomId? p.2 = some r → randomId? (.inbound e) ≠ some r := by
    rw [← hl]
    intro p hp
    obtain ⟨v, hv, rfl⟩ := mem_map.mp hp
    exact ⟨(hlast v hv).trans_eq he.messageId_eq.symm, nofun⟩
  have hw := hadd.binlogAdd hevent hnew
  have hlogged :
    Logged ((c.addState (c.newState (.inbound e false) 0)).binlogAdd (.inbound e)) := by
    show (c.addState _).views.map View.entry =
      Journal.live (c.records ++ [.add c.nextLogEventId (.inbound e)])
    rw [Journal.live_concat, Chat.views_addState, map_append, hl]
    rfl
  obtain ⟨hw', hat, hf, hlogged', -, hsame⟩ := hw.take_in (s := c.newState (.inbound e false) 0)
    (mem_append_right _ (mem_singleton_self _)) (fun k => rfl) rfl h.not_waiting hi he
    he.messageId_eq (.inl hlogged) rfl
  rw [max_eq_right hij] at hat
  refine ⟨hw'.forceSync rfl (by simp [Safe]), hlogged' hlogged, hat, hf.x,
    hf.binlogReplayFinishFlag, hf.mailbox, hf.network, fun hq =>
      ⟨(c.newState (.inbound e false) 0).view, rfl, ?_⟩⟩
  exact (hsame (.inl (hq.concat (c.views_addState _) rfl))).1.trans (c.views_addState _)

/-! ## Replay -/

/-- What a replayed log event adds. -/
structure Replayed (t : List Entry) (c : Chat) (v : View) (k : Nat) (callbacks : List Callback)
    (c' : Chat) : Prop where
  works : Works t c'
  current : StateAt t c'.seqNoState k
  views : c'.views = c.views ++ [v]
  records : c'.records = c.records
  mailbox : c'.mailbox = c.mailbox ++ callbacks
  x : c'.x = c.x
  synced : c'.synced = c.synced
  lastBinlogMessageId : c'.lastBinlogMessageId = c.lastBinlogMessageId
  network : c'.network = c.network

/-- A message that was found is handed over again. -/
theorem Works.doOutbound_replay (h : Works t c) (hq : Quiet c) (hi : StateAt t c.seqNoState i)
    (hm : MessageAt c.x t m content j) (hid : id ≠ 0)
    (hreach : (j : Int) ≤ bound c.records c.synced)
    (hfresh : c.states.any (Chat.hasRandomId m.randomId) = false) :
    ∃ c' token, c.doOutboundMessageImpl m id = some c' ∧
      Replayed t c ⟨c.nextStateId, id, .outbound m, false, false⟩ (max i j)
        [.sendMessageStart c.nextStateId, .saveChangesStart token] c' := by
  obtain ⟨hw, hat, hf, hviews, hrecords⟩ := h.prepareOutbound hi hm id (.inl hq) rfl
  rw [c.doOutboundMessageImpl_eq m id hfresh]
  generalize c.prepareOutbound m id = prepared at *
  obtain ⟨c', token⟩ := prepared
  have hview : (c.newState (.outbound { message := m }) id).view =
      ⟨c.nextStateId, id, .outbound m, false, false⟩ := by
    rw [Chat.newState, if_neg hid]
    rfl
  rw [hview] at hviews
  have hsynced : c'.synced = c.synced := hf.synced
  have hlt : c.nextStateId < c'.nextStateId := by
    rw [hf.nextStateId]
    exact Nat.lt_succ_self _
  have hsafe : ∀ v ∈ c'.views, v.stateId = c.nextStateId →
    rank v.event ≤ bound c'.records c'.synced := by
    rw [hviews, hrecords, hsynced]
    exact forall_mem_append.mpr ⟨fun v hv hvid => absurd hvid (ne_of_lt (h.seen.ids_lt v hv)),
      forall_mem_singleton.mpr fun _ => hm.seqNo.messageId_eq.trans_le hreach⟩
  exact ⟨_, token, congrArg some (if_neg hid), hw.post rfl (forall_mem_cons.mpr
    ⟨⟨hlt, hsafe⟩, forall_mem_singleton.mpr trivial⟩), hat, hviews, hrecords,
    congrArg (· ++ _) hf.mailbox, hf.x, hsynced, hf.lastBinlogMessageId, hf.network⟩

theorem Works.doInbound_replay (h : Works t c) (hq : Quiet c) {e : EventSeqNo}
    (hi : StateAt t c.seqNoState i) (he : EventAt t e none j) (hid : id ≠ 0) :
    ∃ token, Replayed t c ⟨c.nextStateId, id, .inbound e, false, false⟩ (max i j)
      [.saveChangesStart token] (c.doInboundMessageDecrypted e id) := by
  have hadd := h.addState (s := c.newState (.inbound e false) id) rfl rfl rfl
    ⟨j, (.inbound he : EventOk c.x t (.inbound e) j)⟩
  have hviews := c.views_addState (c.newState (.inbound e false) id)
  have hview : (c.newState (.inbound e false) id).view =
      ⟨c.nextStateId, id, .inbound e, false, false⟩ := by
    rw [Chat.newState, if_neg hid]
    rfl
  rw [hview] at hviews
  have hquiet : Quiet (c.addState (c.newState (.inbound e false) id)) := hq.concat hviews rfl
  obtain ⟨hw, hat, hf, -, -, hsame⟩ := hadd.take_in (mem_append_right _
    (mem_singleton_self _)) (fun k => rfl) rfl h.not_waiting hi he he.messageId_eq
    (.inr (.inl hquiet)) rfl
  obtain ⟨hsame, hrecords⟩ := hsame (.inl hquiet)
  have heq : c.doInboundMessageDecrypted e id =
      (((c.addState (c.newState (.inbound e false) id)).updateSeqNoState e).addChanges
        c.nextStateId).1.post [.saveChangesStart
          (((c.addState (c.newState (.inbound e false) id)).updateSeqNoState e).addChanges
            c.nextStateId).2] := by
    cases id with
    | zero => exact absurd rfl hid
    | succ n => rfl
  rw [heq]
  refine ⟨_, hw.post rfl (by simp [Safe]), hat, hsame.trans hviews, hrecords,
    congrArg (· ++ _) hf.mailbox, hf.x, hf.synced, hf.lastBinlogMessageId, hf.network⟩

/-- The highest `message_id`, starting from `k`. -/
def furthest (k : Int) (l : List (Nat × LogEvent)) : Int := l.foldl (fun i p => max i (rank p.2)) k

/-- The log events `done` have been replayed after a restart with the records `rs`. -/
structure Replaying (t : List Entry) (x : Int) (rs : List (Record LogEvent SeqNoState))
    (network : List Query) (done : List (Nat × LogEvent)) (c : Chat) : Prop where
  works : Works t c
  quiet : Quiet c
  entries : c.views.map View.entry = done
  records : c.records = rs
  synced : c.synced = rs.length
  /-- The counters have caught up with the log events. -/
  current : ∃ i, StateAt t c.seqNoState i ∧ (i : Int) = furthest (savedState rs).messageId done
  lastBinlogMessageId : c.lastBinlogMessageId = -1 ∨ ∃ p ∈ done, c.lastBinlogMessageId = rank p.2
  x : c.x = x
  network : c.network = network
  /-- Every message of ours will be handed over. -/
  starts : ∀ v ∈ c.views, ∀ m, v.event = .outbound m → .sendMessageStart v.stateId ∈ c.mailbox
  /-- Nothing else is under way. -/
  mailbox : ∀ callback ∈ c.mailbox,
    (∃ i, callback = .sendMessageStart i) ∨ ∃ k, callback = .saveChangesStart k

section Replay

variable {x : Int} {rs : List (Record LogEvent SeqNoState)} {network : List Query}
  {done : List (Nat × LogEvent)}

/-- Nothing that was replayed has the random id of the next event. -/
theorem Replaying.fresh (h : Replaying t x rs network done c) {r : Int}
    (hdone : ∀ q ∈ done, randomId? q.2 ≠ some r) : c.states.any (Chat.hasRandomId r) = false := by
  refine any_eq_false.mpr fun s hs htrue => ?_
  have hmem : s.view.entry ∈ done := by
    rw [← h.entries]
    exact mem_map_of_mem (Chat.mem_views hs)
  refine hdone _ hmem ?_
  show randomId? s.progress.event = some r
  rw [Chat.hasRandomId] at htrue
  split at htrue
  · rename_i p hp
    rw [hp]
    exact congrArg some (of_decide_eq_true htrue)
  · cases htrue

/-- One more event has been replayed. -/
theorem Replaying.next (h : Replaying t x rs network done c) {c' : Chat} {id i j : Nat}
    {event : LogEvent} {callbacks : List Callback}
    (hr : Replayed t { c with lastBinlogMessageId := rank event }
      ⟨c.nextStateId, id, event, false, false⟩ (max i j) callbacks c')
    (hi : (i : Int) = furthest (savedState rs).messageId done) (hj : rank event = j)
    (hstart : ∀ m, event = .outbound m → .sendMessageStart c.nextStateId ∈ callbacks)
    (hcallbacks : ∀ callback ∈ callbacks,
      (∃ i, callback = .sendMessageStart i) ∨ ∃ k, callback = .saveChangesStart k) :
    Replaying t x rs network (done ++ [(id, event)]) c' := by
  have hviews : c'.views = c.views ++ [⟨c.nextStateId, id, event, false, false⟩] := hr.views
  have hmailbox : c'.mailbox = c.mailbox ++ callbacks := hr.mailbox
  constructor
  · exact hr.works
  · exact h.quiet.concat hviews rfl
  · rw [hviews, map_append, h.entries]
    rfl
  · exact hr.records.trans h.records
  · exact hr.synced.trans h.synced
  · refine ⟨max i j, hr.current, ?_⟩
    rw [furthest, foldl_append]
    show _ = max (furthest _ done) (rank event)
    rw [← hi, hj]
    omega
  · exact .inr ⟨_, mem_append_right _ (mem_singleton_self _), hr.lastBinlogMessageId⟩
  · exact hr.x.trans h.x
  · exact hr.network.trans h.network
  · rw [hviews, hmailbox]
    exact forall_mem_append.mpr ⟨fun v hv m hm => mem_append_left _ (h.starts v hv m hm),
      forall_mem_singleton.mpr fun m hm => mem_append_right _ (hstart m hm)⟩
  · rw [hmailbox]
    exact forall_mem_append.mpr ⟨h.mailbox, hcallbacks⟩

variable {rest : List (Nat × LogEvent)}

/-- **The next event can be replayed.** -/
theorem Replaying.replay (h : Replaying t x rs network done c) {p : Nat × LogEvent}
    (hlive : Journal.live rs = done ++ p :: rest) :
    ∃ c', c.replay p = some c' ∧ Replaying t x rs network (done ++ [p]) c' := by
  obtain ⟨id, event⟩ := p
  have hlog := h.works.log
  rw [h.records] at hlog
  have hmem : (id, event) ∈ Journal.live rs := by
    rw [hlive]
    exact mem_append_right _ mem_cons_self
  have hid : id ≠ 0 := ne_of_gt (hlog.live_all.pos _ hmem)
  obtain ⟨j, hj⟩ := hlog.event hmem
  obtain ⟨i, hi, hfurthest⟩ := h.current
  -- the events that were replayed come before this one
  have hbefore : ∀ q ∈ done, q.1 < id ∧ rank q.2 < rank event ∧
      ∀ r, randomId? q.2 = some r → randomId? event ≠ some r := by
    have horder := hlog.live_all.order
    rw [hlive] at horder
    exact fun q hq => (pairwise_append.mp horder).2.2 q hq _ mem_cons_self
  have hlast : rank event > c.lastBinlogMessageId := by
    have := hj.rank_eq
    rcases h.lastBinlogMessageId with heq | ⟨q, hq, heq⟩
    · dsimp only at this
      omega
    · rw [heq]
      exact (hbefore q hq).2.1
  have hw : Works t { c with lastBinlogMessageId := rank event } := { h.works with }
  have hreach : (j : Int) ≤ bound c.records c.synced := by
    rw [h.records, h.synced, bound_length, ← hj.rank_eq]
    exact rank_le_reach hmem
  have hopen : ¬c.closeFlag = true := Bool.not_eq_true _ ▸ h.works.closeFlag
  cases hj with
  | @outbound m content _ hm =>
    obtain ⟨c', token, heq, hr⟩ := hw.doOutbound_replay h.quiet hi (m := m) (j := j)
      (show MessageAt c.x t m content j from hm) hid hreach
      (h.fresh fun q hq heq => (hbefore q hq).2.2 m.randomId heq rfl)
    refine ⟨c', ?_, h.next hr hfurthest hm.seqNo.messageId_eq ?_ ?_⟩
    · exact (if_neg hopen).trans ((if_neg (not_not_intro hlast)).trans heq)
    · exact fun _ _ => mem_cons_self
    · simp
  | inbound he =>
    obtain ⟨token, hr⟩ := hw.doInbound_replay h.quiet hi he hid
    refine ⟨_, ?_, h.next hr hfurthest he.messageId_eq ?_ ?_⟩
    · exact (if_neg hopen).trans (if_neg (not_not_intro hlast))
    · exact nofun
    · simp

/-- All the events can be replayed. -/
theorem Replaying.replay_all (h : Replaying t x rs network done c)
    (hlive : Journal.live rs = done ++ rest) :
    ∃ c', rest.foldlM Chat.replay c = some c' ∧
      Replaying t x rs network (Journal.live rs) c' := by
  induction rest generalizing done c with
  | nil =>
    rw [append_nil] at hlive
    exact ⟨c, rfl, hlive ▸ h⟩
  | cons p rest ih =>
    obtain ⟨c', hstep, h'⟩ := h.replay hlive
    obtain ⟨c'', hrun, h''⟩ := ih h' (by rw [hlive, append_assoc]; rfl)
    refine ⟨c'', ?_, h''⟩
    rw [foldlM_cons, hstep]
    exact hrun

end Replay

/-! ## A chat between two events -/

/-- A chat that is not closed, when no function runs. -/
structure Running (x : Int) (t : List Entry) (c : Chat) : Prop where
  works : Works t c
  x : c.x = x
  logged : Logged c
  replayed : c.binlogReplayFinishFlag = true
  current : StateAt t c.seqNoState (t.length - 1)

/-- The chat has been started again, and every message of ours that is not marked as sent will be
handed over. -/
structure Restarted (x : Int) (t : List Entry) (c : Chat) : Prop where
  running : Running x t c
  quiet : Quiet c
  starts : ∀ v ∈ c.views, ∀ m, v.event = .outbound m → .sendMessageStart v.stateId ∈ c.mailbox
  mailbox : ∀ callback ∈ c.mailbox,
    (∃ i, callback = .sendMessageStart i) ∨ ∃ k, callback = .saveChangesStart k

section

variable (hlog : Log c.x t rs) (htake : c.records.take n = rs.take n) (hn : n ≤ rs.length)
  (hclosed : c.closedAt.filter (· < n) = none) (hnet : ∀ q ∈ c.network, NetOk c.x t (bound rs n) q)
include hlog htake hn hclosed hnet

/-- What is found at first after a crash. -/
theorem replaying_startUp :
    Replaying (t.take ((bound rs n).toNat + 1)) c.x (rs.take n) c.network [] (c.startUp n) := by
  have hlog' := hlog.take n
  obtain ⟨i, hi⟩ := hlog'.saved
  have hlen : (rs.take n).length = n := by simp [hn]
  have hbound : bound (rs.take n) n = bound rs n := by rw [bound, bound, take_take, min_self]
  rw [Chat.startUp, htake, hclosed]
  exact
    { works := by
        constructor
        · rfl
        · rfl
        · exact hlog'
        · rfl
        · exact le_of_eq hlen.symm
        · exact forall_mem_nil _
        · exact ⟨i, hi⟩
        · exact forall_mem_nil _
        · exact le_rfl
        · exact .nil
        · exact .nil
        · refine .nil fun q hq => ?_
          show NetOk _ _ (bound (rs.take n) n) q
          rw [hbound]
          refine (hnet q hq).congr fun k _ hk => ?_
          rw [getElem?_take, if_pos (by omega)]
      quiet := forall_mem_nil _
      entries := rfl
      records := rfl
      synced := hlen.symm
      current := ⟨i, hi, hi.messageId_eq.symm⟩
      lastBinlogMessageId := .inl rfl
      x := rfl
      network := rfl
      starts := forall_mem_nil _
      mailbox := forall_mem_nil _ }

/-- **A crash of a chat that is not closed.** -/
theorem restart_ok :
    ∃ c', c.restart n = some c' ∧
      Restarted c.x (t.take ((bound rs n).toNat + 1)) c' ∧ c'.network = c.network ∧
      c'.records = rs.take n := by
  obtain ⟨c1, hrun, h⟩ := (replaying_startUp hlog htake hn hclosed hnet).replay_all
    (nil_append _).symm
  have hlogged : Logged c1 := h.entries.trans (congrArg Journal.live h.records).symm
  obtain ⟨hw, hf, -⟩ := h.works.onHisInSeqNoUpdated (.inr h.quiet)
  obtain ⟨hviews, hrecords⟩ := hf.quiet h.quiet
  obtain ⟨i, hi, hfurthest⟩ := h.current
  -- the counters have gone on to the last entry
  have hlast : i = (t.take ((bound rs n).toNat + 1)).length - 1 := by
    have hlt := hi.lt
    have hreach : (i : Int) = bound rs n := hfurthest
    rw [length_take] at hlt ⊢
    omega
  refine ⟨c1.binlogReplayFinish, ?_, ⟨⟨{ hw with }, ?_, ?_, rfl, ?_⟩, ?_, ?_, ?_⟩, ?_, ?_⟩
  · rw [Chat.restart, htake, hrun]
    rfl
  · exact hf.x.trans h.x
  · exact hf.logged hlogged
  · rw [← hlast]
    show StateAt _ c1.onHisInSeqNoUpdated.seqNoState i
    rw [hf.seqNoState]
    exact hi
  · exact h.quiet.of_views hviews
  · intro v hv m hm
    show _ ∈ c1.onHisInSeqNoUpdated.mailbox
    rw [hf.mailbox]
    exact h.starts v (hviews ▸ hv) m hm
  · intro callback hc
    exact h.mailbox callback (hf.mailbox ▸ hc)
  · exact hf.network.trans h.network
  · exact hrecords.trans h.records

end

end Tdlib.SecretChat.Outbound
