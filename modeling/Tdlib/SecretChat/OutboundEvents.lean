import Tdlib.SecretChat.OutboundReplay

/-!
# What the functions of an open chat do

Each function keeps `Works` and `Logged`. `Stays` says so for the functions that take in no
message, and `Running.send` and `Running.receive` for the other two.

`Keeps` is about the time right after a restart. The messages that were found wait in the
mailbox to be handed over. A state goes only after it was told that it is saved, and that
comes behind them in the mailbox, so until then every message is kept as it is.
-/

namespace Tdlib.SecretChat.Outbound

open Lib List

/-! ## What an event keeps -/

/-- A message that has not been sent is still to be sent, under its number. -/
def StillUnsent (e e' : LogEvent) : Prop :=
  ∀ m, e = .outbound m → m.isSent = false →
    ∃ m', e' = .outbound m' ∧ m'.isSent = false ∧ m'.randomId = m.randomId ∧
      m'.encryptedMessage.outSeqNo = m.encryptedMessage.outSeqNo

theorem StillUnsent.refl (e : LogEvent) : StillUnsent e e := fun m hm hsent =>
    ⟨m, hm, hsent, rfl, rfl⟩

theorem StillUnsent.trans {e e' e'' : LogEvent} (h : StillUnsent e e') (h' : StillUnsent e' e'') :
    StillUnsent e e'' := by
  intro m hm hsent
  obtain ⟨m', hm', hsent', hrandom, hout⟩ := h m hm hsent
  obtain ⟨m'', hm'', hsent'', hrandom', hout'⟩ := h' m' hm' hsent'
  exact ⟨m'', hm'', hsent'', hrandom'.trans hrandom, hout'.trans hout⟩

/-- Before the first state is told that it is saved, the states are kept. -/
def Keeps (c c' : Chat) : Prop :=
  Quiet c → Quiet c' ∧
    ∀ v ∈ c.views, ∃ v' ∈ c'.views, v'.stateId = v.stateId ∧ StillUnsent v.event v'.event

theorem Keeps.of_views {c c' : Chat} (hviews : c'.views = c.views) : Keeps c c' :=
  fun hq => ⟨hq.of_views hviews, fun v hv => ⟨v, hviews ▸ hv, rfl, .refl _⟩⟩

theorem Keeps.trans {c c' c'' : Chat} (h : Keeps c c') (h' : Keeps c' c'') : Keeps c c'' := by
  intro hq
  obtain ⟨hq', hviews⟩ := h hq
  obtain ⟨hq'', hviews'⟩ := h' hq'
  refine ⟨hq'', fun v hv => ?_⟩
  obtain ⟨v', hv', hid, hsent⟩ := hviews v hv
  obtain ⟨v'', hv'', hid', hsent'⟩ := hviews' v' hv'
  exact ⟨v'', hv'', hid'.trans hid, hsent.trans hsent'⟩

variable {x : Int} {t : List Entry} {c c' : Chat} {s s0 : MessageState}

theorem AckFrame.keeps (h : AckFrame c c') : Keeps c c' := fun hq =>
    Keeps.of_views (h.quiet hq).1 hq

/-- A state changes, but not whether it was told. -/
theorem Keeps.set (hids : (c.views.map View.stateId).Nodup) (hs0 : s0 ∈ c.states)
    (hid : s.stateId = s0.stateId) (hflag : s.saveChangesFinish = s0.saveChangesFinish)
    (hevent : StillUnsent s0.progress.event s.progress.event) : Keeps c (c.set s) := by
  refine fun hq => ⟨?_, fun v hv => ?_⟩
  · intro v hv
    rcases Chat.mem_views_set hv hs0 hid with rfl | ⟨hv, -⟩
    · exact hflag.trans (hq s0.view (Chat.mem_views hs0))
    · exact hq v hv
  · rw [Chat.views_set]
    by_cases heq : v.stateId = s.stateId
    · obtain rfl := inj_on_of_nodup_map hids hv (Chat.mem_views hs0) (heq.trans hid)
      exact ⟨s.view, (mem_update (Chat.mem_views hs0) hid).mpr (.inl rfl), hid, hevent⟩
    · exact ⟨v, (mem_update (Chat.mem_views hs0) hid).mpr (.inr ⟨hv, heq⟩), rfl, .refl _⟩

/-- An event that takes in no message. Callbacks and queries are only added. -/
structure Stays (t : List Entry) (c c' : Chat) : Prop where
  works : Works t c'
  logged : Logged c'
  x : c'.x = c.x
  seqNoState : c'.seqNoState = c.seqNoState
  binlogReplayFinishFlag : c'.binlogReplayFinishFlag = c.binlogReplayFinishFlag
  mailbox : c.mailbox <+: c'.mailbox
  network : c.network <+: c'.network

theorem Stays.refl (h : Works t c) (hl : Logged c) : Stays t c c :=
  ⟨h, hl, rfl, rfl, rfl, prefix_rfl, prefix_rfl⟩

theorem Stays.trans {c'' : Chat} (h : Stays t c c') (h' : Stays t c' c'') : Stays t c c'' :=
  ⟨h'.works, h'.logged, h'.x.trans h.x, h'.seqNoState.trans h.seqNoState,
    h'.binlogReplayFinishFlag.trans h.binlogReplayFinishFlag, h.mailbox.trans h'.mailbox,
    h.network.trans h'.network⟩

theorem Stays.of_frame (hw : Works t c') (hf : AckFrame c c') (hl : Logged c) : Stays t c c' :=
  ⟨hw, hf.logged hl, hf.x, hf.seqNoState, hf.binlogReplayFinishFlag, hf.mailbox ▸ prefix_rfl,
    hf.network ▸ prefix_rfl⟩

/-- Such an event, with the states kept while none was told. -/
abbrev Calm (t : List Entry) (c c' : Chat) : Prop := Stays t c c' ∧ Keeps c c'

theorem Running.stays (h : Running x t c) (hs : Stays t c c') : Running x t c' where
  works := hs.works
  x := hs.x.trans h.x
  logged := hs.logged
  replayed := hs.binlogReplayFinishFlag.trans h.replayed
  current := by
    rw [hs.seqNoState]
    exact h.current

/-! ## What becomes of a message -/

theorem finishes_saveChangesFinish (changes : List StateChange) :
    finishes (changes.map fun change => .saveChangesFinish change.saveChangesFinish) =
      changes.map StateChange.saveChangesFinish := by
  rw [finishes, filterMap_map]
  exact congrFun filterMap_eq_map' changes

theorem lastChange_mem {changes : List StateChange} {s : SeqNoState}
    (h : Chat.lastChange changes = some s) :
    ∃ change ∈ changes, change.seqNoStateChange = some s := by
  rw [Chat.lastChange] at h
  induction changes using reverseRecOn with
  | nil => cases h
  | append_singleton changes change ih =>
    rw [foldl_append] at h
    change change.seqNoStateChange.or _ = some s at h
    cases hchange : change.seqNoStateChange with
    | some s' =>
      rw [hchange] at h
      exact ⟨change, mem_append_right _ (mem_singleton_self _), hchange.trans h⟩
    | none =>
      rw [hchange] at h
      obtain ⟨change', hc, hs⟩ := ih h
      exact ⟨change', mem_append_left _ hc, hs⟩

section Functions

variable (h : Works t c) (hl : Logged c)

include h hl

theorem Works.calm : Calm t c c := ⟨.refl h hl, .of_views rfl⟩

theorem Works.onSendMessageFinish (i : Nat) :
    Calm t c (c.onSendMessageFinish i) := by
  rw [Chat.onSendMessageFinish, if_neg (by simp [h.closeFlag])]
  split
  · rename_i s hs
    split
    · rename_i p hp
      obtain ⟨hw, hf, -⟩ := h.set_loop
        (s := { s with progress := .outbound { p with sendMessageFinishFlag := true } })
        (Chat.mem_of_find? hs).1 (by rw [MessageState.view, MessageState.view, hp]; rfl) (.inl hl)
      exact ⟨.of_frame hw hf hl, hf.keeps⟩
    · exact h.calm hl
  · exact h.calm hl

variable {i : Nat} {mailbox : List Callback}

theorem Works.onSaveMessageFinish (hi : ∃ s ∈ c.states, s.stateId = i ∧ Chat.isUnsaved s) :
    ∃ c', c.onSaveMessageFinish i = some c' ∧ Calm t c c' := by
  obtain ⟨s, hs, rfl, hunsaved⟩ := hi
  rw [Chat.onSaveMessageFinish, if_neg (by simp [h.closeFlag]), Chat.find?_eq h.seen.ids hs]
  dsimp only
  cases hp : s.progress with
  | outbound p => simp [Chat.isUnsaved, hp] at hunsaved
  | inbound e b =>
    obtain ⟨hw, hf, -⟩ := h.set_loop (s := { s with progress := .inbound e true }) hs
      (by rw [MessageState.view, MessageState.view, hp]; rfl) (.inl hl)
    exact ⟨_, rfl, .of_frame hw hf hl, hf.keeps⟩

/-- A message that is marked or deleted keeps its number. -/
theorem Works.edit_stays (hs : s ∈ c.states) {p : OutboundProgress} (p' : OutboundProgress)
    (hp : s.progress = .outbound p) (hedit : Edits c.x p p')
    (hsent : p.message.isSent = false → p'.message.isSent = false) :
    Calm t c ((c.set { s with progress := .outbound p' }).write
        (.rewrite s.logEventId (.outbound p'.message))) := by
  obtain ⟨hw, hl'⟩ := h.edit hl hs p' hp hedit
  refine ⟨⟨hw, hl', rfl, rfl, rfl, prefix_rfl, prefix_rfl⟩, ?_⟩
  refine Keeps.set (s := { s with progress := .outbound p' }) h.seen.ids hs rfl rfl ?_
  intro m hm hnot
  rw [hp] at hm
  cases hm
  refine ⟨p'.message, rfl, hsent hnot, hedit.randomId, ?_⟩
  rcases hedit.encrypted with heq | heq
  · rw [heq]
  obtain ⟨i, hi⟩ := h.seen.event s.view (Chat.mem_views hs)
  rw [view_event hp] at hi
  cases hi with
  | outbound hm =>
    obtain ⟨content, hcontent, -⟩ := hm.encrypted
    rw [heq, hcontent]
    rfl

/-- The message is deleted, under its number. -/
theorem Works.outboundRewriteWithEmpty (i : Nat) :
    Calm t c (c.outboundRewriteWithEmpty i) := by
  rw [Chat.outboundRewriteWithEmpty, if_neg (by simp [h.closeFlag])]
  split
  · rename_i s hfind
    split
    · rename_i p hp
      split
      · exact h.calm hl
      exact h.edit_stays hl (Chat.mem_of_find? hfind).1
        { p with
          message.encryptedMessage :=
            createEncryptedMessage c.x p.message.seqNo.myInSeqNo p.message.seqNo.myOutSeqNo none
          message.isRewritable := false
          message.isExternal := false } hp ⟨rfl, rfl, .inr rfl, id⟩ id
    · exact h.calm hl
  · exact h.calm hl

omit hl in
/-- A message that was deleted is as safe as before. -/
theorem Works.rewrite_safe
    (hsafe : ∀ v ∈ c.views, v.stateId = i → rank v.event ≤ bound c.records c.synced) :
    ∀ v ∈ (c.outboundRewriteWithEmpty i).views, v.stateId = i → rank v.event ≤
      bound (c.outboundRewriteWithEmpty i).records (c.outboundRewriteWithEmpty i).synced := by
  rw [Chat.outboundRewriteWithEmpty, if_neg (by simp [h.closeFlag])]
  split
  · rename_i s hfind
    obtain ⟨hs, hid⟩ := Chat.mem_of_find? hfind
    split
    · rename_i p hp
      split
      · exact hsafe
      intro v hv hvid
      show rank v.event ≤ bound (c.records ++ [_]) c.synced
      rw [bound_concat h.synced]
      rcases Chat.mem_views_set hv hs rfl with rfl | ⟨hv, -⟩
      · have hle := hsafe s.view (Chat.mem_views hs) hid
        rw [view_event hp] at hle
        exact hle
      · exact hsafe v hv hvid
    · exact hsafe
  · exact hsafe

/-- A message that the other side asks for is handed over again after its mark is gone. -/
theorem Works.outboundResend (hi : ∃ s ∈ c.states, s.stateId = i ∧ Chat.isOutbound s) :
    ∃ c', c.outboundResend i = some c' ∧ Calm t c c' := by
  obtain ⟨s, hs, rfl, hout⟩ := hi
  rw [Chat.outboundResend, if_neg (by simp [h.closeFlag]), Chat.find?_eq h.seen.ids hs]
  dsimp only
  cases hp : s.progress with
  | inbound e b => simp [Chat.isOutbound, hp] at hout
  | outbound p =>
    obtain ⟨hstays, hkeeps⟩ := h.edit_stays hl hs
      { p with message.isSent := false, netQuery := false } hp ⟨rfl, rfl, .inl rfl, nofun⟩
      fun _ => rfl
    refine ⟨_, rfl, ⟨hstays.works.forceSync rfl (forall_mem_singleton.mpr ?_), hstays.logged,
      rfl, rfl, rfl, prefix_rfl, prefix_rfl⟩, hkeeps⟩
    exact ⟨h.seen.ids_lt s.view (Chat.mem_views hs), fun v hv _ => hstays.logged.rank_le hv⟩

/-- The query of a message comes or goes. -/
theorem Works.set_query (hs : s ∈ c.states) {p : OutboundProgress} (p' : OutboundProgress)
    (hp : s.progress = .outbound p) (hmessage : p'.message = p.message)
    (hsafe : p'.netQuery = true → rank (.outbound p.message) ≤ bound c.records c.synced) :
    Calm t c (c.set { s with progress := .outbound p' }) := by
  have hevent : (Progress.outbound p').event = s.progress.event := by
    rw [hp]
    exact congrArg LogEvent.outbound hmessage
  have hw : Works t (c.set { s with progress := .outbound p' }) := by
    refine h.set hs rfl rfl ?_ (congrArg rank hevent) ?_
    · rw [hevent]
      exact h.seen.event s.view (Chat.mem_views hs)
    · intro hq
      rw [hevent, hp]
      exact hsafe hq
  have hlogged := h.logged_set hl hs (s := { s with progress := .outbound p' }) rfl
    (congrArg (Prod.mk s.logEventId) hevent)
  exact ⟨⟨hw, hlogged, rfl, rfl, rfl, prefix_rfl, prefix_rfl⟩,
    Keeps.set h.seen.ids hs rfl rfl (by rw [hevent]; exact .refl _)⟩

/-- A message that was handed over is handed over again. -/
theorem Works.resend (needSync : Bool)
    (hsafe : ∀ v ∈ c.views, v.stateId = i → rank v.event ≤ bound c.records c.synced) :
    Calm t c (c.resend i needSync) := by
  rw [Chat.resend]
  split
  · rename_i s hfind
    obtain ⟨hs, hid⟩ := Chat.mem_of_find? hfind
    split
    · rename_i p hp
      have hle := hsafe s.view (Chat.mem_views hs) hid
      obtain ⟨i, hi⟩ := h.seen.event s.view (Chat.mem_views hs)
      rw [view_event hp] at hle hi
      obtain ⟨hstays, hkeeps⟩ := h.set_query hl hs { p with netQuery := true } hp rfl fun _ => hle
      have hw := hstays.works
      split
      · refine ⟨⟨hw.forceSync rfl ?_, hstays.logged, rfl, rfl, rfl, prefix_rfl, prefix_rfl⟩, hkeeps⟩
        intro callback hc
        obtain rfl := mem_singleton.mp hc
        refine hi.netOk (hle.trans ?_)
        rw [← bound_length]
        exact h.log.bound_mono h.synced
      · exact ⟨⟨{ hw with sending := hw.sending.send (hi.netOk hle) }, hstays.logged, rfl, rfl, rfl,
          prefix_rfl, prefix_append _ _⟩, hkeeps⟩
    · exact h.calm hl
  · exact h.calm hl

/-- The result of a query is posted. -/
theorem Works.onSendMessageResult {result : Callback}
    (hresult : result = .sendMessageFinish i ∨ ∃ b, result = .sendMessageError i b) :
    Calm t c (c.onSendMessageResult i result) := by
  rw [Chat.onSendMessageResult, if_neg (by simp [h.closeFlag])]
  split
  · rename_i s hfind
    obtain ⟨hs, hid⟩ := Chat.mem_of_find? hfind
    split
    · rename_i p hp
      split
      · exact h.calm hl
      rename_i hquery
      have hquery : p.netQuery = true := not_not.mp hquery
      -- the query was handed over, so the message is safe
      have hle : rank s.view.event ≤ bound c.records c.synced := by
        refine h.sending.queried s.view (Chat.mem_views hs) ?_
        rw [MessageState.view, hp]
        exact hquery
      obtain ⟨hstays, hkeeps⟩ := h.set_query hl hs { p with netQuery := false } hp rfl
        (absurd · Bool.false_ne_true)
      refine ⟨⟨hstays.works.post ?_ ?_, hstays.logged, rfl, rfl, rfl, prefix_append _ _,
        prefix_rfl⟩, hkeeps⟩
      · rcases hresult with rfl | ⟨b, rfl⟩ <;> rfl
      intro callback hc
      obtain rfl := mem_singleton.mp hc
      rcases hresult with rfl | ⟨b, rfl⟩
      · trivial
      refine ⟨hid ▸ h.seen.ids_lt s.view (Chat.mem_views hs), fun v hv hvid => ?_⟩
      rcases Chat.mem_views_set hv hs rfl with rfl | ⟨-, hne⟩
      · rw [view_event hp] at hle
        exact hle
      · exact absurd (hvid.trans hid.symm) hne
    · exact h.calm hl
  · exact h.calm hl

/-- Changes are saved, and their states will be told. -/
theorem Works.onSaveChangesStart (token : Nat) :
    Calm t c (c.onSaveChangesStart token) := by
  rw [Chat.onSaveChangesStart, if_neg (by simp [h.closeFlag])]
  obtain ⟨hsplit, hready⟩ := ChangesProcessor.undelivered_finish h.ready token
  generalize c.changesProcessor.finish token = finished at *
  obtain ⟨changesProcessor, changes⟩ := finished
  dsimp only at *
  have hsaving := h.saving
  have hchanges := h.changes
  rw [hsplit] at hsaving hchanges
  have hdeliver := hsaving.deliver
  rw [← finishes_saveChangesFinish, ← finishes_append, rankAfter_lastChange] at hdeliver
  have hsafe : ∀ callback ∈ changes.map fun change => .saveChangesFinish change.saveChangesFinish,
      Safe c.x t c.views c.nextStateId (bound c.records c.synced) callback := by
    intro callback hc
    obtain ⟨change, -, rfl⟩ := mem_map.mp hc
    trivial
  -- Only counters that a change carries are written.
  split
  · rename_i s hs
    rw [hs] at hdeliver
    obtain ⟨change, hc, hchange⟩ := lastChange_mem hs
    obtain ⟨i, hi⟩ := hchanges change (mem_append_left _ hc) s hchange
    have hle : (savedState c.records).messageId ≤ s.messageId := by
      have := (covers_append.mp hsaving.covers).1.le
      rwa [rankAfter_lastChange, hs] at this
    refine ⟨⟨?_, ?_, rfl, rfl, rfl, prefix_append _ _, prefix_rfl⟩, .of_views rfl⟩
    · exact
        { h with
          log := h.log.save hi hle
          nextLogEventId := h.nextLogEventId.trans (nextId_concat (.save s)).symm
          synced := h.synced_write _
          syncing := h.syncing_write _
          changes := (forall_mem_append.1 hchanges).2
          ready := hready
          saving := by
            show Saving _ _ _ _ (savedState (c.records ++ [_])).messageId _
            rw [savedState, Journal.saved_concat]
            exact hdeliver
          sending := (h.sending_write _).post fun callback hc => by
            rw [bound_concat h.synced]
            exact hsafe callback hc }
    · show c.views.map View.entry = Journal.live (c.records ++ [_])
      rw [Journal.live_concat]
      exact hl
  · rename_i hs
    rw [hs] at hdeliver
    refine ⟨⟨?_, hl, rfl, rfl, rfl, prefix_append _ _, prefix_rfl⟩, .of_views rfl⟩
    exact
      { h with
        changes := (forall_mem_append.1 hchanges).2
        ready := hready
        saving := hdeliver
        sending := h.sending.post hsafe }

/-- A message is handed to the network. -/
theorem Works.onSendMessageStart
    (hsafe : ∀ v ∈ c.views, v.stateId = i → rank v.event ≤ bound c.records c.synced) :
    Calm t c (c.onSendMessageStart i) := by
  rw [Chat.onSendMessageStart]
  split
  · rename_i s hfind
    obtain ⟨hs, hid⟩ := Chat.mem_of_find? hfind
    split
    · rename_i p hp
      split
      · have hle := hsafe s.view (Chat.mem_views hs) hid
        obtain ⟨i, hi⟩ := h.seen.event s.view (Chat.mem_views hs)
        rw [view_event hp] at hle hi
        obtain ⟨hstays, hkeeps⟩ := h.set_query hl hs
          { p with netQuery := true, netQueryMayFail := p.message.isRewritable } hp rfl fun _ => hle
        have hw := hstays.works
        exact ⟨⟨{ hw with sending := hw.sending.send (hi.netOk hle) }, hstays.logged, rfl, rfl, rfl,
          prefix_rfl, prefix_append _ _⟩, hkeeps⟩
      · exact h.onSendMessageFinish hl i
    · exact h.calm hl
  · exact h.calm hl

omit hl in
/-- A callback is taken from the mailbox. -/
theorem Works.pop {callback : Callback} (hmailbox : c.mailbox = callback :: mailbox) :
    Works t { c with mailbox := mailbox } := by
  have hsaving := h.saving
  have hsending := h.sending
  rw [hmailbox] at hsaving hsending
  refine { h with saving := ?_, sending := hsending.pop }
  cases callback with
  | saveChangesFinish i => exact hsaving.pop
  | sendMessageStart | sendMessageFinish | sendMessageError | saveChangesStart | resendQuery =>
    exact hsaving

/-- A state is told that it is saved. It is there, so the `CHECK` does not fail. -/
theorem Works.onSaveChangesFinish (hmailbox : c.mailbox = .saveChangesFinish i :: mailbox) :
    ∃ c', { c with mailbox := mailbox }.onSaveChangesFinish i = some c' ∧
      Stays t { c with mailbox := mailbox } c' := by
  have hpop := h.pop hmailbox
  have hsaving := h.saving
  rw [hmailbox] at hsaving
  obtain ⟨v, hv, hid, -⟩ := hsaving.waits i (mem_append_right _ mem_cons_self)
  obtain ⟨s, hs, rfl⟩ := mem_map.mp hv
  obtain rfl : s.stateId = i := hid
  have hw : Works t ({ c with mailbox := mailbox }.set { s with saveChangesFinish := true }) :=
    { hpop with
      seen := by
        rw [Chat.views_set]
        exact hpop.seen.update (v := MessageState.view { s with saveChangesFinish := true }) hv rfl
          (h.seen.event s.view hv)
      saving := by
        rw [Chat.views_set]
        exact hsaving.mark (v := MessageState.view { s with saveChangesFinish := true }) hv
          rfl rfl rfl
      sending := by
        rw [Chat.views_set]
        exact hpop.sending.update (v := MessageState.view { s with saveChangesFinish := true }) hv
          rfl rfl (h.sending.queried s.view hv) }
  have hlogged := hpop.logged_set hl hs (s := { s with saveChangesFinish := true }) rfl rfl
  have hmem := (Chat.mem_set (c := { c with mailbox := mailbox }) (s := { s with
    saveChangesFinish := true }) hs rfl).mpr (.inl rfl)
  obtain ⟨hw', hf, -⟩ := hw.loop hmem fun _ => hlogged
  refine ⟨_, ?_, { Stays.of_frame hw' hf hlogged with }⟩
  rw [Chat.onSaveChangesFinish, if_neg (by simp [h.closeFlag]), Chat.find?_eq hpop.seen.ids hs]

end Functions

/-! ## A chat that is open -/

theorem Running.rank_lt (h : Running x t c) {v : View} (hv : v ∈ c.views) :
    rank v.event < (t.length : Int) := by
  obtain ⟨i, hi⟩ := h.works.seen.event v hv
  rw [hi.rank_eq]
  exact Int.ofNat_lt.mpr hi.lt

theorem Running.length_pos (h : Running x t c) : 0 < t.length :=
  (List.getElem?_eq_some_iff.mp h.works.log.timeline.first).1

/-- The timeline goes on with the next message. -/
theorem Running.extend (h : Running x t c) {b : Entry}
    (hmono : c.seqNoState.myInSeqNo ≤ b.myInSeqNo ∧ c.seqNoState.myOutSeqNo ≤ b.myOutSeqNo ∧
      c.seqNoState.hisInSeqNo ≤ b.hisInSeqNo)
    (hstrict : b.own ≠ none → c.seqNoState.myOutSeqNo < b.myOutSeqNo) :
    Works (t ++ [b]) c ∧ StateAt (t ++ [b]) c.seqNoState (t.length - 1) ∧
      c.seqNoState.messageId + 1 = t.length := by
  obtain ⟨own, hown⟩ := h.current.entry
  have hpos := h.length_pos
  refine ⟨h.works.extend (h.works.log.timeline.concat hown hmono hstrict),
    h.current.congr (getElem?_append_left (by omega)), ?_⟩
  rw [h.current.messageId_eq]
  omega

theorem NewFrame.keeps (h : NewFrame c c') : Keeps c c' := by
  intro hq
  obtain ⟨v, hflag, hviews⟩ := h.views hq
  rw [Quiet, hviews]
  exact ⟨forall_mem_append.mpr ⟨hq, forall_mem_singleton.mpr hflag⟩,
    fun w hw => ⟨w, mem_append_left _ hw, rfl, .refl _⟩⟩

/-- A message has been taken in. -/
theorem Running.next (h : Running x t c) {b : Entry} (hw : Works (t ++ [b]) c') (hl : Logged c')
    (hat : StateAt (t ++ [b]) c'.seqNoState t.length) (hf : NewFrame c c') :
    Running x (t ++ [b]) c' := by
  refine ⟨hw, hf.x.trans h.x, hl, hf.binlogReplayFinishFlag.trans h.replayed, ?_⟩
  rw [length_append]
  exact hat

theorem Running.send (h : Running x t c) (randomId : Int) (content : Nat) (b b' : Bool) :
    ∃ c' t', c.sendMessageImpl randomId content b b' = some c' ∧ Running x t' c' ∧
      (c' = c ∨ NewFrame c c') := by
  rw [Chat.sendMessageImpl, if_neg (by simp [h.works.closeFlag]), if_neg (by simp [h.replayed])]
  by_cases hany : c.states.any (Chat.hasRandomId randomId) = true
  · rw [if_pos hany]
    exact ⟨c, t, rfl, h, .inl rfl⟩
  rw [if_neg hany]
  obtain ⟨hw, hat, hnext⟩ := h.extend (b := ⟨c.seqNoState.myInSeqNo, c.seqNoState.myOutSeqNo + 1,
    c.seqNoState.hisInSeqNo, some (randomId, content)⟩) ⟨le_rfl, by dsimp only; omega, le_rfl⟩
    (fun _ => by dsimp only; omega)
  have hm : MessageAt c.x (t ++ [_])
      { randomId := randomId
        encryptedMessage := createEncryptedMessage c.x c.seqNoState.myInSeqNo
          (c.seqNoState.myOutSeqNo + 1) (some content)
        seqNo := ⟨c.seqNoState.messageId + 1, c.seqNoState.myInSeqNo,
          c.seqNoState.myOutSeqNo + 1, c.seqNoState.hisInSeqNo, -1⟩
        isRewritable := b
        isExternal := b' } content t.length :=
    ⟨⟨hnext, getElem?_concat_length⟩, _, rfl, .inl rfl⟩
  obtain ⟨c', heq, hw', hl', hat', hf⟩ := hw.doOutbound_new h.logged hat hm (by omega) rfl
    (fun v hv => h.rank_lt hv) (Bool.not_eq_true _ ▸ hany)
  exact ⟨c', _, heq, h.next hw' hl' hat' hf, .inr hf⟩

theorem Running.receive (h : Running x t c) {ack : Int} (layer : Int)
    (hack : c.seqNoState.hisInSeqNo ≤ ack) :
    ∃ t', Running x t' (c.addInboundMessage ack layer) ∧
      NewFrame c (c.addInboundMessage ack layer) := by
  rw [Chat.addInboundMessage, if_neg (by simp [h.works.closeFlag])]
  obtain ⟨hw, hat, hnext⟩ := h.extend (b := ⟨c.seqNoState.myInSeqNo + 1, c.seqNoState.myOutSeqNo,
    ack, none⟩) ⟨by dsimp only; omega, le_rfl, hack⟩ (fun hne => absurd rfl hne)
  have he : EventAt (t ++ [_]) ⟨c.seqNoState.messageId + 1, c.seqNoState.myInSeqNo + 1,
      c.seqNoState.myOutSeqNo, ack, layer⟩ none t.length :=
    ⟨hnext, getElem?_concat_length⟩
  obtain ⟨hw', hl', hat', hf⟩ := hw.doInbound_new h.logged hat he (by omega)
    (fun v hv => h.rank_lt hv)
  exact ⟨_, h.next hw' hl' hat' hf, hf⟩

end Tdlib.SecretChat.Outbound
