import Tdlib.SecretChat.OutboundState

/-!
# A chat that runs

`Works` is what holds in the middle of every function of the actor. `Logged` says that the
states of messages are the log events that live. It fails only while a message is being
added, and while log events are replayed.

Nothing but `loop` erases a log event. It does so for a state that was told that its changes
are saved, so `Works.loop` is where the two levels meet.
-/

namespace Tdlib.SecretChat.Outbound

open Lib List

/-- The states that are told next that they are saved. -/
def finishes (mailbox : List Callback) : List Nat :=
  mailbox.filterMap fun callback => match callback with
    | .saveChangesFinish i => some i
    | _ => none

/-- How far the first `n` records reach. -/
def bound (rs : List (Record LogEvent SeqNoState)) (n : Nat) : Int := reach (rs.take n)

variable {rs : List (Record LogEvent SeqNoState)} {r : Record LogEvent SeqNoState} {i j : Nat}
  {own : Option (Int × Nat)} {callbacks : List Callback}

theorem bound_concat {k : Nat} (hk : k ≤ rs.length) : bound (rs ++ [r]) k = bound rs k := by
  rw [bound, take_append_of_le_length hk]
  rfl

theorem bound_length (rs : List (Record LogEvent SeqNoState)) : bound rs rs.length = reach rs := by
  rw [bound, take_length]

theorem Log.bound_mono {x : Int} {t : List Entry} (h : Log x t rs) : Monotone (bound rs) :=
  fun _ _ hle => h.steady.reached_mono hle

def Chat.views (c : Chat) : List View := c.states.map MessageState.view

def View.entry (v : View) : Nat × LogEvent := (v.logEventId, v.event)

/-- The states of messages are the log events that live. -/
def Logged (c : Chat) : Prop := c.views.map View.entry = Journal.live c.records

/-- No state has been told that it is saved. -/
def Quiet (c : Chat) : Prop := ∀ v ∈ c.views, v.saveChangesFinish = false

/-- What holds of a chat that is not closed. -/
structure Works (t : List Entry) (c : Chat) : Prop where
  closeFlag : c.closeFlag = false
  closedAt : c.closedAt = none
  log : Log c.x t c.records
  nextLogEventId : c.nextLogEventId = Chat.nextId c.records
  synced : c.synced ≤ c.records.length
  /-- Nothing that waits for a sync ends a saving. -/
  syncing : ∀ p ∈ c.syncing, p.1 ≤ c.records.length ∧ finishes p.2 = []
  /-- The counters are those of some moment of the history. -/
  current : ∃ i, StateAt t c.seqNoState i
  /-- So are those that are to be saved. -/
  changes : ∀ change ∈ c.changesProcessor.undelivered, ∀ s, change.seqNoStateChange = some s →
    ∃ i, StateAt t s i
  ready : c.changesProcessor.readyI ≤ c.changesProcessor.dataArray.length
  seen : Seen c.x t c.views c.nextStateId
  saving : Saving c.views c.seqNoState.messageId c.seqNoStateChanged
    c.changesProcessor.undelivered (savedState c.records).messageId (finishes c.mailbox)
  sending : Sending c.x t c.views c.nextStateId (bound c.records) c.synced c.syncing c.mailbox
    c.network

variable {t : List Entry} {c : Chat} {s s0 : MessageState}

theorem Chat.mem_views (hs : s ∈ c.states) : s.view ∈ c.views := mem_map_of_mem hs

theorem Chat.views_set (c : Chat) (s : MessageState) : (c.set s).views = update c.views s.view := by
  rw [views, set, update, views, map_map, map_map]
  refine map_congr_left fun s' _ => ?_
  simp only [Function.comp_apply]
  split
  · exact (if_pos ‹_›).symm
  · exact (if_neg ‹_›).symm

theorem Chat.mem_views_set {w : View} (hw : w ∈ (c.set s).views) (hs0 : s0 ∈ c.states)
    (hid : s.stateId = s0.stateId) : w = s.view ∨ w ∈ c.views ∧ w.stateId ≠ s.stateId := by
  rw [views_set] at hw
  exact (mem_update (mem_views hs0) hid).mp hw

theorem Chat.views_eraseState (c : Chat) (i : Nat) :
    (c.eraseState i).views = c.views.filter fun v => v.stateId ≠ i := by
  rw [views, views, filter_map]
  rfl

/-- A state that was changed is the one with its id. -/
theorem Chat.mem_set {s' : MessageState} (hs0 : s0 ∈ c.states) (hid : s.stateId = s0.stateId) :
    s' ∈ (c.set s).states ↔ s' = s ∨ s' ∈ c.states ∧ s'.stateId ≠ s.stateId := mem_replace hs0 hid

theorem Chat.mem_of_find? (h : c.find? i = some s) : s ∈ c.states ∧ s.stateId = i := by
  have hid := find?_some h
  exact ⟨mem_of_find?_eq_some h, of_decide_eq_true hid⟩

section

variable (hids : (c.views.map View.stateId).Nodup) (hs : s ∈ c.states)
include hids hs

theorem Chat.unique {s' : MessageState} (hs' : s' ∈ c.states) (heq : s.stateId = s'.stateId) :
    s = s' := by
  refine inj_on_of_nodup_map (f := MessageState.stateId) ?_ hs hs' heq
  rwa [Chat.views, map_map] at hids

theorem Chat.find?_eq : c.find? s.stateId = some s := by
  cases hfind : c.find? s.stateId with
  | none => exact absurd (decide_eq_true rfl) (find?_eq_none.mp hfind s hs)
  | some s' =>
    obtain ⟨hs', hid⟩ := Chat.mem_of_find? hfind
    rw [Chat.unique hids hs hs' hid.symm]

end

theorem view_event {p : OutboundProgress} (hp : s.progress = .outbound p) :
    s.view.event = .outbound p.message := congrArg Progress.event hp

/-! ## Updates of a state -/

/-- A state changes, but it is still that of its message. -/
theorem Works.set (h : Works t c) (hs0 : s0 ∈ c.states) (hid : s.stateId = s0.stateId)
    (hflag : s.saveChangesFinish = s0.saveChangesFinish)
    (hevent : ∃ i, EventOk c.x t s.progress.event i)
    (hrank : rank s.progress.event = rank s0.progress.event)
    (hquery : s.view.netQuery = true → rank s.progress.event ≤ bound c.records c.synced) :
    Works t (c.set s) :=
  { h with
    seen := by
      rw [Chat.views_set]
      exact h.seen.update (Chat.mem_views hs0) hid hevent
    saving := by
      rw [Chat.views_set]
      exact h.saving.update h.seen (Chat.mem_views hs0) hid hrank hflag
    sending := by
      rw [Chat.views_set]
      exact h.sending.update (Chat.mem_views hs0) hid hrank hquery }

/-- A state changes, but not its log event. -/
theorem Works.logged_set (h : Works t c) (hl : Logged c) (hs0 : s0 ∈ c.states)
    (hid : s.stateId = s0.stateId) (hentry : s.view.entry = s0.view.entry) : Logged (c.set s) := by
  show (c.set s).views.map View.entry = Journal.live c.records
  rw [Chat.views_set, ← hl, update, map_map]
  refine map_congr_left fun v hv => ?_
  simp only [Function.comp_apply]
  split
  · rename_i heq
    obtain rfl := h.seen.unique hv (Chat.mem_views hs0) (Eq.trans heq hid)
    exact hentry
  · rfl

/-- Nothing changes that matters. -/
theorem Works.views_set_same (h : Works t c) (hs0 : s0 ∈ c.states) (hview : s.view = s0.view) :
    (c.set s).views = c.views := by
  rw [Chat.views_set, hview]
  exact h.seen.update_self (Chat.mem_views hs0)

theorem Works.set_same (h : Works t c) (hs0 : s0 ∈ c.states) (hview : s.view = s0.view) :
    Works t (c.set s) := by
  have hviews := h.views_set_same hs0 hview
  exact
    { h with
      seen := hviews ▸ h.seen
      saving := hviews ▸ h.saving
      sending := hviews ▸ h.sending }

/-! ## The log event of a state -/

/-- The log event of a state lives. -/
theorem Logged.mem (hl : Logged c) (hs : s ∈ c.states) :
    (s.logEventId, s.progress.event) ∈ Journal.live c.records := by
  rw [← hl]
  exact mem_map_of_mem (f := View.entry) (Chat.mem_views hs)

/-- No message is being added. -/
abbrev Settled (t : List Entry) (c : Chat) : Prop := Works t c ∧ Logged c

/-- A message is marked or deleted. It keeps its numbers. -/
structure Edits (x : Int) (p p' : OutboundProgress) : Prop where
  seqNo : p'.message.seqNo = p.message.seqNo
  randomId : p'.message.randomId = p.message.randomId
  encrypted : p'.message.encryptedMessage = p.message.encryptedMessage ∨
    p'.message.encryptedMessage = createEncryptedMessage x p.message.seqNo.myInSeqNo
      p.message.seqNo.myOutSeqNo none
  query : p'.netQuery = true → p.netQuery = true

section

variable (h : Works t c)
include h

/-- A state is found by the id of its log event. -/
theorem Works.logEventId_iff (hl : Logged c) (hs : s ∈ c.states) {v : View} (hv : v ∈ c.views) :
    v.stateId = s.stateId ↔ v.logEventId = s.logEventId := by
  have hids : (c.views.map View.logEventId).Nodup := by
    have horder := h.log.live_all.order
    rw [← hl] at horder
    exact pairwise_map.mpr ((pairwise_map.mp horder).imp fun hvw => ne_of_lt hvw.1)
  constructor
  · intro heq
    rw [h.seen.unique hv (Chat.mem_views hs) heq]
    rfl
  · intro heq
    rw [inj_on_of_nodup_map hids hv (Chat.mem_views hs) heq]
    rfl

theorem Works.sending_write (r : Record LogEvent SeqNoState) :
    Sending c.x t c.views c.nextStateId (bound (c.records ++ [r])) c.synced c.syncing c.mailbox
      c.network :=
  h.sending.bounds (fun _ hk => bound_concat hk) h.synced fun p hp => (h.syncing p hp).1

theorem Works.syncing_write (r : Record LogEvent SeqNoState) :
    ∀ p ∈ c.syncing, p.1 ≤ (c.records ++ [r]).length ∧ finishes p.2 = [] := by
  intro p hp
  rw [length_append]
  exact ⟨Nat.le_add_right_of_le (h.syncing p hp).1, (h.syncing p hp).2⟩

theorem Works.synced_write (r : Record LogEvent SeqNoState) :
    c.synced ≤ (c.records ++ [r]).length := by
  rw [length_append]
  exact Nat.le_add_right_of_le h.synced

/-- A record that says nothing about the counters. -/
theorem Works.write (hlog : Log c.x t (c.records ++ [r]))
    (hnext : Chat.nextId (c.records ++ [r]) = Chat.nextId c.records)
    (hsaved : savedState (c.records ++ [r]) = savedState c.records) : Works t (c.write r) :=
  { h with
    log := hlog
    nextLogEventId := h.nextLogEventId.trans hnext.symm
    synced := h.synced_write r
    syncing := h.syncing_write r
    saving := by
      show Saving _ _ _ _ (savedState (c.records ++ [r])).messageId _
      rw [hsaved]
      exact h.saving
    sending := h.sending_write r }

/-- **The log event of a state is erased with it**, once the state was told that it is saved. -/
theorem Works.erase (hl : Logged c) (hs : s ∈ c.states) (hflag : s.saveChangesFinish = true) :
    Settled t ((c.write (.erase s.logEventId)).eraseState s.stateId) := by
  have hsaved : ∀ p ∈ Journal.live c.records, p.1 = s.logEventId →
      rank p.2 ≤ (savedState c.records).messageId := by
    intro p hp hid
    rw [h.log.unique hp (hl.mem hs) hid]
    exact h.saving.finished s.view (Chat.mem_views hs) hflag
  have hw : Works t (c.write (.erase s.logEventId)) :=
    h.write (h.log.erase hsaved) (nextId_concat _) Journal.saved_concat
  constructor
  · exact
      { hw with
        seen := by
          rw [Chat.views_eraseState]
          exact hw.seen.erase _
        saving := by
          rw [Chat.views_eraseState]
          exact hw.saving.erase hw.seen (Chat.mem_views (c := c.write _) hs) hflag
        sending := by
          rw [Chat.views_eraseState]
          exact hw.sending.erase _ }
  · show ((c.write (.erase s.logEventId)).eraseState s.stateId).views.map View.entry = _
    rw [Chat.views_eraseState]
    show (c.views.filter _).map View.entry = Journal.live (c.records ++ [.erase s.logEventId])
    rw [Journal.live_concat, ← hl]
    show _ = (c.views.map View.entry).filter _
    rw [filter_map]
    congr 1
    refine filter_congr fun v hv => ?_
    exact decide_eq_decide.mpr (not_congr (h.logEventId_iff hl hs hv))

/-- The log event of a state is rewritten with it. -/
theorem Works.rewrite (hl : Logged c) (hs0 : s0 ∈ c.states) (hid : s.stateId = s0.stateId)
    (hlogId : s.logEventId = s0.logEventId) (hflag : s.saveChangesFinish = s0.saveChangesFinish)
    (hevent : ∃ i, EventOk c.x t s.progress.event i)
    (hrank : rank s.progress.event = rank s0.progress.event)
    (hrandom : randomId? s.progress.event = randomId? s0.progress.event)
    (hquery : s.view.netQuery = true → rank s.progress.event ≤ bound c.records c.synced) :
    Settled t ((c.set s).write (.rewrite s.logEventId s.progress.event)) := by
  obtain ⟨i, hi⟩ := hevent
  constructor
  · refine (h.set hs0 hid hflag ⟨i, hi⟩ hrank hquery).write ?_ (nextId_concat _)
      Journal.saved_concat
    exact h.log.rewrite (hlogId ▸ hl.mem hs0) hi hrank hrandom
  show (c.set s).views.map View.entry = Journal.live (c.records ++ [_])
  rw [Chat.views_set, Journal.live_concat, ← hl]
  show (c.views.map _).map View.entry = (c.views.map View.entry).map _
  rw [map_map, map_map]
  refine map_congr_left fun v hv => ?_
  have hiff := h.logEventId_iff hl hs0 hv
  rw [← hid, ← hlogId] at hiff
  simp only [Function.comp_apply]
  by_cases heq : v.stateId = s.stateId
  · rw [if_pos (show v.stateId = s.view.stateId from heq),
      if_pos (show v.entry.1 = s.logEventId from hiff.mp heq)]
    rfl
  · rw [if_neg (show ¬v.stateId = s.view.stateId from heq),
      if_neg (show ¬v.entry.1 = s.logEventId from fun h => heq (hiff.mpr h))]

/-- A message is marked or deleted, on the disk too. -/
theorem Works.edit (hl : Logged c) (hs : s ∈ c.states) {p : OutboundProgress}
    (p' : OutboundProgress) (hp : s.progress = .outbound p) (hedit : Edits c.x p p') :
    Settled t ((c.set { s with progress := .outbound p' }).write
      (.rewrite s.logEventId (.outbound p'.message))) := by
  obtain ⟨i, hi⟩ := h.seen.event s.view (Chat.mem_views hs)
  have hview := view_event hp
  rw [hview] at hi
  have hrank : rank (.outbound p'.message) = rank (.outbound p.message) :=
    congrArg EventSeqNo.messageId hedit.seqNo
  have hsent : p'.netQuery = true → rank (.outbound p'.message) ≤ bound c.records c.synced := by
    intro hq
    have hqueried := h.sending.queried s.view (Chat.mem_views hs)
    rw [hview] at hqueried
    rw [hrank]
    refine hqueried ?_
    rw [MessageState.view, hp]
    exact hedit.query hq
  refine h.rewrite (s := { s with progress := .outbound p' }) hl hs rfl rfl rfl
    ⟨i, hi.edit hedit.seqNo hedit.randomId hedit.encrypted⟩ ?_ ?_ hsent
  · exact hrank.trans (congrArg rank hview).symm
  · exact (congrArg some hedit.randomId).trans (congrArg randomId? hview).symm

end

/-! ## Acknowledgements -/

/-- What counting and acknowledgements leave as it is. -/
structure CountFrame (c c' : Chat) : Prop where
  x : c'.x = c.x
  nextStateId : c'.nextStateId = c.nextStateId
  binlogReplayFinishFlag : c'.binlogReplayFinishFlag = c.binlogReplayFinishFlag
  lastBinlogMessageId : c'.lastBinlogMessageId = c.lastBinlogMessageId
  synced : c'.synced = c.synced
  mailbox : c'.mailbox = c.mailbox
  network : c'.network = c.network

theorem CountFrame.refl (c : Chat) : CountFrame c c := ⟨rfl, rfl, rfl, rfl, rfl, rfl, rfl⟩

/-- What acknowledgements leave as it is. -/
structure AckFrame (c c' : Chat) : Prop extends CountFrame c c' where
  seqNoState : c'.seqNoState = c.seqNoState
  seqNoStateChanged : c'.seqNoStateChanged = c.seqNoStateChanged
  changesProcessor : c'.changesProcessor = c.changesProcessor
  logged : Logged c → Logged c'
  /-- Without a state that is saved, nothing is written. -/
  quiet : Quiet c → c'.views = c.views ∧ c'.records = c.records

theorem AckFrame.refl (c : Chat) : AckFrame c c :=
  ⟨.refl c, rfl, rfl, rfl, id, fun _ => ⟨rfl, rfl⟩⟩

theorem Quiet.of_views {c' : Chat} (h : Quiet c) (heq : c'.views = c.views) : Quiet c' := by
  rw [Quiet, heq]
  exact h

theorem AckFrame.trans {c' c'' : Chat} (h : AckFrame c c') (h' : AckFrame c' c'') :
    AckFrame c c'' where
  x := h'.x.trans h.x
  nextStateId := h'.nextStateId.trans h.nextStateId
  binlogReplayFinishFlag := h'.binlogReplayFinishFlag.trans h.binlogReplayFinishFlag
  lastBinlogMessageId := h'.lastBinlogMessageId.trans h.lastBinlogMessageId
  synced := h'.synced.trans h.synced
  mailbox := h'.mailbox.trans h.mailbox
  network := h'.network.trans h.network
  seqNoState := h'.seqNoState.trans h.seqNoState
  seqNoStateChanged := h'.seqNoStateChanged.trans h.seqNoStateChanged
  changesProcessor := h'.changesProcessor.trans h.changesProcessor
  logged := h'.logged ∘ h.logged
  quiet := by
    intro hq
    obtain ⟨hviews, hrecords⟩ := h.quiet hq
    obtain ⟨hviews', hrecords'⟩ := h'.quiet (hq.of_views hviews)
    exact ⟨hviews'.trans hviews, hrecords'.trans hrecords⟩

/-- A state may go, and the others stay. -/
abbrev Acks (t : List Entry) (c : Chat) (s : MessageState) (c' : Chat) : Prop :=
  Works t c' ∧ AckFrame c c' ∧ ∀ s' ∈ c.states, s'.stateId ≠ s.stateId → s' ∈ c'.states

/-- What `loop` does with a state. -/
theorem Works.loop (h : Works t c) (hs : s ∈ c.states)
    (hmode : s.saveChangesFinish = true → Logged c) : Acks t c s (c.loop s) := by
  have hquiet : s.saveChangesFinish = true → ¬Quiet c := fun hflag hq =>
    Bool.false_ne_true ((hq s.view (Chat.mem_views hs)).symm.trans hflag)
  have hsame : Acks t c s c := ⟨h, .refl c, fun _ hs' _ => hs'⟩
  have herase : s.saveChangesFinish = true →
      Acks t c s ((c.write (.erase s.logEventId)).eraseState s.stateId) := by
    intro hflag
    obtain ⟨hw, hl⟩ := h.erase (hmode hflag) hs hflag
    refine ⟨hw, ⟨⟨rfl, rfl, rfl, rfl, rfl, rfl, rfl⟩, rfl, rfl, rfl, fun _ => hl,
      fun hq => absurd hq (hquiet hflag)⟩, fun s' hs' hne => ?_⟩
    exact mem_filter.mpr ⟨hs', decide_eq_true hne⟩
  rw [Chat.loop, if_neg (by simp [h.closeFlag])]
  split
  · split
    · exact herase (by simp_all)
    · exact hsame
  rename_i p hp
  split
  · exact herase (by simp_all)
  split
  · have hflag : s.saveChangesFinish = true := by simp_all
    obtain ⟨hw, hl⟩ := h.edit (hmode hflag) hs { p with message.isSent := true } hp
      ⟨rfl, rfl, .inl rfl, id⟩
    refine ⟨hw, ⟨⟨rfl, rfl, rfl, rfl, rfl, rfl, rfl⟩, rfl, rfl, rfl, fun _ => hl,
      fun hq => absurd hq (hquiet hflag)⟩, fun s' hs' hne => ?_⟩
    exact (Chat.mem_set (s := { s with progress := .outbound _ }) hs rfl).mpr (.inr ⟨hs', hne⟩)
  · exact hsame

/-- A state is set that looks the same, and then worked off. -/
theorem Works.set_loop (h : Works t c) (hs0 : s0 ∈ c.states) (hview : s.view = s0.view)
    (hmode : Logged c ∨ Quiet c) : Acks t c s ((c.set s).loop s) := by
  have hid : s.stateId = s0.stateId := congrArg View.stateId hview
  have hflag : s.saveChangesFinish = s0.saveChangesFinish := congrArg View.saveChangesFinish hview
  have hviews := h.views_set_same hs0 hview
  have hlogged : Logged c → Logged (c.set s) := fun hl =>
    (congrArg (map View.entry) hviews).trans hl
  have hframe : AckFrame c (c.set s) :=
    ⟨⟨rfl, rfl, rfl, rfl, rfl, rfl, rfl⟩, rfl, rfl, rfl, hlogged, fun _ => ⟨hviews, rfl⟩⟩
  obtain ⟨hw, hf, hkeep⟩ := (h.set_same hs0 hview).loop ((Chat.mem_set hs0 hid).mpr (.inl rfl))
    (fun htrue => hlogged (hmode.resolve_right fun hq => Bool.false_ne_true
      ((hq s0.view (Chat.mem_views hs0)).symm.trans (hflag.symm.trans htrue))))
  exact ⟨hw, hframe.trans hf, fun s' hs' hne =>
    hkeep s' ((Chat.mem_set hs0 hid).mpr (.inr ⟨hs', hne⟩)) hne⟩

theorem Works.onOutboundAck (h : Works t c) (hs : s ∈ c.states) (hmode : Logged c ∨ Quiet c) :
    Acks t c s (c.onOutboundAck s) := by
  rw [Chat.onOutboundAck]
  split
  · rename_i p hp
    rw [if_neg (by simp [h.closeFlag])]
    refine h.set_loop (s := { s with progress := .outbound _ }) hs ?_ hmode
    rw [MessageState.view, MessageState.view, hp]
    rfl
  · exact ⟨h, .refl c, fun _ hs' _ => hs'⟩

/-- The states that are acknowledged are worked off one by one. The others stay. -/
theorem Works.acks {states : List MessageState} (h : Works t c)
    (hstates : ∀ s ∈ states, s ∈ c.states)
    (hids : states.Pairwise fun s s' => s.stateId ≠ s'.stateId) (hmode : Logged c ∨ Quiet c) :
    Works t (states.foldl Chat.onOutboundAck c) ∧ AckFrame c (states.foldl Chat.onOutboundAck c) ∧
      ∀ s' ∈ c.states, (∀ s ∈ states, s'.stateId ≠ s.stateId) →
        s' ∈ (states.foldl Chat.onOutboundAck c).states := by
  induction states generalizing c with
  | nil => exact ⟨h, .refl c, fun _ hs' _ => hs'⟩
  | cons s states ih =>
    obtain ⟨hw, hf, hkeep⟩ := h.onOutboundAck (hstates s mem_cons_self) hmode
    obtain ⟨hne, hids⟩ := pairwise_cons.mp hids
    obtain ⟨hw', hf', hkeep'⟩ := ih hw
      (fun s' hs' => hkeep s' (hstates s' (mem_cons_of_mem _ hs')) (hne s' hs').symm) hids
      (hmode.imp hf.logged fun hq => hq.of_views (hf.quiet hq).1)
    refine ⟨hw', hf.trans hf', fun s' hs' hall => ?_⟩
    exact hkeep' s' (hkeep s' hs' (hall s mem_cons_self)) fun s'' hs'' =>
      hall s'' (mem_cons_of_mem _ hs'')

theorem Works.onHisInSeqNoUpdated (h : Works t c) (hmode : Logged c ∨ Quiet c) :
    Works t c.onHisInSeqNoUpdated ∧ AckFrame c c.onHisInSeqNoUpdated ∧
      ∀ s ∈ c.states, Chat.isAcked c.seqNoState.hisInSeqNo s = false →
        s ∈ c.onHisInSeqNoUpdated.states := by
  have hpair : c.states.Pairwise fun s s' => s.stateId ≠ s'.stateId := by
    have := h.seen.ids
    rw [Chat.views, map_map] at this
    exact pairwise_map.mp this
  obtain ⟨hw, hf, hkeep⟩ := h.acks (fun s hs => (mem_filter.mp hs).1)
    (hpair.sublist filter_sublist) hmode
  refine ⟨hw, hf, fun s hs hnot => hkeep s hs fun s' hs' heq => ?_⟩
  obtain ⟨hs', hacked⟩ := mem_filter.mp hs'
  rw [Chat.unique h.seen.ids hs hs' heq, hacked] at hnot
  cases hnot

/-- An acknowledgement does not look at what has changed. -/
theorem Chat.onOutboundAck_changed (c : Chat) (s : MessageState) (b : Bool) :
    { c with seqNoStateChanged := b }.onOutboundAck s =
      { c.onOutboundAck s with seqNoStateChanged := b } := by
  have hloop : ∀ (c : Chat) (s : MessageState), { c with seqNoStateChanged := b }.loop s =
      { c.loop s with seqNoStateChanged := b } := by
    intro c s
    rw [Chat.loop, Chat.loop]
    split
    · rfl
    split
    · split <;> rfl
    · split
      · rfl
      · split <;> rfl
  rw [onOutboundAck, onOutboundAck]
  split
  · split
    · rfl
    · exact hloop (c.set _) _
  · rfl

theorem Chat.onHisInSeqNoUpdated_changed (c : Chat) (b : Bool) :
    { c with seqNoStateChanged := b }.onHisInSeqNoUpdated =
      { c.onHisInSeqNoUpdated with seqNoStateChanged := b } := by
  have hfold : ∀ (states : List MessageState) c,
      states.foldl onOutboundAck { c with seqNoStateChanged := b } =
        { states.foldl onOutboundAck c with seqNoStateChanged := b } := by
    intro states
    induction states with
    | nil => exact fun _ => rfl
    | cons s states ih =>
      intro c
      rw [foldl_cons, foldl_cons, onOutboundAck_changed, ih]
  exact hfold _ c

theorem Chat.updateSeqNoState_eq (c : Chat) (e : EventSeqNo) :
    c.updateSeqNoState e =
      if c.seqNoState.Knows e then c
      else if c.seqNoState.hisInSeqNo ≠ (c.seqNoState.updateSeqNoState e).hisInSeqNo then
        { c with
          seqNoState := c.seqNoState.updateSeqNoState e
          seqNoStateChanged := true }.onHisInSeqNoUpdated
      else
        { c with
          seqNoState := c.seqNoState.updateSeqNoState e
          seqNoStateChanged := true } := by
  rw [updateSeqNoState]
  split
  · rfl
  dsimp only
  split
  · exact (onHisInSeqNoUpdated_changed
      { c with seqNoState := c.seqNoState.updateSeqNoState e } true).symm
  · rfl

/-! ## The next message -/

/-- The counters go on to the message `j`. -/
theorem Works.count (h : Works t c) {s : SeqNoState} (hi : StateAt t c.seqNoState i)
    (hj : StateAt t s j) (hle : i ≤ j) :
    Works t { c with seqNoState := s, seqNoStateChanged := true } :=
  { h with
    current := ⟨j, hj⟩
    saving := h.saving.count (by rw [hi.messageId_eq, hj.messageId_eq]; omega) }

theorem Works.updateSeqNoState (h : Works t c) {e : EventSeqNo} (hi : StateAt t c.seqNoState i)
    (he : EventAt t e own j) (hmode : Logged c ∨ Quiet c ∨ e.hisInSeqNo = c.seqNoState.hisInSeqNo)
    {c' : Chat} (hc' : c.updateSeqNoState e = c') :
    Works t c' ∧ StateAt t c'.seqNoState (max i j) ∧ CountFrame c c' ∧
      c'.changesProcessor = c.changesProcessor ∧ (Logged c → Logged c') ∧
      (∀ s ∈ c.states, (∀ k, Chat.isAcked k s = false) → s ∈ c'.states) ∧
      (Quiet c ∨ e.hisInSeqNo = c.seqNoState.hisInSeqNo →
        c'.views = c.views ∧ c'.records = c.records) := by
  subst hc'
  have hstays : ∀ s ∈ c.states, (∀ k, Chat.isAcked k s = false) → s ∈ c.states := fun _ hs _ => hs
  obtain ⟨hknows, hnew⟩ := h.log.timeline.update hi he
  rw [Chat.updateSeqNoState_eq]
  rcases lt_or_ge i j with hlt | hge
  · obtain ⟨hnot, hj⟩ := hnew hlt
    have hw := h.count hi hj (le_of_lt hlt)
    have hhis : (c.seqNoState.updateSeqNoState e).hisInSeqNo = e.hisInSeqNo := by
      obtain ⟨own', hown'⟩ := hj.entry
      rw [he.entry] at hown'
      exact (congrArg Entry.hisInSeqNo (Option.some.inj hown')).symm
    rw [if_neg hnot, max_eq_right (le_of_lt hlt), hhis]
    by_cases hsame : e.hisInSeqNo = c.seqNoState.hisInSeqNo
    · rw [if_neg (fun hne => hne hsame.symm)]
      exact ⟨hw, hj, { CountFrame.refl c with }, rfl, id, hstays, fun _ => ⟨rfl, rfl⟩⟩
    rw [if_pos (fun heq => hsame heq.symm)]
    obtain ⟨hw', hf, hkeep⟩ := hw.onHisInSeqNoUpdated (hmode.imp id fun h => h.resolve_right hsame)
    exact ⟨hw', hf.seqNoState ▸ hj, { hf.toCountFrame with }, hf.changesProcessor, hf.logged,
      fun s hs hnot => hkeep s hs (hnot _), fun h => hf.quiet (h.resolve_right hsame)⟩
  · rw [if_pos (hknows hge), max_eq_left hge]
    exact ⟨h, hi, .refl c, rfl, id, hstays, fun _ => ⟨rfl, rfl⟩⟩

/-- A state is added for a message of the timeline. -/
def Chat.addState (c : Chat) (s : MessageState) : Chat :=
  { c with states := c.states ++ [s], nextStateId := c.nextStateId + 1 }

theorem Chat.views_addState (c : Chat) (s : MessageState) :
    (c.addState s).views = c.views ++ [s.view] := by
  rw [views, addState, map_append]
  rfl

theorem Works.addState (h : Works t c) (hid : s.stateId = c.nextStateId)
    (hflag : s.saveChangesFinish = false) (hquery : s.view.netQuery = false)
    (hevent : ∃ i, EventOk c.x t s.progress.event i) : Works t (c.addState s) :=
  { h with
    seen := by
      rw [Chat.views_addState]
      exact h.seen.add hid hevent
    saving := by
      rw [Chat.views_addState]
      exact h.saving.add h.seen hid hflag
    sending := by
      rw [Chat.views_addState]
      exact h.sending.add hid hquery }

/-- The states that wait for their changes to be saved. -/
def Chat.waiting (c : Chat) : List Nat :=
  c.changesProcessor.undelivered.map StateChange.saveChangesFinish ++ finishes c.mailbox

theorem Works.not_waiting (h : Works t c) : c.nextStateId ∉ c.waiting :=
  fun hmem => lt_irrefl _ (h.saving.lt h.seen hmem)

theorem Works.addChanges (h : Works t c) (hs : s ∈ c.states) (hflag : s.saveChangesFinish = false)
    (hnew : s.stateId ∉ c.waiting) (hle : rank s.progress.event ≤ c.seqNoState.messageId) :
    Works t (c.addChanges s.stateId).1 := by
  obtain ⟨hadd, hready⟩ := ChangesProcessor.undelivered_add h.ready
    (⟨if c.seqNoStateChanged then some c.seqNoState else none, s.stateId⟩ : StateChange)
  exact
    { h with
      ready := hready
      changes := by
        show ∀ change ∈ (c.changesProcessor.add _).1.undelivered, _
        rw [hadd]
        intro change hc s' hs'
        rcases mem_append.mp hc with hc | hc
        · exact h.changes change hc s' hs'
        obtain rfl := mem_singleton.mp hc
        split at hs'
        · cases hs'
          exact h.current
        · cases hs'
      saving := by
        show Saving _ _ _ (c.changesProcessor.add _).1.undelivered _ _
        rw [hadd]
        exact h.saving.change h.seen (Chat.mem_views hs) hflag hnew hle }

theorem Works.binlogAdd (h : Works t c) {event : LogEvent} (hevent : EventOk c.x t event i)
    (hnew : ∀ p ∈ Journal.live c.records, rank p.2 < rank event ∧
      ∀ r, randomId? p.2 = some r → randomId? event ≠ some r) :
    Works t (c.binlogAdd event) :=
  { h with
    log := by
      show Log c.x t (c.records ++ [.add c.nextLogEventId event])
      rw [h.nextLogEventId]
      exact h.log.add hevent hnew
    nextLogEventId := by
      show c.nextLogEventId + 1 = Chat.nextId (c.records ++ [.add c.nextLogEventId event])
      rw [nextId_concat, h.nextLogEventId]
      exact (max_eq_right (Nat.le_succ _)).symm
    synced := h.synced_write _
    syncing := h.syncing_write _
    saving := by
      show Saving _ _ _ _ (savedState (c.records ++ [_])).messageId _
      rw [savedState, Journal.saved_concat]
      exact h.saving
    sending := h.sending_write _ }

theorem Works.forceSync (h : Works t c) (hno : finishes callbacks = [])
    (hsafe : ∀ callback ∈ callbacks, Safe c.x t c.views c.nextStateId (reach c.records) callback) :
    Works t (c.forceSync callbacks) :=
  { h with
    syncing := forall_mem_append.mpr ⟨h.syncing, forall_mem_singleton.mpr ⟨le_rfl, hno⟩⟩
    sending := h.sending.wait fun callback hc => bound_length c.records ▸ hsafe callback hc }

theorem finishes_append (mailbox mailbox' : List Callback) :
    finishes (mailbox ++ mailbox') = finishes mailbox ++ finishes mailbox' :=
  filterMap_append

theorem Works.post (h : Works t c) (hno : finishes callbacks = [])
    (hsafe : ∀ callback ∈ callbacks,
      Safe c.x t c.views c.nextStateId (bound c.records c.synced) callback) :
    Works t (c.post callbacks) :=
  { h with
    saving := by
      show Saving _ _ _ _ _ (finishes (c.mailbox ++ callbacks))
      rw [finishes_append, hno, append_nil]
      exact h.saving
    sending := h.sending.post hsafe }

/-- The counters take the message of the state in, and the change is added. -/
theorem Works.take_in (h : Works t c) (hs : s ∈ c.states) (hnot : ∀ k, Chat.isAcked k s = false)
    (hflag : s.saveChangesFinish = false) (hnew : s.stateId ∉ c.waiting) {e : EventSeqNo}
    (hi : StateAt t c.seqNoState i) (he : EventAt t e own j) (hrank : rank s.progress.event = j)
    (hmode : Logged c ∨ Quiet c ∨ e.hisInSeqNo = c.seqNoState.hisInSeqNo)
    {c' : Chat} (hc' : ((c.updateSeqNoState e).addChanges s.stateId).1 = c') :
    Works t c' ∧ StateAt t c'.seqNoState (max i j) ∧ CountFrame c c' ∧ (Logged c → Logged c') ∧
      s ∈ c'.states ∧ (Quiet c ∨ e.hisInSeqNo = c.seqNoState.hisInSeqNo →
        c'.views = c.views ∧ c'.records = c.records) := by
  subst hc'
  obtain ⟨hw, hat, hf, hchanges, hlogged, hkeep, hsame⟩ := h.updateSeqNoState hi he hmode rfl
  refine ⟨hw.addChanges (hkeep s hs hnot) hflag ?_ ?_, hat, { hf with }, hlogged,
    hkeep s hs hnot, hsame⟩
  · rw [Chat.waiting, hchanges, hf.mailbox]
    exact hnew
  · rw [hrank, hat.messageId_eq]
    exact Int.ofNat_le.mpr (le_max_right i j)

end Tdlib.SecretChat.Outbound
