import Tdlib.SecretChat.OutboundLog

/-!
# What is on its way while a chat runs

Three things hold of the states of messages, and each of them looks at a few fields only.

* `Seen`: a state has an id of its own, and its log event is on the timeline.
* `Saving`: when the `save_changes_finish` of a message comes, the counters that were saved
  have reached the message. So its log event can be erased.
* `Sending`: when a message is handed to the network, what is safe on the disk has reached
  the message. So its number is not used again.

What a chat does to its states is to add one, to `update` one and to erase one.
-/

namespace Tdlib.SecretChat.Outbound

open Lib List StateChange

/-- What matters of a state. -/
structure View where
  stateId : Nat
  logEventId : Nat
  event : LogEvent
  saveChangesFinish : Bool
  netQuery : Bool

def MessageState.view (s : MessageState) : View :=
  { stateId := s.stateId
    logEventId := s.logEventId
    event := s.progress.event
    saveChangesFinish := s.saveChangesFinish
    netQuery := match s.progress with
      | .outbound p => p.netQuery
      | .inbound _ _ => false }

/-- The view takes the place of the one with its id. -/
def update (views : List View) (v : View) : List View :=
  views.map fun w => if w.stateId = v.stateId then v else w

variable {x : Int} {t : List Entry} {views : List View} {v v0 w : View} {nextStateId i : Nat}

/-- An element takes the place of the one with its id. -/
theorem mem_replace {α : Type} {id : α → Nat} {l : List α} {a b c : α} (hb : b ∈ l)
    (hid : id a = id b) :
    (c ∈ l.map fun d => if id d = id a then a else d) ↔ c = a ∨ c ∈ l ∧ id c ≠ id a := by
  constructor
  · intro hc
    obtain ⟨d, hd, rfl⟩ := mem_map.mp hc
    split
    · exact .inl rfl
    · exact .inr ⟨hd, ‹_›⟩
  · rintro (rfl | ⟨hc, hne⟩)
    · exact mem_map.mpr ⟨b, hb, if_pos hid.symm⟩
    · exact mem_map.mpr ⟨c, hc, if_neg hne⟩

theorem mem_update (hv : v0 ∈ views) (hid : v.stateId = v0.stateId) :
    w ∈ update views v ↔ w = v ∨ w ∈ views ∧ w.stateId ≠ v.stateId := mem_replace hv hid

theorem forall_update {P : View → Prop} (hself : P v) (h : ∀ w ∈ views, P w) :
    ∀ w ∈ update views v, P w := by
  intro w hw
  obtain ⟨u, hu, rfl⟩ := mem_map.mp hw
  split
  · exact hself
  · exact h u hu

theorem stateId_update (views : List View) (v : View) :
    (update views v).map View.stateId = views.map View.stateId := by
  rw [update, map_map]
  refine map_congr_left fun w _ => ?_
  simp only [Function.comp_apply]
  split
  · exact (‹w.stateId = v.stateId›).symm
  · rfl

/-! ## The states -/

/-- The states are those of messages of the history, with ids of their own. -/
structure Seen (x : Int) (t : List Entry) (views : List View) (nextStateId : Nat) : Prop where
  event : ∀ v ∈ views, ∃ i, EventOk x t v.event i
  ids : (views.map View.stateId).Nodup
  ids_lt : ∀ v ∈ views, v.stateId < nextStateId

theorem Seen.nil : Seen x t [] nextStateId where
  event := forall_mem_nil _
  ids := nodup_nil
  ids_lt := forall_mem_nil _

section

variable (h : Seen x t views nextStateId)
include h

theorem Seen.unique (hv : v ∈ views) (hw : w ∈ views) (heq : v.stateId = w.stateId) : v = w :=
  inj_on_of_nodup_map h.ids hv hw heq

theorem Seen.update_self (hv : v ∈ views) : update views v = views := by
  refine (map_congr_left fun w hw => ?_).trans (map_id views)
  split
  · exact h.unique hv hw (‹w.stateId = v.stateId›).symm
  · rfl

theorem Seen.update (hv : v0 ∈ views) (hid : v.stateId = v0.stateId)
    (hevent : ∃ i, EventOk x t v.event i) :
    Seen x t (update views v) nextStateId where
  event := forall_update hevent h.event
  ids := by
    rw [stateId_update]
    exact h.ids
  ids_lt := forall_update (hid ▸ h.ids_lt v0 hv) h.ids_lt

theorem Seen.erase (i : Nat) :
    Seen x t (views.filter fun v => v.stateId ≠ i) nextStateId where
  event := fun v hv => h.event v (mem_filter.mp hv).1
  ids := h.ids.sublist (filter_sublist.map _)
  ids_lt := fun v hv => h.ids_lt v (mem_filter.mp hv).1

theorem Seen.add (hid : v.stateId = nextStateId) (hevent : ∃ i, EventOk x t v.event i) :
    Seen x t (views ++ [v]) (nextStateId + 1) where
  event := forall_mem_append.mpr ⟨h.event, forall_mem_singleton.mpr hevent⟩
  ids := by
    rw [map_append, nodup_append']
    refine ⟨h.ids, nodup_singleton _, ?_⟩
    intro j hj hj'
    obtain ⟨w, hw, rfl⟩ := mem_map.mp hj
    rw [map_singleton, mem_singleton, hid] at hj'
    exact ne_of_lt (h.ids_lt w hw) hj'
  ids_lt := forall_mem_append.mpr
    ⟨fun w hw => Nat.lt_succ_of_lt (h.ids_lt w hw), forall_mem_singleton.mpr
      (hid ▸ Nat.lt_succ_self _)⟩

theorem Seen.extend (b : Entry) :
    Seen x (t ++ [b]) views nextStateId where
  event := by
    intro v hv
    obtain ⟨i, hi⟩ := h.event v hv
    exact ⟨i, hi.congr (getElem?_append_left hi.lt)⟩
  ids := h.ids
  ids_lt := h.ids_lt

end

/-! ## Saving -/

/-- How far the saved counters are after a change. -/
def rankAfterOne (k : Int) (change : StateChange) : Int :=
  match change.seqNoStateChange with
  | some s => s.messageId
  | none => k

/-- How far the saved counters are after the changes. -/
def rankAfter (k : Int) (changes : List StateChange) : Int := changes.foldl rankAfterOne k

/-- Each change reaches the message that waits for it. -/
def Covers (views : List View) (k : Int) : List StateChange → Prop
  | [] => True
  | change :: changes =>
    k ≤ rankAfterOne k change ∧
      (∀ v ∈ views, v.stateId = change.saveChangesFinish →
        rank v.event ≤ rankAfterOne k change) ∧
      Covers views (rankAfterOne k change) changes

section Changes

variable {k : Int} {changes changes' : List StateChange}

theorem rankAfter_append : rankAfter k (changes ++ changes') = rankAfter
    (rankAfter k changes) changes' :=
  foldl_append

theorem rankAfter_lastChange :
    rankAfter k changes =
      match Chat.lastChange changes with
      | some s => s.messageId
      | none => k := by
  rw [Chat.lastChange]
  induction changes using reverseRecOn with
  | nil => rfl
  | append_singleton changes change ih =>
    rw [rankAfter_append, foldl_append]
    show rankAfterOne _ change = match change.seqNoStateChange.or _ with
      | some s => s.messageId
      | none => k
    rw [rankAfterOne]
    cases change.seqNoStateChange with
    | some s => rfl
    | none => exact ih

theorem covers_append :
    Covers views k (changes ++ changes') ↔
      Covers views k changes ∧ Covers views (rankAfter k changes) changes' := by
  induction changes generalizing k with
  | nil => exact ⟨fun h => ⟨trivial, h⟩, fun h => h.2⟩
  | cons change changes ih =>
    show _ ∧ _ ∧ Covers views _ (changes ++ changes') ↔ (_ ∧ _ ∧ Covers views _ changes) ∧ _
    rw [ih, and_assoc, and_assoc]
    rfl

theorem Covers.le (h : Covers views k changes) : k ≤ rankAfter k changes := by
  induction changes generalizing k with
  | nil => exact le_rfl
  | cons change changes ih => exact h.1.trans (ih h.2.2)

/-- All the changes together reach each of the messages. -/
theorem Covers.reaches (h : Covers views k changes) {change : StateChange} (hc : change ∈ changes)
    (hv : v ∈ views) (hid : v.stateId = change.saveChangesFinish) :
    rank v.event ≤ rankAfter k changes := by
  induction changes generalizing k with
  | nil => cases hc
  | cons change' changes ih =>
    rcases mem_cons.mp hc with rfl | hc
    · exact (h.2.1 v hv hid).trans (Covers.le h.2.2)
    · exact ih h.2.2 hc

/-- What matters of the states is how far their messages are. -/
theorem Covers.mono {views' : List View} (h : Covers views k changes)
    (hviews : ∀ v' ∈ views', v'.stateId ∈ changes.map saveChangesFinish →
      ∃ v ∈ views, v.stateId = v'.stateId ∧ rank v.event = rank v'.event) :
    Covers views' k changes := by
  induction changes generalizing k with
  | nil => trivial
  | cons change changes ih =>
    refine ⟨h.1, ?_, ih h.2.2 fun v' hv' hmem => hviews v' hv' (mem_cons_of_mem _ hmem)⟩
    intro v' hv' hid
    obtain ⟨v, hv, hid', hrank⟩ := hviews v' hv' (by rw [hid]; exact mem_cons_self)
    rw [← hrank]
    exact h.2.1 v hv (hid'.trans hid)

end Changes

/-- The counters are at `current`, and those that were saved last at `saved`. The states
`finishing` are told next that they are saved. -/
structure Saving (views : List View) (current : Int) (changed : Bool) (changes : List StateChange)
    (saved : Int) (finishing : List Nat) : Prop where
  finished : ∀ v ∈ views, v.saveChangesFinish = true → rank v.event ≤ saved
  finishes : ∀ v ∈ views, v.stateId ∈ finishing → rank v.event ≤ saved
  covers : Covers views saved changes
  le_current : rankAfter saved changes ≤ current
  /-- Counters that have changed are part of the next change. -/
  unchanged : changed = false → rankAfter saved changes = current
  /-- A state is told once. -/
  nodup : (changes.map StateChange.saveChangesFinish ++ finishing).Nodup
  /-- A state is not erased before it is told. -/
  waits : ∀ i ∈ changes.map StateChange.saveChangesFinish ++ finishing,
    ∃ v ∈ views, v.stateId = i ∧ v.saveChangesFinish = false

section Saving

variable {current saved : Int} {changed : Bool} {changes : List StateChange} {finishing : List Nat}

/-- Nothing is on its way. -/
theorem Saving.nil : Saving [] saved false [] saved [] where
  finished := forall_mem_nil _
  finishes := forall_mem_nil _
  covers := trivial
  le_current := le_rfl
  unchanged := fun _ => rfl
  nodup := nodup_nil
  waits := forall_mem_nil _

section

variable (h : Saving views current changed changes saved finishing)
include h

/-- States may be added, changed and erased, as long as those that wait are kept and none of the
others is taken for one that waits. -/
theorem Saving.mono {views' : List View}
    (hold : ∀ v' ∈ views', (∃ v ∈ views, v.stateId = v'.stateId ∧ rank v.event = rank v'.event ∧
        v.saveChangesFinish = v'.saveChangesFinish) ∨
      v'.saveChangesFinish = false ∧
        v'.stateId ∉ changes.map saveChangesFinish ++ finishing)
    (hkeep : ∀ v ∈ views, v.saveChangesFinish = false →
      ∃ v' ∈ views', v'.stateId = v.stateId ∧ v'.saveChangesFinish = false) :
    Saving views' current changed changes saved finishing where
  finished := by
    intro v' hv' hflag
    rcases hold v' hv' with ⟨v, hv, -, hrank, heq⟩ | ⟨hfalse, -⟩
    · rw [← hrank]
      exact h.finished v hv (heq.trans hflag)
    · rw [hflag] at hfalse
      cases hfalse
  finishes := by
    intro v' hv' hmem
    rcases hold v' hv' with ⟨v, hv, hid, hrank, -⟩ | ⟨-, hnot⟩
    · rw [← hrank]
      exact h.finishes v hv (hid ▸ hmem)
    · exact absurd (mem_append_right _ hmem) hnot
  covers := by
    refine h.covers.mono fun v' hv' hmem => ?_
    rcases hold v' hv' with ⟨v, hv, hid, hrank, -⟩ | ⟨-, hnot⟩
    · exact ⟨v, hv, hid, hrank⟩
    · exact absurd (mem_append_left _ hmem) hnot
  le_current := h.le_current
  unchanged := h.unchanged
  nodup := h.nodup
  waits := by
    intro i hi
    obtain ⟨v, hv, hid, hflag⟩ := h.waits i hi
    obtain ⟨v', hv', hid', hflag'⟩ := hkeep v hv hflag
    exact ⟨v', hv', hid'.trans hid, hflag'⟩

section

variable (hseen : Seen x t views nextStateId)
include hseen

/-- A state changes, but is as far as it was. -/
theorem Saving.update (hv : v0 ∈ views) (hid : v.stateId = v0.stateId)
    (hrank : rank v.event = rank v0.event) (hflag : v.saveChangesFinish = v0.saveChangesFinish) :
    Saving (update views v) current changed changes saved finishing := by
  refine h.mono (forall_update (.inl ⟨v0, hv, hid.symm, hrank.symm, hflag.symm⟩)
    fun w hw => .inl ⟨w, hw, rfl, rfl, rfl⟩) fun w hw hwflag => ?_
  by_cases heq : w.stateId = v.stateId
  · obtain rfl := hseen.unique hw hv (heq.trans hid)
    exact ⟨v, (mem_update hv hid).mpr (.inl rfl), hid, hflag.trans hwflag⟩
  · exact ⟨w, (mem_update hv hid).mpr (.inr ⟨hw, heq⟩), rfl, hwflag⟩

/-- A state that was told is erased. -/
theorem Saving.erase (hv : v ∈ views) (hflag : v.saveChangesFinish = true) :
    Saving (views.filter fun w => w.stateId ≠ v.stateId) current changed changes saved
      finishing := by
  refine h.mono (fun w hw => .inl ⟨w, (mem_filter.mp hw).1, rfl, rfl, rfl⟩) ?_
  intro w hw hwflag
  refine ⟨w, mem_filter.mpr ⟨hw, ?_⟩, rfl, hwflag⟩
  rw [decide_eq_true_eq]
  rintro heq
  rw [hseen.unique hw hv heq, hflag] at hwflag
  cases hwflag

/-- The ids of states that wait have been used. -/
theorem Saving.lt (hi : i ∈ changes.map saveChangesFinish ++ finishing) :
    i < nextStateId := by
  obtain ⟨v, hv, rfl, -⟩ := h.waits i hi
  exact hseen.ids_lt v hv

theorem Saving.add (hid : v.stateId = nextStateId) (hflag : v.saveChangesFinish = false) :
    Saving (views ++ [v]) current changed changes saved finishing := by
  refine h.mono (forall_mem_append.mpr ⟨fun w hw => .inl ⟨w, hw, rfl, rfl, rfl⟩,
    forall_mem_singleton.mpr (.inr ⟨hflag, fun hmem => ?_⟩)⟩)
    fun w hw hwflag => ⟨w, mem_append_left _ hw, rfl, hwflag⟩
  exact lt_irrefl _ (hid ▸ h.lt hseen hmem)

end

end

/-- The next state is told. -/
theorem Saving.mark (h : Saving views current changed changes saved (i :: finishing))
    (hv : v0 ∈ views) (hid0 : v0.stateId = i)
    (hid : v.stateId = v0.stateId) (hrank : rank v.event = rank v0.event) :
    Saving (Outbound.update views v) current changed changes saved finishing where
  finished := forall_update (fun _ => hrank ▸ h.finishes v0 hv (hid0 ▸ mem_cons_self)) h.finished
  finishes := forall_update (fun _ => hrank ▸ h.finishes v0 hv (hid0 ▸ mem_cons_self))
    fun w hw hmem => h.finishes w hw (mem_cons_of_mem _ hmem)
  covers := h.covers.mono (forall_update (fun _ => ⟨v0, hv, hid.symm, hrank.symm⟩)
    fun w hw _ => ⟨w, hw, rfl, rfl⟩)
  le_current := h.le_current
  unchanged := h.unchanged
  nodup := (nodup_middle.mp h.nodup).tail
  waits := by
    intro j hj
    have hne : j ≠ i := fun heq => (nodup_cons.mp (nodup_middle.mp h.nodup)).1 (heq ▸ hj)
    have hj' : j ∈ changes.map saveChangesFinish ++ i :: finishing := by
      simp only [mem_append, mem_cons] at hj ⊢
      exact hj.imp id .inr
    obtain ⟨w, hw, rfl, hflag⟩ := h.waits j hj'
    refine ⟨w, (mem_update hv hid).mpr (.inr ⟨hw, ?_⟩), rfl, hflag⟩
    rwa [hid, hid0]

/-- A state that is not there any more need not be told. -/
theorem Saving.pop (h : Saving views current changed changes saved (i :: finishing)) :
    Saving views current changed changes saved finishing where
  finished := h.finished
  finishes := fun v hv hmem => h.finishes v hv (mem_cons_of_mem _ hmem)
  covers := h.covers
  le_current := h.le_current
  unchanged := h.unchanged
  nodup := (nodup_middle.mp h.nodup).tail
  waits := fun j hj => h.waits j (by
    simp only [mem_append, mem_cons] at hj ⊢
    exact hj.imp id .inr)

/-- The counters go on. -/
theorem Saving.count (h : Saving views current changed changes saved finishing) {current' : Int}
    (hle : current ≤ current') : Saving views current' true changes saved finishing where
  finished := h.finished
  finishes := h.finishes
  covers := h.covers
  le_current := h.le_current.trans hle
  unchanged := nofun
  nodup := h.nodup
  waits := h.waits

/-- A state that has not been told waits for a change. -/
theorem Saving.change {s : SeqNoState}
    (h : Saving views s.messageId changed changes saved finishing)
    (hseen : Seen x t views nextStateId) (hv : v ∈ views) (hflag : v.saveChangesFinish = false)
    (hnew : v.stateId ∉ changes.map saveChangesFinish ++ finishing)
    (hle : rank v.event ≤ s.messageId) :
    Saving views s.messageId false
      (changes ++ [⟨if changed then some s else none, v.stateId⟩]) saved finishing := by
  -- with the change, everything so far is saved
  have hafter : rankAfterOne (rankAfter saved changes) ⟨if changed then some s else none, v.stateId⟩
      = s.messageId := by
    cases hchanged : changed with
    | true => rfl
    | false => exact h.unchanged hchanged
  constructor
  · exact h.finished
  · exact h.finishes
  · refine covers_append.mpr ⟨h.covers, ?_, ?_, trivial⟩
    · rw [hafter]
      exact h.le_current
    · intro w hw hid
      rw [hafter, hseen.unique hw hv hid]
      exact hle
  · rw [rankAfter_append]
    exact le_of_eq hafter
  · intro _
    rw [rankAfter_append]
    exact hafter
  · rw [map_append, append_assoc]
    refine nodup_middle.mpr (nodup_cons.mpr ⟨hnew, h.nodup⟩)
  · intro i hi
    rw [map_append, append_assoc] at hi
    rcases mem_append.mp hi with hi | hi
    · exact h.waits i (mem_append_left _ hi)
    · rcases mem_cons.mp hi with rfl | hi
      · exact ⟨v, hv, rfl, hflag⟩
      · exact h.waits i (mem_append_right _ hi)

/-- The first changes are saved, and their states will be told. -/
theorem Saving.deliver {delivered : List StateChange}
    (h : Saving views current changed (delivered ++ changes) saved finishing) :
    Saving views current changed changes (rankAfter saved delivered)
      (finishing ++ delivered.map saveChangesFinish) := by
  have hcovers := covers_append.mp h.covers
  have hle := hcovers.1.le
  have hperm : (changes.map saveChangesFinish ++
      (finishing ++ delivered.map saveChangesFinish)).Perm
      ((delivered ++ changes).map saveChangesFinish ++ finishing) := by
    rw [map_append, append_assoc, ← append_assoc]
    exact perm_append_comm
  constructor
  · intro v hv hflag
    exact (h.finished v hv hflag).trans hle
  · intro v hv hmem
    rcases mem_append.mp hmem with hmem | hmem
    · exact (h.finishes v hv hmem).trans hle
    · obtain ⟨change, hchange, hid⟩ := mem_map.mp hmem
      exact hcovers.1.reaches hchange hv hid.symm
  · exact hcovers.2
  · exact rankAfter_append ▸ h.le_current
  · exact fun hchanged => rankAfter_append ▸ h.unchanged hchanged
  · exact hperm.nodup_iff.mpr h.nodup
  · exact fun i hi => h.waits i (hperm.mem_iff.mp hi)

end Saving

/-! ## Sending -/

/-- The query is that of a message that is at most at `bound`. -/
def NetOk (x : Int) (t : List Entry) (bound : Int) (q : Query) : Prop :=
  ∃ m content i, MessageAt x t m content i ∧ (i : Int) ≤ bound ∧ q = createNetQuery m

variable {bound bound' : Int}

theorem EventOk.netOk {m : OutboundSecretMessage} (h : EventOk x t (.outbound m) i)
    (hle : rank (.outbound m) ≤ bound) : NetOk x t bound (createNetQuery m) := by
  have hrank := h.rank_eq
  cases h with
  | outbound hm => exact ⟨m, _, i, hm, hrank ▸ hle, rfl⟩

theorem NetOk.mono {q : Query} (h : NetOk x t bound q) (hle : bound ≤ bound') :
    NetOk x t bound' q := by
  obtain ⟨m, content, i, hm, hi, hq⟩ := h
  exact ⟨m, content, i, hm, hi.trans hle, hq⟩

theorem NetOk.congr {q : Query} {t' : List Entry} (h : NetOk x t bound q)
    (heq : ∀ i < t.length, (i : Int) ≤ bound → t'[i]? = t[i]?) : NetOk x t' bound q := by
  obtain ⟨m, content, i, hm, hi, hq⟩ := h
  have hlt := (List.getElem?_eq_some_iff.mp hm.seqNo.entry).1
  exact ⟨m, content, i,
    ⟨⟨hm.seqNo.messageId_eq, (heq i hlt hi).trans hm.seqNo.entry⟩, hm.encrypted⟩, hi, hq⟩

/-- The callback may be worked off when everything up to `bound` is safe. -/
def Safe (x : Int) (t : List Entry) (views : List View) (nextStateId : Nat) (bound : Int) :
    Callback → Prop
  | .sendMessageStart i => i < nextStateId ∧ ∀ v ∈ views, v.stateId = i → rank v.event ≤ bound
  | .sendMessageError i _ => i < nextStateId ∧ ∀ v ∈ views, v.stateId = i → rank v.event ≤ bound
  | .resendQuery q => NetOk x t bound q
  | _ => True

theorem Safe.mono {callback : Callback} (hle : bound ≤ bound')
    (h : Safe x t views nextStateId bound callback) :
    Safe x t views nextStateId bound' callback := by
  cases callback with
  | sendMessageStart i | sendMessageError i b =>
    exact ⟨h.1, fun v hv hid => (h.2 v hv hid).trans hle⟩
  | resendQuery q => exact NetOk.mono h hle
  | sendMessageFinish | saveChangesStart | saveChangesFinish => trivial

/-- States may be added, changed and erased. -/
theorem Safe.of_views {callback : Callback} {views' : List View} {nextStateId' : Nat}
    (h : Safe x t views nextStateId bound callback) (hle : nextStateId ≤ nextStateId')
    (hold : ∀ v' ∈ views', v'.stateId < nextStateId →
      ∃ v ∈ views, v.stateId = v'.stateId ∧ rank v.event = rank v'.event) :
    Safe x t views' nextStateId' bound callback := by
  have hstate : ∀ j, (j < nextStateId ∧ ∀ v ∈ views, v.stateId = j → rank v.event ≤ bound) →
      j < nextStateId' ∧ ∀ v ∈ views', v.stateId = j → rank v.event ≤ bound := by
    intro j hj
    refine ⟨lt_of_lt_of_le hj.1 hle, fun v' hv' hid => ?_⟩
    obtain ⟨v, hv, hid', hrank⟩ := hold v' hv' (hid ▸ hj.1)
    rw [← hrank]
    exact hj.2 v hv (hid'.trans hid)
  cases callback with
  | sendMessageStart i | sendMessageError i b => exact hstate i h
  | resendQuery q => exact h
  | sendMessageFinish | saveChangesStart | saveChangesFinish => trivial

/-- The first `n` records reach `bound n`, and the first `synced` of them are safe. -/
structure Sending (x : Int) (t : List Entry) (views : List View) (nextStateId : Nat)
    (bound : Nat → Int) (synced : Nat) (syncing : List (Nat × List Callback))
    (mailbox : List Callback) (network : List Query) : Prop where
  mailbox : ∀ callback ∈ mailbox, Safe x t views nextStateId (bound synced) callback
  syncing : ∀ p ∈ syncing, ∀ callback ∈ p.2, Safe x t views nextStateId (bound p.1) callback
  queried : ∀ v ∈ views, v.netQuery = true → rank v.event ≤ bound synced
  network : ∀ q ∈ network, NetOk x t (bound synced) q

section Sending

variable {bound : Nat → Int} {synced : Nat} {syncing : List (Nat × List Callback)}
  {mailbox : List Callback} {network : List Query}

theorem Sending.nil (h : ∀ q ∈ network, NetOk x t (bound synced) q) :
    Sending x t [] nextStateId bound synced [] [] network where
  mailbox := forall_mem_nil _
  syncing := forall_mem_nil _
  queried := forall_mem_nil _
  network := h

section

variable (h : Sending x t views nextStateId bound synced syncing mailbox network)
include h

theorem Sending.mono {views' : List View} {nextStateId' : Nat} (hle : nextStateId ≤ nextStateId')
    (hold : ∀ v' ∈ views', v'.stateId < nextStateId →
      ∃ v ∈ views, v.stateId = v'.stateId ∧ rank v.event = rank v'.event)
    (hqueried : ∀ v' ∈ views', v'.netQuery = true → rank v'.event ≤ bound synced) :
    Sending x t views' nextStateId' bound synced syncing mailbox network where
  mailbox := fun callback hc => (h.mailbox callback hc).of_views hle hold
  syncing := fun p hp callback hc => (h.syncing p hp callback hc).of_views hle hold
  queried := hqueried
  network := h.network

theorem Sending.update (hv : v0 ∈ views) (hid : v.stateId = v0.stateId)
    (hrank : rank v.event = rank v0.event)
    (hqueried : v.netQuery = true → rank v.event ≤ bound synced) :
    Sending x t (update views v) nextStateId bound synced syncing mailbox network :=
  h.mono le_rfl (forall_update (fun _ => ⟨v0, hv, hid.symm, hrank.symm⟩) fun w hw _ =>
    ⟨w, hw, rfl, rfl⟩) (forall_update hqueried h.queried)

theorem Sending.erase (i : Nat) :
    Sending x t (views.filter fun v => v.stateId ≠ i) nextStateId bound synced syncing mailbox
      network := by
  refine h.mono le_rfl (fun w hw _ => ?_) fun w hw hq => ?_
  · exact ⟨w, (mem_filter.mp hw).1, rfl, rfl⟩
  · exact h.queried w (mem_filter.mp hw).1 hq

theorem Sending.add (hid : v.stateId = nextStateId) (hquery : v.netQuery = false) :
    Sending x t (views ++ [v]) (nextStateId + 1) bound synced syncing mailbox network :=
  h.mono (Nat.le_succ _)
    (forall_mem_append.mpr ⟨fun w hw _ => ⟨w, hw, rfl, rfl⟩,
      forall_mem_singleton.mpr fun hlt => absurd hid hlt.ne⟩)
    (forall_mem_append.mpr
      ⟨h.queried, forall_mem_singleton.mpr fun hq => by cases hquery.symm.trans hq⟩)

theorem Sending.extend (b : Entry) :
    Sending x (t ++ [b]) views nextStateId bound synced syncing mailbox network := by
  have hnet : ∀ {bound : Int} {q : Query}, NetOk x t bound q → NetOk x (t ++ [b]) bound q :=
    fun h => h.congr fun i hi _ => getElem?_append_left hi
  have hsafe : ∀ {bound : Int} {callback : Callback}, Safe x t views nextStateId bound callback →
      Safe x (t ++ [b]) views nextStateId bound callback := by
    intro bound callback h
    cases callback with
    | resendQuery q => exact hnet h
    | sendMessageStart | sendMessageError | sendMessageFinish | saveChangesStart
    | saveChangesFinish => exact h
  exact
    { mailbox := fun callback hc => hsafe (h.mailbox callback hc)
      syncing := fun p hp callback hc => hsafe (h.syncing p hp callback hc)
      queried := h.queried
      network := fun q hq => hnet (h.network q hq) }

/-- Writing changes nothing about what was written before. -/
theorem Sending.bounds {bound' : Nat → Int} {n : Nat} (heq : ∀ k ≤ n, bound' k = bound k)
    (hsynced : synced ≤ n) (hsyncing : ∀ p ∈ syncing, p.1 ≤ n) :
    Sending x t views nextStateId bound' synced syncing mailbox network where
  mailbox := fun callback hc => heq synced hsynced ▸ h.mailbox callback hc
  syncing := fun p hp callback hc => heq p.1 (hsyncing p hp) ▸ h.syncing p hp callback hc
  queried := fun v hv hq => heq synced hsynced ▸ h.queried v hv hq
  network := fun q hq => heq synced hsynced ▸ h.network q hq

end

variable {callbacks : List Callback}

/-- Callbacks come in that may be worked off. -/
theorem Sending.post (h : Sending x t views nextStateId bound synced syncing mailbox network)
    (hsafe : ∀ callback ∈ callbacks, Safe x t views nextStateId (bound synced) callback) :
    Sending x t views nextStateId bound synced syncing (mailbox ++ callbacks) network :=
  { h with
    mailbox := fun callback hc => (mem_append.mp hc).elim (h.mailbox callback)
      (hsafe callback) }

theorem Sending.pop {callback : Callback}
    (h : Sending x t views nextStateId bound synced syncing (callback :: mailbox) network) :
    Sending x t views nextStateId bound synced syncing mailbox network :=
  { h with mailbox := (forall_mem_cons.1 h.mailbox).2 }

section

variable (h : Sending x t views nextStateId bound synced syncing mailbox network)
include h

/-- Callbacks wait for records that reach far enough. -/
theorem Sending.wait {n : Nat}
    (hsafe : ∀ callback ∈ callbacks, Safe x t views nextStateId (bound n) callback) :
    Sending x t views nextStateId bound synced (syncing ++ [(n, callbacks)]) mailbox network := by
  refine { h with syncing := fun p hp callback hc => ?_ }
  rcases mem_append.mp hp with hp | hp
  · exact h.syncing p hp callback hc
  · obtain rfl := mem_singleton.mp hp
    exact hsafe callback hc

/-- A query is handed to the network. -/
theorem Sending.send {q : Query} (hq : NetOk x t (bound synced) q) :
    Sending x t views nextStateId bound synced syncing mailbox (network ++ [q]) :=
  { h with network := forall_mem_append.mpr ⟨h.network, forall_mem_singleton.mpr hq⟩ }

/-- More records are safe. -/
theorem Sending.sync (hmono : Monotone bound) {n : Nat} (hle : synced ≤ n) :
    Sending x t views nextStateId bound n (syncing.filter fun p => n < p.1)
      (mailbox ++ (syncing.filter fun p => p.1 ≤ n).flatMap Prod.snd) network where
  mailbox := by
    intro callback hc
    rcases mem_append.mp hc with hc | hc
    · exact (h.mailbox callback hc).mono (hmono hle)
    · obtain ⟨p, hp, hc⟩ := mem_flatMap.mp hc
      obtain ⟨hp, hle⟩ := mem_filter.mp hp
      exact (h.syncing p hp callback hc).mono (hmono (of_decide_eq_true hle))
  syncing := fun p hp callback hc => h.syncing p (mem_filter.mp hp).1 callback hc
  queried := fun v hv hq => (h.queried v hv hq).trans (hmono hle)
  network := fun q hq => (h.network q hq).mono (hmono hle)

end

end Sending

end Tdlib.SecretChat.Outbound
