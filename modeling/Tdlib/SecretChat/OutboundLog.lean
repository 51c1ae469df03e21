import Tdlib.SecretChat.Outbound

/-!
# What a crash leaves of the counters

Every message, of ours or of the other side, moves the counters on by one `message_id`.
The counters after each message are the **timeline** of a chat. A log event and a saved
state are both entries of it, so that an update by a log event goes to the later one of
two entries (`Timeline.update`), and a replay ends at the last entry that is found.

`Log` is what holds of the binlog at any time, and it holds of every beginning of the
binlog (`Log.take`). The entries behind the last one that is found are forgotten after a
crash, and the numbers of those messages are used again. A message that was handed to
the network is not among them, since its log event was safe by then.
-/

namespace Tdlib.SecretChat.Outbound

open Lib List

/-! ## The timeline -/

/-- The counters after a message. Of a message of ours, also the random id and the content. -/
structure Entry where
  myInSeqNo : Int
  myOutSeqNo : Int
  hisInSeqNo : Int
  own : Option (Int × Nat)
deriving DecidableEq

/-- The counters of a timeline never go back. -/
structure Timeline (t : List Entry) : Prop where
  first : t[0]? = some ⟨0, 0, 0, none⟩
  mono : ∀ {i j : Nat} {a b : Entry}, i ≤ j → t[i]? = some a → t[j]? = some b →
    a.myInSeqNo ≤ b.myInSeqNo ∧ a.myOutSeqNo ≤ b.myOutSeqNo ∧ a.hisInSeqNo ≤ b.hisInSeqNo
  /-- A message of ours has a number of its own. -/
  strict : ∀ {i j : Nat} {a b : Entry}, i < j → t[i]? = some a → t[j]? = some b →
    b.own ≠ none → a.myOutSeqNo < b.myOutSeqNo

theorem Timeline.init : Timeline [⟨0, 0, 0, none⟩] where
  first := rfl
  mono := by
    intro i j a b _ ha hb
    obtain ⟨-, rfl⟩ := List.getElem?_eq_some_iff.mp ha
    obtain ⟨-, rfl⟩ := List.getElem?_eq_some_iff.mp hb
    simp
  strict := by
    intro i j a b hij _ hb
    obtain ⟨hj, -⟩ := List.getElem?_eq_some_iff.mp hb
    simp only [length_singleton] at hj
    omega

variable {t : List Entry}

theorem Timeline.take (h : Timeline t) {n : Nat} (hn : 0 < n) :
    Timeline (t.take n) where
  first := by rw [getElem?_take, if_pos hn, h.first]
  mono := by
    intro i j a b hij ha hb
    rw [getElem?_take] at ha hb
    split at ha
    · split at hb
      · exact h.mono hij ha hb
      · cases hb
    · cases ha
  strict := by
    intro i j a b hij ha hb
    rw [getElem?_take] at ha hb
    split at ha
    · split at hb
      · exact h.strict hij ha hb
      · cases hb
    · cases ha

/-- A new entry, after the last one. -/
theorem Timeline.concat (h : Timeline t) {a b : Entry} (ha : t[t.length - 1]? = some a)
    (hmono : a.myInSeqNo ≤ b.myInSeqNo ∧ a.myOutSeqNo ≤ b.myOutSeqNo ∧ a.hisInSeqNo ≤ b.hisInSeqNo)
    (hstrict : b.own ≠ none → a.myOutSeqNo < b.myOutSeqNo) : Timeline (t ++ [b]) := by
  have hsplit : ∀ {i : Nat} {c : Entry}, (t ++ [b])[i]? = some c →
      t[i]? = some c ∧ i ≤ t.length - 1 ∨ i = t.length ∧ c = b := by
    intro i c hc
    rcases lt_trichotomy i t.length with hi | rfl | hi
    · rw [getElem?_append_left hi] at hc
      exact .inl ⟨hc, by omega⟩
    · rw [getElem?_concat_length] at hc
      cases hc
      exact .inr ⟨rfl, rfl⟩
    · rw [getElem?_eq_none (by simp; omega)] at hc
      cases hc
  have hlen : t.length ≠ 0 := by
    intro hzero
    rw [length_eq_zero_iff.mp hzero] at ha
    cases ha
  constructor
  · rw [getElem?_append_left (by omega)]
    exact h.first
  · intro i j c d hij hc hd
    rcases hsplit hc with ⟨hci, hi⟩ | ⟨rfl, rfl⟩ <;> rcases hsplit hd with ⟨hdj, hj⟩ | ⟨rfl, rfl⟩
    · exact h.mono hij hci hdj
    · obtain ⟨h1, h2, h3⟩ := h.mono hi hci ha
      omega
    · omega
    · simp
  · intro i j c d hij hc hd hown
    rcases hsplit hc with ⟨hci, hi⟩ | ⟨rfl, rfl⟩ <;> rcases hsplit hd with ⟨hdj, hj⟩ | ⟨rfl, rfl⟩
    · exact h.strict hij hci hdj hown
    · obtain ⟨-, h2, -⟩ := h.mono hi hci ha
      have := hstrict hown
      omega
    · omega
    · omega

/-! ## Entries -/

/-- The event is that of the message `i`. -/
structure EventAt (t : List Entry) (e : EventSeqNo) (own : Option (Int × Nat)) (i : Nat) :
    Prop where
  messageId_eq : e.messageId = i
  entry : t[i]? = some ⟨e.myInSeqNo, e.myOutSeqNo, e.hisInSeqNo, own⟩

/-- The counters are those after the message `i`. -/
structure StateAt (t : List Entry) (s : SeqNoState) (i : Nat) : Prop where
  messageId_eq : s.messageId = i
  entry : ∃ own, t[i]? = some ⟨s.myInSeqNo, s.myOutSeqNo, s.hisInSeqNo, own⟩

theorem StateAt.init (h : Timeline t) : StateAt t {} 0 := ⟨rfl, none, h.first⟩

/-- **An update goes to the later entry.** -/
theorem Timeline.update (h : Timeline t) {s : SeqNoState} {e : EventSeqNo}
    {own : Option (Int × Nat)} {i j : Nat} (hs : StateAt t s i) (he : EventAt t e own j) :
    (j ≤ i → s.Knows e) ∧ (i < j → ¬s.Knows e ∧ StateAt t (s.updateSeqNoState e) j) := by
  obtain ⟨r, hi⟩ := hs.entry
  have hj := he.entry
  have hmi := hs.messageId_eq
  have hmj := he.messageId_eq
  constructor
  · intro hle
    have hmono := h.mono hle hj hi
    exact ⟨by omega, hmono.1, hmono.2.1, hmono.2.2⟩
  intro hlt
  have hpos := (h.mono (Nat.zero_le j) h.first hj).1
  have hnew := SeqNoState.updateSeqNoState_new (s := s) (e := e) (by omega)
    (by dsimp only at hpos; omega)
  refine ⟨fun hk => ?_, ?_⟩
  · have := hk.1
    omega
  · rw [hnew]
    exact ⟨he.messageId_eq, own, hj⟩

/-- The message is the message `i`, as it was or deleted. -/
structure MessageAt (x : Int) (t : List Entry) (m : OutboundSecretMessage) (content i : Nat) :
    Prop where
  seqNo : EventAt t m.seqNo (some (m.randomId, content)) i
  encrypted : ∃ content', m.encryptedMessage =
    createEncryptedMessage x m.seqNo.myInSeqNo m.seqNo.myOutSeqNo content' ∧
      (content' = some content ∨ content' = none)

/-- The messages are one message, up to its deletion. -/
def SameMessage (q q' : Query) : Prop :=
  q.randomId = q'.randomId ∧ (q.encryptedMessage.content = q'.encryptedMessage.content ∨
    q.encryptedMessage.content = none ∨ q'.encryptedMessage.content = none)

/-- **A number belongs to one message.** -/
theorem Timeline.same {x : Int} (h : Timeline t) {m m' : OutboundSecretMessage}
    {content content' i j : Nat} (hm : MessageAt x t m content i)
    (hm' : MessageAt x t m' content' j)
    (heq : m.encryptedMessage.outSeqNo = m'.encryptedMessage.outSeqNo) :
    SameMessage (createNetQuery m) (createNetQuery m') := by
  obtain ⟨d, hd, hd'⟩ := hm.encrypted
  obtain ⟨d', he, he'⟩ := hm'.encrypted
  have hout : m.seqNo.myOutSeqNo = m'.seqNo.myOutSeqNo := by
    rw [hd, he] at heq
    simp only [createEncryptedMessage] at heq
    omega
  have hi := hm.seqNo.entry
  have hj := hm'.seqNo.entry
  have hij : i = j := by
    rcases lt_trichotomy i j with hlt | rfl | hlt
    · have := h.strict hlt hi hj (by simp)
      dsimp only at this
      omega
    · rfl
    · have := h.strict hlt hj hi (by simp)
      dsimp only at this
      omega
  subst hij
  rw [hi] at hj
  simp only [Option.some.injEq, Entry.mk.injEq, Prod.mk.injEq] at hj
  obtain ⟨-, -, -, hrandom, rfl⟩ := hj
  refine ⟨hrandom, ?_⟩
  simp only [createNetQuery, hd, he]
  rcases hd' with rfl | rfl
  · rcases he' with rfl | rfl
    · exact .inl rfl
    · exact .inr (.inr rfl)
  · exact .inr (.inl rfl)

/-! ## Log events -/

/-- The `message_id` of an event. -/
def rank : LogEvent → Int
  | .outbound m => m.seqNo.messageId
  | .inbound e => e.messageId
  | .close => 0

def randomId? : LogEvent → Option Int
  | .outbound m => some m.randomId
  | _ => none

/-- The event is that of the message `i`. -/
inductive EventOk (x : Int) (t : List Entry) : LogEvent → Nat → Prop
  | outbound {m : OutboundSecretMessage} {content i : Nat} (h : MessageAt x t m content i) :
      EventOk x t (.outbound m) i
  | inbound {e : EventSeqNo} {i : Nat} (h : EventAt t e none i) : EventOk x t (.inbound e) i

section

variable {x : Int} {t t' : List Entry} {event : LogEvent} {i : Nat}

theorem EventOk.rank_eq (h : EventOk x t event i) : rank event = i := by
  cases h with
  | outbound h => exact h.seqNo.messageId_eq
  | inbound h => exact h.messageId_eq

theorem EventOk.lt (h : EventOk x t event i) : i < t.length := by
  cases h with
  | outbound h => exact (List.getElem?_eq_some_iff.mp h.seqNo.entry).1
  | inbound h => exact (List.getElem?_eq_some_iff.mp h.entry).1

theorem EventOk.congr (h : EventOk x t event i) (heq : t'[i]? = t[i]?) : EventOk x t' event i := by
  cases h with
  | outbound h => exact .outbound ⟨⟨h.seqNo.messageId_eq, heq.trans h.seqNo.entry⟩, h.encrypted⟩
  | inbound h => exact .inbound ⟨h.messageId_eq, heq.trans h.entry⟩

/-- A message may be marked, and deleted. -/
theorem EventOk.edit {m m' : OutboundSecretMessage} (h : EventOk x t (.outbound m) i)
    (hseqNo : m'.seqNo = m.seqNo) (hrandom : m'.randomId = m.randomId)
    (hencrypted : m'.encryptedMessage = m.encryptedMessage ∨ m'.encryptedMessage =
      createEncryptedMessage x m.seqNo.myInSeqNo m.seqNo.myOutSeqNo none) :
    EventOk x t (.outbound m') i := by
  cases h with
  | outbound h =>
    have hentry := h.seqNo
    rw [← hseqNo, ← hrandom] at hentry
    refine .outbound ⟨hentry, ?_⟩
    rw [hseqNo]
    rcases hencrypted with heq | heq
    · rw [heq]
      exact h.encrypted
    · exact ⟨none, heq, .inr rfl⟩

theorem StateAt.lt {s : SeqNoState} (h : StateAt t s i) : i < t.length := by
  obtain ⟨own, hown⟩ := h.entry
  exact (List.getElem?_eq_some_iff.mp hown).1

theorem StateAt.congr {s : SeqNoState} (h : StateAt t s i) (heq : t'[i]? = t[i]?) :
    StateAt t' s i := by
  obtain ⟨own, hown⟩ := h.entry
  exact ⟨h.messageId_eq, own, heq.trans hown⟩

end

/-! ## The log -/

/-- How far a binlog reaches. -/
def reach (rs : List (Record LogEvent SeqNoState)) : Int :=
  Journal.reached rank SeqNoState.messageId {} rs

/-- The counters that were saved last. -/
def savedState (rs : List (Record LogEvent SeqNoState)) : SeqNoState := Journal.saved {} rs

/-- The event or the state is on the timeline. -/
def RecordOk (x : Int) (t : List Entry) : Record LogEvent SeqNoState → Prop
  | .add _ event => ∃ i, EventOk x t event i
  | .rewrite _ event => ∃ i, EventOk x t event i
  | .erase _ => True
  | .save s => ∃ i, StateAt t s i

/-- The events are found in the order of their messages, and can be told apart. -/
structure LiveOk (l : List (Nat × LogEvent)) : Prop where
  order : l.Pairwise fun p q => p.1 < q.1 ∧ rank p.2 < rank q.2 ∧
    ∀ r, randomId? p.2 = some r → randomId? q.2 ≠ some r
  /-- The id 0 stands for no log event. -/
  pos : ∀ p ∈ l, 0 < p.1

/-- A binlog of a chat with this timeline. -/
structure Log (x : Int) (t : List Entry) (rs : List (Record LogEvent SeqNoState)) : Prop where
  timeline : Timeline t
  /-- An event is erased only after its counters have been saved. -/
  steady : Journal.Steady rank SeqNoState.messageId {} rs
  records : ∀ r ∈ rs, RecordOk x t r
  /-- The events that are found after a crash can be replayed. -/
  live : ∀ k, LiveOk (Journal.live (rs.take k))

section

variable {x : Int} {t : List Entry} {rs : List (Record LogEvent SeqNoState)}

theorem Log.init : Log x [⟨0, 0, 0, none⟩] [] where
  timeline := .init
  steady := .nil
  records := by simp
  live := by
    intro k
    rw [take_nil]
    exact ⟨List.Pairwise.nil, by simp [Journal.live]⟩

theorem Log.live_all (h : Log x t rs) : LiveOk (Journal.live rs) := by
  have := h.live rs.length
  rwa [take_length] at this

variable {p : Nat × LogEvent} {id i : Nat}

theorem Log.event (h : Log x t rs) (hp : p ∈ Journal.live rs) : ∃ i, EventOk x t p.2 i := by
  rcases Journal.mem_live hp with hr | hr
  · exact h.records _ hr
  · exact h.records _ hr

theorem Log.saved (h : Log x t rs) : ∃ i, StateAt t (savedState rs) i := by
  have hsaved : savedState rs = {} ∨ .save (savedState rs) ∈ rs := Journal.saved_mem
  rcases hsaved with heq | hr
  · rw [heq]
    exact ⟨0, .init h.timeline⟩
  · exact h.records _ hr

/-- An event that lives is found. -/
theorem rank_le_reach (hp : p ∈ Journal.live rs) : rank p.2 ≤ reach rs :=
  Journal.le_reached.mpr (.inr ⟨p, hp, le_rfl⟩)

theorem Log.extend (h : Log x t rs) {b : Entry} (ht : Timeline (t ++ [b])) :
    Log x (t ++ [b]) rs where
  timeline := ht
  steady := h.steady
  records := by
    intro r hr
    have hok := h.records r hr
    cases r with
    | add id event | rewrite id event | save s =>
      obtain ⟨i, hi⟩ := hok
      exact ⟨i, hi.congr (getElem?_append_left hi.lt)⟩
    | erase id => trivial
  live := h.live

/-- **What a crash leaves is a binlog with a shorter timeline.** -/
theorem Log.take (h : Log x t rs) (n : Nat) :
    Log x (t.take ((reach (rs.take n)).toNat + 1)) (rs.take n) where
  timeline := h.timeline.take (Nat.succ_pos _)
  steady := h.steady.take n
  records := by
    intro r hr
    obtain ⟨k, hk⟩ := getElem?_of_mem hr
    rw [getElem?_take] at hk
    split at hk
    case isFalse => cases hk
    have hok := h.records r (mem_of_mem_take hr)
    -- an entry that was written is found, so it is kept
    have hkeep : ∀ i : Nat, Journal.rankOfRecord? rank SeqNoState.messageId r = some (i : Int) →
        (t.take ((reach (rs.take n)).toNat + 1))[i]? = t[i]? := by
      intro i hi
      have hle := h.steady.rank_le hk ‹_› hi
      rw [getElem?_take, if_pos]
      simp only [reach]
      omega
    cases r with
    | add id event | rewrite id event =>
      obtain ⟨i, hi⟩ := hok
      exact ⟨i, hi.congr (hkeep i (congrArg some hi.rank_eq))⟩
    | erase id => trivial
    | save s =>
      obtain ⟨i, hi⟩ := hok
      exact ⟨i, hi.congr (hkeep i (congrArg some hi.messageId_eq))⟩
  live := by
    intro k
    rw [take_take]
    exact h.live _

/-! ## Writing -/

theorem Log.concat (h : Log x t rs) {r : Record LogEvent SeqNoState} (hr : RecordOk x t r)
    (hfits : Journal.Fits rank SeqNoState.messageId {} rs r)
    (hlive : LiveOk (Journal.applyLive (Journal.live rs) r)) : Log x t (rs ++ [r]) where
  timeline := h.timeline
  steady := h.steady.concat hfits
  records := by
    intro r' hr'
    rcases mem_append.mp hr' with hr' | hr'
    · exact h.records r' hr'
    · rwa [mem_singleton.mp hr']
  live := by
    intro k
    rcases lt_or_ge rs.length k with hk | hk
    · rw [take_of_length_le (by simp; omega), Journal.live_concat]
      exact hlive
    · rw [take_append_of_le_length hk]
      exact h.live k

@[simp] theorem nextId_concat (r : Record LogEvent SeqNoState) :
    Chat.nextId (rs ++ [r]) = match r with
      | .add id _ => max (Chat.nextId rs) (id + 1)
      | _ => Chat.nextId rs := by
  rw [Chat.nextId, foldl_append]
  rfl

variable (rs) in
theorem nextId_pos : 0 < Chat.nextId rs := by
  induction rs using reverseRecOn with
  | nil => exact Nat.one_pos
  | append_singleton rs r ih =>
    rw [nextId_concat]
    cases r with
    | add id event => exact lt_max_of_lt_left ih
    | rewrite | erase | save => exact ih

theorem lt_nextId_of_add {event : LogEvent} (h : .add id event ∈ rs) : id < Chat.nextId rs := by
  induction rs using reverseRecOn with
  | nil => cases h
  | append_singleton rs r ih =>
    rw [nextId_concat]
    rcases mem_append.mp h with h | h
    · have := ih h
      cases r with
      | add id' event' => exact lt_max_of_lt_left this
      | rewrite | erase | save => exact this
    · obtain rfl := mem_singleton.mp h
      exact lt_max_of_lt_right (Nat.lt_succ_self id)

/-- The id of an event that lives is that of one that was added. -/
theorem lt_nextId (hp : p ∈ Journal.live rs) : p.1 < Chat.nextId rs := by
  suffices ∃ event, .add p.1 event ∈ rs from this.elim fun event h => lt_nextId_of_add h
  induction rs using reverseRecOn generalizing p with
  | nil => cases hp
  | append_singleton rs r ih =>
    have hold : p ∈ Journal.live rs → ∃ event, .add p.1 event ∈ rs ++ [r] := fun h =>
      (ih h).imp fun event => mem_append_left _
    rw [Journal.live_concat] at hp
    cases r with
    | add id event =>
      rcases mem_append.mp hp with hp | hp
      · exact hold hp
      · rw [mem_singleton.mp hp]
        exact ⟨event, mem_append_right _ (mem_singleton_self _)⟩
    | rewrite id event =>
      obtain ⟨p', hp', heq⟩ := mem_map.mp hp
      split at heq
      · obtain ⟨event', hadd⟩ := ih hp'
        rw [← heq]
        exact ⟨event', mem_append_left _ (‹p'.1 = id› ▸ hadd)⟩
      · exact hold (heq ▸ hp')
    | erase id => exact hold (mem_filter.mp hp).1
    | save state => exact hold hp

/-- The event of the next message is added. -/
theorem Log.add (h : Log x t rs) {event : LogEvent} (hevent : EventOk x t event i)
    (hnew : ∀ p ∈ Journal.live rs, rank p.2 < rank event ∧
      ∀ r, randomId? p.2 = some r → randomId? event ≠ some r) :
    Log x t (rs ++ [.add (Chat.nextId rs) event]) := by
  refine h.concat ⟨i, hevent⟩ trivial ⟨?_, ?_⟩
  · refine pairwise_append.mpr ⟨h.live_all.order, pairwise_singleton _ _, ?_⟩
    intro p hp q hq
    rw [mem_singleton.mp hq]
    exact ⟨lt_nextId hp, hnew p hp⟩
  · intro p hp
    rcases mem_append.mp hp with hp | hp
    · exact h.live_all.pos p hp
    · rw [mem_singleton.mp hp]
      exact nextId_pos rs

/-- An event is erased after its counters have been saved. -/
theorem Log.erase (h : Log x t rs)
    (hsaved : ∀ p ∈ Journal.live rs, p.1 = id → rank p.2 ≤ (savedState rs).messageId) :
    Log x t (rs ++ [.erase id]) := by
  refine h.concat trivial hsaved ⟨?_, ?_⟩
  · exact h.live_all.order.filter _
  · intro p hp
    exact h.live_all.pos p (mem_filter.mp hp).1

/-- An id belongs to one event. -/
theorem Log.unique (h : Log x t rs) {q : Nat × LogEvent} (hp : p ∈ Journal.live rs)
    (hq : q ∈ Journal.live rs) (heq : p.1 = q.1) : p = q := by
  have hids : ((Journal.live rs).map Prod.fst).Nodup :=
    pairwise_map.mpr (h.live_all.order.imp fun hpq => ne_of_lt hpq.1)
  exact inj_on_of_nodup_map hids hp hq heq

/-- An event is rewritten by one of the same message. -/
theorem Log.rewrite (h : Log x t rs) {event0 event : LogEvent}
    (hmem : (id, event0) ∈ Journal.live rs) (hevent : EventOk x t event i)
    (hrank : rank event = rank event0) (hrandom : randomId? event = randomId? event0) :
    Log x t (rs ++ [.rewrite id event]) := by
  have hone : ∀ p ∈ Journal.live rs, p.1 = id → p = (id, event0) := fun p hp hid =>
    h.unique hp hmem hid
  -- nothing that the order looks at changes
  have hsame : ∀ p ∈ Journal.live rs, ∀ q, (if p.1 = id then (id, event) else p) = q →
      q.1 = p.1 ∧ rank q.2 = rank p.2 ∧ randomId? q.2 = randomId? p.2 := by
    intro p hp q hq
    split at hq
    · rw [hone p hp ‹_›, ← hq]
      exact ⟨rfl, hrank, hrandom⟩
    · rw [hq]
      exact ⟨rfl, rfl, rfl⟩
  refine h.concat ⟨i, hevent⟩ ⟨⟨_, hmem, rfl⟩, ?_⟩ ⟨?_, ?_⟩
  · intro p hp hid
    rw [hone p hp hid, hrank]
  · refine pairwise_map.mpr (h.live_all.order.imp_of_mem ?_)
    intro p q hp hq hpq
    obtain ⟨hp1, hp2, hp3⟩ := hsame p hp _ rfl
    obtain ⟨hq1, hq2, hq3⟩ := hsame q hq _ rfl
    rw [hp1, hp2, hp3, hq1, hq2, hq3]
    exact hpq
  · intro q hq
    obtain ⟨p, hp, heq⟩ := mem_map.mp hq
    rw [(hsame p hp q heq).1]
    exact h.live_all.pos p hp

/-- Counters are saved that do not go back. -/
theorem Log.save (h : Log x t rs) {s : SeqNoState} (hs : StateAt t s i)
    (hle : (savedState rs).messageId ≤ s.messageId) : Log x t (rs ++ [.save s]) :=
  h.concat ⟨i, hs⟩ hle h.live_all

end

end Tdlib.SecretChat.Outbound
