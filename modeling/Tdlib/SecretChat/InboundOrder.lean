import Tdlib.SecretChat.Inbound

/-!
# The order of the messages that come in

The other side is honest when its messages are numbered from 0 on and what they
acknowledge never goes back. The network may hold messages back, bring them in any
order and bring them again, now and later.

The invariant is `Good`. It speaks of a number `n` of processed messages, since the
loop over the waiting messages breaks the link between that number and what has come.
Whatever comes, **the next message is processed, an early one is kept and an old one is
recognized**, and after the loop the next message does not wait.
-/

namespace Tdlib.SecretChat

open List Lib

variable {α σ : Type}

/-! ## The honest side -/

/-- A message after a request to send again has been obeyed. -/
def DecryptedMessage.obeyed : DecryptedMessage α → DecryptedMessage α
  | .service randomId (.resend _ _) => .service randomId .noop
  | m => m

/-- A message as it is processed. -/
def MessageLayer.obeyed (l : MessageLayer α) : MessageLayer α :=
  { l with message := l.message.upgrade.obeyed }

/-- The other side, of a chat in which our role is `x`. -/
structure Peer (α : Type) (x : Int) where
  isRole : IsRole x
  /-- `sends k l`: its message number `k` was sent as `l`, first or again. -/
  sends : Nat → MessageLayer α → Prop
  /-- How many of our messages it had processed when it made its message number `k`. -/
  ack : Nat → Nat
  ack_mono : ∀ {j k : Nat}, j ≤ k → ack j ≤ ack k
  inSeqNo_eq : ∀ {k : Nat} {l : MessageLayer α}, sends k l → l.inSeqNo = wire (ack k) (1 - x)
  outSeqNo_eq : ∀ {k : Nat} {l : MessageLayer α}, sends k l → l.outSeqNo = wire k x
  layer_nonneg : ∀ {k : Nat} {l : MessageLayer α}, sends k l → 0 ≤ l.layer
  layer_mono : ∀ {j k : Nat} {l l' : MessageLayer α}, j < k → sends j l → sends k l' →
    l.layer ≤ l'.layer
  /-- It asks for messages from the first one on that it has not processed. -/
  resend_eq : ∀ {k : Nat} {l : MessageLayer α} {s e : Int}, sends k l →
    l.message.action? = some (.resend s e) →
    ∃ n : Nat, n ≤ maxResendCount ∧ s = wire (ack k) (1 - x) ∧
      e = wire (ack k + n) (1 - x) ∧ e < 0x80000000

/-- A message of ours is processed, or asked for, only after we have made it. All messages come with
MTProto 2.0. -/
def Allowed {x : Int} (peer : Peer α x) (a : Actor α σ) : Event α σ → Prop
  | .deliver l mtprotoVersion =>
    mtprotoVersion = 2 ∧ ∃ k, peer.sends k l ∧ peer.ack k ≤ a.seqNoState.myOutSeqNo ∧
      ∀ s e, l.message.action? = some (.resend s e) → e.tdiv 2 < a.seqNoState.myOutSeqNo
  | _ => True

/-- An error that the rest of the actor has made. -/
def Handlers.Refuses (h : Handlers α σ) (e : Error) : Prop :=
  ∃ action rest, h.onInboundAction action rest = .error e

/-- The histories of a chat, and the states they lead to. -/
inductive Run (h : Handlers α σ) {x : Int} (peer : Peer α x) (rest : σ) :
    List (Event α σ) → Actor α σ → Prop where
  | start : Run h peer rest [] { x := x, rest := rest }
  | step {history : List (Event α σ)} {a a' : Actor α σ} {e : Event α σ}
      (hrun : Run h peer rest history a) (he : Allowed peer a e) (hs : a.step h e = some a') :
      Run h peer rest (history ++ [e]) a'

/-- The numbers of the messages that have come. -/
def delivered (history : List (Event α σ)) : List Int :=
  history.filterMap fun
    | .deliver l _ => some (l.outSeqNo.tdiv 2)
    | _ => none

theorem mem_delivered_concat {history : List (Event α σ)} {e : Event α σ} {i : Int} :
    i ∈ delivered (history ++ [e]) ↔
      i ∈ delivered history ∨ ∃ l v, e = .deliver l v ∧ l.outSeqNo.tdiv 2 = i := by
  rw [delivered, filterMap_append, mem_append]
  refine or_congr_right ?_
  cases e <;> simp [eq_comm]

/-! ## Sending again -/

theorem DecryptedMessage.obeyed_obeyed (m : DecryptedMessage α) :
    m.upgrade.obeyed.upgrade.obeyed = m.upgrade.obeyed := by
  rcases m with _ | ⟨_, _ | _ | _⟩ | ⟨_, _ | _ | _⟩ <;> rfl

theorem MessageLayer.obeyed_obeyed (l : MessageLayer α) : l.obeyed.obeyed = l.obeyed := by
  rw [obeyed, obeyed, DecryptedMessage.obeyed_obeyed]

/-- What has been obeyed asks for nothing. -/
theorem MessageLayer.obeyed_action (l : MessageLayer α) (s e : Int) :
    l.obeyed.message.action? ≠ some (.resend s e) := by
  obtain ⟨_, _, _, m⟩ := l
  rcases m with _ | ⟨_, _ | _ | _⟩ | ⟨_, _ | _ | _⟩ <;>
    simp [obeyed, DecryptedMessage.upgrade, DecryptedMessage.obeyed, DecryptedMessage.action?]

namespace Actor

theorem asUint32_natCast {n : Nat} (hn : n < 0x100000000) : asUint32 n = n := by
  rw [asUint32]
  omega

theorem asInt32_of_lt {n : Nat} (hn : n < 0x80000000) : asInt32 n = n := by
  rw [asInt32, if_pos hn]

theorem resendLoop_ok {count seqNo : Nat} {a : Actor α σ}
    (hfit : seqNo + count ≤ 0x80000000)
    (htokens : ∀ i : Nat, seqNo ≤ i → i < seqNo + count → (i : Int) ∈ a.outboundTokens.toList) :
    a.resendLoop count seqNo = ({ a with resent := a.resent ++ range' seqNo count },
      none) := by
  induction count generalizing seqNo a with
  | zero => rw [resendLoop, range'_zero, append_nil]
  | succ count ih =>
    have hfind : a.outboundTokens.find? seqNo = some (seqNo : Int) :=
      Ordered.find?_eq_some.mpr ⟨htokens seqNo le_rfl (by omega), rfl⟩
    rw [resendLoop, asInt32_of_lt (by omega), hfind]
    refine (ih (a := { a with resent := a.resent ++ [seqNo] }) (by omega) fun i hi hlt =>
      htokens i (by omega) (by omega)).trans ?_
    rw [range'_succ, append_assoc, singleton_append]

/-- The request for `n + 1` messages from `start` on. -/
theorem processResend_ok {x : Int} (hx : IsRole x) {start n : Nat} {a : Actor α σ}
    (hn : n ≤ maxResendCount) (hfit : wire (start + n) x < 0x80000000)
    (htokens : ∀ i : Nat, start ≤ i → i ≤ start + n → (i : Int) ∈ a.outboundTokens.toList) :
    ∃ resent, a.processResend (wire start x) (wire (start + n) x) =
      ({ a with resent := resent }, none) := by
  have hlt : start + n < 0x40000000 := by
    rcases hx with rfl | rfl <;> simp only [wire] at hfit <;> omega
  rw [maxResendCount] at hn
  rw [processResend, wire_tdiv hx, wire_tdiv hx, asUint32_natCast (by omega),
    asUint32_natCast (by omega), maxResendCount, if_neg (by omega)]
  exact ⟨_, resendLoop_ok (by omega) fun i hi hlt => htokens i hi (by omega)⟩

/-- What a message in hand is: number `k`, as it was sent or as it was kept. -/
structure Fits {x : Int} (peer : Peer α x) (k : Nat) (a : Actor α σ) (l : MessageLayer α) :
    Prop where
  /-- It is a copy of the message. -/
  copy : ∃ l0, peer.sends k l0 ∧ l.obeyed = l0.obeyed
  /-- What it acknowledges has been made. -/
  ack_le : peer.ack k ≤ a.seqNoState.myOutSeqNo
  /-- What it asks for has been made. -/
  resend : ∀ s e, l.message.action? = some (.resend s e) →
    ∃ n : Nat, n ≤ maxResendCount ∧ s = wire (peer.ack k) (1 - x) ∧
      e = wire (peer.ack k + n) (1 - x) ∧ e < 0x80000000 ∧
      (peer.ack k + n : Nat) < a.seqNoState.myOutSeqNo

section Fits

variable {x : Int} {peer : Peer α x} {k : Nat} {a : Actor α σ} {l : MessageLayer α}

theorem Fits.inSeqNo_eq (h : Fits peer k a l) : l.inSeqNo = wire (peer.ack k) (1 - x) := by
  obtain ⟨l0, hl0, heq⟩ := h.copy
  rw [← peer.inSeqNo_eq hl0]
  have := congrArg MessageLayer.inSeqNo heq
  exact this

theorem Fits.outSeqNo_eq (h : Fits peer k a l) : l.outSeqNo = wire k x := by
  obtain ⟨l0, hl0, heq⟩ := h.copy
  rw [← peer.outSeqNo_eq hl0]
  have := congrArg MessageLayer.outSeqNo heq
  exact this

/-- The layer is that of a copy. -/
theorem Fits.layer_eq (h : Fits peer k a l) : ∃ l0, peer.sends k l0 ∧ l.layer = l0.layer := by
  obtain ⟨l0, hl0, heq⟩ := h.copy
  have := congrArg MessageLayer.layer heq
  exact ⟨l0, hl0, this⟩

/-- **Whatever an honest message asks for is sent again.** -/
theorem Fits.obeyResend_ok (hx : IsRole x) (h : Fits peer k a l)
    (htokens : ∀ i : Nat, peer.ack k ≤ i → i < a.seqNoState.myOutSeqNo →
      (i : Int) ∈ a.outboundTokens.toList) :
    ∃ resent, a.obeyResend l.message.upgrade =
      ({ a with resent := resent }, none, l.obeyed.message) := by
  have hresend : ∀ s e, l.message.action? = some (.resend s e) →
      ∃ resent, a.processResend s e = ({ a with resent := resent }, none) := by
    intro s e hse
    obtain ⟨n, hn, rfl, rfl, hfit, hmade⟩ := h.resend s e hse
    exact processResend_ok hx.other hn hfit fun i hi hle => htokens i hi (by omega)
  rw [MessageLayer.obeyed]
  cases hm : l.message with
  | message randomId => exact ⟨a.resent, rfl⟩
  | service randomId action | service8 randomId action =>
    cases action with
    | resend s e =>
      obtain ⟨resent, hok⟩ := hresend s e (by rw [hm]; rfl)
      refine ⟨resent, ?_⟩
      simp only [DecryptedMessage.upgrade, obeyResend, hok]
      rfl
    | noop | other action => exact ⟨a.resent, rfl⟩

end Fits

/-! ## The invariant -/

/-- After the first `n` messages of the other side have been processed. -/
structure Good (h : Handlers α σ) {x : Int} (peer : Peer α x) (n : Nat) (a : Actor α σ) :
    Prop where
  x_eq : a.x = x
  myIn_eq : a.seqNoState.myInSeqNo = n
  length_eq : a.processed.length = n
  /-- What was processed are the messages, in their order. -/
  processed : ∀ i < n, ∃ l, peer.sends i l ∧ a.processed[i]? = some l.obeyed
  /-- No message that is still to come goes back. -/
  hisIn_le : a.seqNoState.hisInSeqNo ≤ peer.ack n
  hisLayer_le : ∀ k l, n ≤ k → peer.sends k l → a.seqNoState.hisLayer ≤ l.layer
  /-- What has not been acknowledged can be sent again. -/
  tokens : ∀ i : Nat, a.seqNoState.hisInSeqNo ≤ i → i < a.seqNoState.myOutSeqNo →
    (i : Int) ∈ a.outboundTokens.toList
  pfs_le : a.pfsMessageId ≤ a.seqNoState.messageId
  nextLogEventId_ne : a.nextLogEventId ≠ 0
  /-- What waits are messages that are still to come, as they will be processed. -/
  waiting : ∀ p ∈ a.pendingInboundMessages.toList, ∃ (k : Nat) (l : MessageLayer α),
    p.1 = k ∧ n ≤ k ∧ peer.sends k l ∧ p.2.decryptedMessageLayer = l.obeyed ∧
      peer.ack k ≤ a.seqNoState.myOutSeqNo ∧ p.2.logEventId ≠ 0 ∧ p.2.promise = false
  /-- Only the rest of the actor closes the chat. -/
  closed : a.closeFlag = true → ∃ e, a.fatal = some e ∧ h.Refuses e

/-! ## Processing a message -/

theorem saveLogEvent_eq (a : Actor α σ) (m : InboundSecretMessage α) :
    ∃ next logEvents, a.saveLogEvent m = { a with nextLogEventId := next, logEvents := logEvents } ∧
      (a.nextLogEventId ≠ 0 → next ≠ 0) := by
  rw [saveLogEvent]
  split
  · exact ⟨a.nextLogEventId + 1, _, rfl, fun _ => Nat.succ_ne_zero _⟩
  · split
    · exact ⟨a.nextLogEventId + 1, _, rfl, fun _ => Nat.succ_ne_zero _⟩
    · exact ⟨a.nextLogEventId, a.logEvents, rfl, id⟩

theorem onInboundAction_eq (h : Handlers α σ) (a : Actor α σ) (action : Action α)
    (messageId : Int) :
    ∃ pfsMessageId rest status, a.onInboundAction h action messageId =
        ({ a with pfsMessageId := pfsMessageId, rest := rest }, status) ∧
      (pfsMessageId = a.pfsMessageId ∨ pfsMessageId = messageId) ∧
      ∀ e, status = some e → h.Refuses e := by
  have hnone : ∀ e, (none : Option Error) = some e → h.Refuses e := nofun
  rw [onInboundAction]
  split
  · exact ⟨a.pfsMessageId, a.rest, none, rfl, .inl rfl, hnone⟩
  split
  · exact ⟨a.pfsMessageId, a.rest, none, rfl, .inl rfl, hnone⟩
  cases action with
  | resend s e | noop => exact ⟨messageId, a.rest, none, rfl, .inr rfl, hnone⟩
  | other action =>
    dsimp only
    cases hres : h.onInboundAction action a.rest with
    | ok rest => exact ⟨messageId, rest, none, rfl, .inr rfl, hnone⟩
    | error e =>
      refine ⟨messageId, a.rest, some e, rfl, .inr rfl, fun e' he' => ?_⟩
      cases he'
      exact ⟨action, a.rest, hres⟩

/-- What processing the message `l` does: its log event is `e`. -/
structure Processed (h : Handlers α σ) (e : EventSeqNo) (l : MessageLayer α)
    (a a' : Actor α σ) (status : Option Error) : Prop where
  x_eq : a'.x = a.x
  seqNoState_eq : a'.seqNoState = a.seqNoState.updateSeqNoState e
  tokens_eq : a'.outboundTokens = (a.updateSeqNoState e).outboundTokens
  pending_eq : a'.pendingInboundMessages = a.pendingInboundMessages
  sent_eq : a'.sent = a.sent
  closeFlag_eq : a'.closeFlag = a.closeFlag
  fatal_eq : a'.fatal = a.fatal
  processed_eq : a'.processed = a.processed ++ [l]
  pfs_eq : a'.pfsMessageId = a.pfsMessageId ∨ a'.pfsMessageId = e.messageId
  nextLogEventId_ne : a.nextLogEventId ≠ 0 → a'.nextLogEventId ≠ 0
  /-- Only the rest of the actor makes an error. -/
  status : ∀ e, status = some e → h.Refuses e

theorem doInboundMessageDecrypted_processed (h : Handlers α σ) (a : Actor α σ)
    (m : InboundSecretMessage α) :
    ∃ a' status, a.doInboundMessageDecrypted h m = (a', status) ∧
      Processed h m.seqNo m.decryptedMessageLayer a a' status := by
  obtain ⟨next, logEvents, hsave, hnext⟩ := saveLogEvent_eq a m
  rw [doInboundMessageDecrypted, hsave]
  cases m.decryptedMessageLayer.message.action? with
  | none =>
    exact ⟨_, none, rfl, rfl, rfl, rfl, rfl, rfl, rfl, rfl, rfl, .inl rfl, hnext,
      nofun⟩
  | some action =>
    obtain ⟨pfsMessageId, rest, status, heq, hpfs, hstatus⟩ := onInboundAction_eq h
      { a.updateSeqNoState m.seqNo with
        nextLogEventId := next
        logEvents := logEvents
        processed := a.processed ++ [m.decryptedMessageLayer] } action m.seqNo.messageId
    exact ⟨_, status, heq, rfl, rfl, rfl, rfl, rfl, rfl, rfl, rfl, hpfs, hnext, hstatus⟩

section Steps

variable {h : Handlers α σ} {x : Int} {peer : Peer α x} {n k : Nat} {a : Actor α σ}

/-- What receiving messages leaves as it was. -/
structure Frame (a a' : Actor α σ) : Prop where
  myOut_eq : a'.seqNoState.myOutSeqNo = a.seqNoState.myOutSeqNo
  resendEnd_eq : a'.seqNoState.resendEndSeqNo = a.seqNoState.resendEndSeqNo
  sent_eq : a'.sent = a.sent
  closed : a.closeFlag = true → a'.closeFlag = true

theorem Frame.trans {a' a'' : Actor α σ} (h : Frame a a') (h' : Frame a' a'') : Frame a a'' where
  myOut_eq := h'.myOut_eq.trans h.myOut_eq
  resendEnd_eq := h'.resendEnd_eq.trans h.resendEnd_eq
  sent_eq := h'.sent_eq.trans h.sent_eq
  closed := fun hclosed => h'.closed (h.closed hclosed)

/-- The message number `i` waits. -/
def Waits (a : Actor α σ) (i : Int) : Prop := ∃ p ∈ a.pendingInboundMessages.toList, p.1 = i

variable {l : MessageLayer α} {m : InboundSecretMessage α} {status : Option Error}
  {p : Int × InboundSecretMessage α}

/-- The next message passes the check. -/
theorem Good.checkSeqNo_next (hgood : Good h peer n a) (hx : IsRole x) (hl : Fits peer n a l) :
    checkSeqNo a.x a.seqNoState l.inSeqNo l.outSeqNo l.layer = .ok () := by
  obtain ⟨l0, hl0, hlayer⟩ := hl.layer_eq
  have hback := hgood.hisLayer_le n l0 le_rfl hl0
  have hack := hgood.hisIn_le
  have hmade := hl.ack_le
  rw [hl.inSeqNo_eq, hl.outSeqNo_eq, hgood.x_eq, checkSeqNo_wire hx, hgood.myIn_eq,
    if_neg (by omega), if_neg (by omega), if_neg (by omega), if_neg (by omega),
    if_neg (by omega)]

theorem eventSeqNo_eq (hx : IsRole x) {ack : Nat}
    (hin : m.decryptedMessageLayer.inSeqNo = wire ack (1 - x))
    (hout : m.decryptedMessageLayer.outSeqNo = wire k x) :
    a.eventSeqNo m =
      { messageId := a.seqNoState.messageId + 1
        myInSeqNo := k + 1
        myOutSeqNo := a.seqNoState.myOutSeqNo
        hisInSeqNo := ack
        hisLayer := m.decryptedMessageLayer.layer } := by
  have hpos := wire_nonneg hx.other ack
  rw [eventSeqNo]
  rw [hin, hout, wire_tdiv hx, wire_tdiv hx.other, if_pos (by omega)]

/-- The counters after the next message. -/
theorem updateSeqNoState_next (s : SeqNoState) (n ack : Nat) {layer : Int} (hlayer : 0 ≤ layer) :
    s.updateSeqNoState
        { messageId := s.messageId + 1
          myInSeqNo := n + 1
          myOutSeqNo := s.myOutSeqNo
          hisInSeqNo := ack
          hisLayer := layer } =
      { s with
        messageId := s.messageId + 1
        myInSeqNo := n + 1
        hisInSeqNo := ack
        hisLayer := layer } := by
  rw [SeqNoState.updateSeqNoState_new (Int.lt_succ _) (by dsimp only; omega)]
  dsimp only
  rw [if_pos (by omega)]

/-- What can be sent again after `his_in_seq_no` has changed. -/
theorem mem_tokens_update {e : EventSeqNo} {i : Int} (hi : i ∈ a.outboundTokens.toList)
    (hle : (a.seqNoState.updateSeqNoState e).hisInSeqNo ≤ i) :
    i ∈ (a.updateSeqNoState e).outboundTokens.toList := by
  rw [updateSeqNoState]
  split
  · exact Ordered.mem_eraseBelow.mpr ⟨hi, hle⟩
  · exact hi

/-- A message that passes the check. -/
theorem unchecked_of_ok {b : Actor α σ} {message : DecryptedMessage α}
    (hcheck : checkSeqNo a.x a.seqNoState m.decryptedMessageLayer.inSeqNo
      m.decryptedMessageLayer.outSeqNo m.decryptedMessageLayer.layer = .ok ())
    (hobey : a.obeyResend m.decryptedMessageLayer.message.upgrade = (b, none, message)) :
    a.doInboundMessageDecryptedUnchecked h m = some (b.doInboundMessageDecrypted h
      { m with
        decryptedMessageLayer := { m.decryptedMessageLayer with message := message }
        seqNo := b.eventSeqNo m }) := by
  rw [doInboundMessageDecryptedUnchecked]
  rw [hcheck, hobey]
  rfl

section

variable (hgood : Good h peer n a)
include hgood

/-- The invariant after the message number `n`. -/
theorem Good.of_processed {l0 : MessageLayer α} {a' : Actor α σ} {e : EventSeqNo}
    (he : e =
      { messageId := a.seqNoState.messageId + 1
        myInSeqNo := n + 1
        myOutSeqNo := a.seqNoState.myOutSeqNo
        hisInSeqNo := peer.ack n
        hisLayer := l0.layer })
    (hl0 : peer.sends n l0) (hl : l = l0.obeyed) (h' : Processed h e l a a' status)
    (hkeys : ¬a.Waits n) : Good h peer (n + 1) a' ∧ Frame a a' := by
  have hseq := updateSeqNoState_next a.seqNoState n (peer.ack n) (peer.layer_nonneg hl0)
  rw [← he] at hseq
  have hseq' := h'.seqNoState_eq.trans hseq
  have hmyOut : a'.seqNoState.myOutSeqNo = a.seqNoState.myOutSeqNo := by rw [hseq']
  have hhisIn : a'.seqNoState.hisInSeqNo = peer.ack n := by rw [hseq']
  constructor
  · constructor
    case x_eq => rw [h'.x_eq, hgood.x_eq]
    case myIn_eq => rw [hseq']; exact (Int.natCast_succ n).symm
    case length_eq => rw [h'.processed_eq, length_append, hgood.length_eq]; rfl
    case processed =>
      intro i hi
      rw [h'.processed_eq]
      rcases Nat.lt_succ_iff_lt_or_eq.mp hi with hlt | rfl
      · rw [getElem?_append_left (by rw [hgood.length_eq]; exact hlt)]
        exact hgood.processed i hlt
      · refine ⟨l0, hl0, ?_⟩
        rw [← hgood.length_eq, getElem?_concat_length, hl]
    case hisIn_le =>
      have := peer.ack_mono (Nat.le_add_right n 1)
      omega
    case hisLayer_le =>
      intro k l' hk hl'
      rw [hseq']
      exact peer.layer_mono hk hl0 hl'
    case tokens =>
      intro i hi hlt
      rw [h'.tokens_eq]
      rw [hmyOut] at hlt
      refine mem_tokens_update (hgood.tokens i ?_ hlt) ?_
      · have := hgood.hisIn_le
        omega
      · rw [← h'.seqNoState_eq]
        exact hi
    case pfs_le =>
      have := hgood.pfs_le
      rw [hseq']
      rcases h'.pfs_eq with hpfs | hpfs
      · dsimp only
        omega
      · rw [hpfs, he]
    case nextLogEventId_ne => exact h'.nextLogEventId_ne hgood.nextLogEventId_ne
    case waiting =>
      intro p hp
      rw [h'.pending_eq] at hp
      obtain ⟨k, l', hkey, hk, hsent, hrest⟩ := hgood.waiting p hp
      have hne : p.1 ≠ n := fun heq => hkeys ⟨p, hp, heq⟩
      rw [hmyOut]
      exact ⟨k, l', hkey, by omega, hsent, hrest⟩
    case closed => rw [h'.closeFlag_eq, h'.fatal_eq]; exact hgood.closed
  · exact ⟨hmyOut, by rw [hseq'], h'.sent_eq, h'.closeFlag_eq.trans⟩

/-- **The next message is processed**, whatever the rest of the actor says to it. -/
theorem Good.next (hx : IsRole x) (hm : Fits peer n a m.decryptedMessageLayer)
    (hkeys : ¬a.Waits n) :
    ∃ a' status, a.doInboundMessageDecryptedUnchecked h m = some (a', status) ∧
      Good h peer (n + 1) a' ∧ Frame a a' ∧
      a'.pendingInboundMessages = a.pendingInboundMessages ∧
      ∀ e, status = some e → h.Refuses e := by
  obtain ⟨l0, hl0, hobeyed⟩ := hm.copy
  have hlayer := congrArg MessageLayer.layer hobeyed
  change m.decryptedMessageLayer.layer = l0.layer at hlayer
  obtain ⟨resent, hresend⟩ := hm.obeyResend_ok hx fun i hi hlt =>
    hgood.tokens i (le_trans hgood.hisIn_le (by omega)) hlt
  rw [unchecked_of_ok (hgood.checkSeqNo_next hx hm) hresend,
    eventSeqNo_eq hx hm.inSeqNo_eq hm.outSeqNo_eq, hlayer]
  obtain ⟨a', status, heq, hprocessed⟩ := doInboundMessageDecrypted_processed h
    { a with resent := resent }
    { m with
      decryptedMessageLayer := m.decryptedMessageLayer.obeyed
      seqNo :=
        { messageId := a.seqNoState.messageId + 1
          myInSeqNo := n + 1
          myOutSeqNo := a.seqNoState.myOutSeqNo
          hisInSeqNo := peer.ack n
          hisLayer := l0.layer } }
  -- what was sent again is not looked at
  have hprocessed' : Processed h _ _ a a' status := { hprocessed with }
  obtain ⟨hgood', hframe⟩ := hgood.of_processed rfl hl0 hobeyed hprocessed' hkeys
  exact ⟨a', status, congrArg some heq, hgood', hframe, hprocessed.pending_eq, hprocessed.status⟩

/-- A message that came again is recognized. -/
theorem Good.old (hx : IsRole x) (hk : k < n) (hl : Fits peer k a l) :
    a.doInboundMessageDecryptedUnchecked h { decryptedMessageLayer := l } =
      some (a, some ⟨1, "Old seq_no"⟩) := by
  have hcheck : checkSeqNo a.x a.seqNoState l.inSeqNo l.outSeqNo l.layer =
      .error ⟨1, "Old seq_no"⟩ := by
    rw [hl.inSeqNo_eq, hl.outSeqNo_eq, hgood.x_eq, checkSeqNo_wire hx, hgood.myIn_eq,
      if_pos (by omega)]
  rw [doInboundMessageDecryptedUnchecked]
  rw [hcheck]
  rfl

/-- **A message that comes early is kept.** -/
theorem Good.early (hx : IsRole x) (hk : n < k) (hl : Fits peer k a l) :
    ∃ a', a.doInboundMessageDecryptedUnchecked h { decryptedMessageLayer := l } =
        some (a', none) ∧
      Good h peer n a' ∧ Frame a a' ∧ ∀ i, a'.Waits i ↔ i = k ∨ a.Waits i := by
  have hcheck : checkSeqNo a.x a.seqNoState l.inSeqNo l.outSeqNo l.layer =
      .error ⟨2, "Gap found!"⟩ := by
    rw [hl.inSeqNo_eq, hl.outSeqNo_eq, hgood.x_eq, checkSeqNo_wire hx, hgood.myIn_eq,
      if_neg (by omega), if_pos (by omega)]
  have hkey : l.outSeqNo.tdiv 2 = k := by rw [hl.outSeqNo_eq, wire_tdiv hx]
  have hack := peer.ack_mono (le_of_lt hk)
  obtain ⟨l0, hl0, hobeyed⟩ := hl.copy
  obtain ⟨resent, hresend⟩ := hl.obeyResend_ok hx fun i hi hlt =>
    hgood.tokens i (le_trans hgood.hisIn_le (by omega)) hlt
  rw [doInboundMessageDecryptedUnchecked]
  rw [hcheck]
  rw [hresend]
  dsimp only
  rw [doInboundMessageDecryptedPending]
  rw [hkey]
  refine ⟨_, rfl, ?_, ⟨rfl, rfl, rfl, id⟩, ?_⟩
  · refine { hgood with nextLogEventId_ne := Nat.succ_ne_zero _, waiting := ?_ }
    intro p hp
    rcases Ordered.mem_insert.mp hp with rfl | ⟨hp, -⟩
    · exact ⟨k, l0, rfl, le_of_lt hk, hl0, hobeyed, hl.ack_le, hgood.nextLogEventId_ne, rfl⟩
    · exact hgood.waiting p hp
  intro i
  constructor
  · rintro ⟨p, hp, rfl⟩
    rcases Ordered.mem_insert.mp hp with rfl | ⟨hp, -⟩
    · exact .inl rfl
    · exact .inr ⟨p, hp, rfl⟩
  · intro hi
    by_cases heq : i = k
    · exact ⟨_, Ordered.mem_insert.mpr (.inl rfl), heq.symm⟩
    · obtain ⟨p, hp, rfl⟩ := hi.resolve_left heq
      exact ⟨p, Ordered.mem_insert.mpr (.inr ⟨hp, heq⟩), rfl⟩

theorem Good.checkStatus_ok (hstatus : ∀ e, status = some e → h.Refuses e ∨ e.code = 1) :
    Good h peer n (a.checkStatus status) ∧ Frame a (a.checkStatus status) ∧
      (a.checkStatus status).pendingInboundMessages = a.pendingInboundMessages := by
  cases status with
  | none => exact ⟨hgood, ⟨rfl, rfl, rfl, id⟩, rfl⟩
  | some e =>
    rw [checkStatus]
    split
    · exact ⟨hgood, ⟨rfl, rfl, rfl, id⟩, rfl⟩
    split
    · exact ⟨hgood, ⟨rfl, rfl, rfl, id⟩, rfl⟩
    rename_i hcode _
    have hrefuses := (hstatus e rfl).resolve_right hcode
    exact ⟨{ hgood with closed := fun _ => ⟨e, rfl, hrefuses⟩ }, ⟨rfl, rfl, rfl, fun _ => rfl⟩, rfl⟩

end

/-! ## The messages that wait -/

/-- A message that waits is in hand again. -/
theorem Good.fits_waiting (hgood : Good h peer n a) (hp : p ∈ a.pendingInboundMessages.toList)
    (hkey : p.1 ≤ n) : p.1 = n ∧ Fits peer n a p.2.decryptedMessageLayer := by
  obtain ⟨k, l, hk, hle, hl, hlayer, hack, -, -⟩ := hgood.waiting p hp
  have hkn : k = n := by omega
  subst hkn
  refine ⟨hk, ⟨l, hl, ?_⟩, hack, fun s e hse => ?_⟩
  · rw [hlayer, MessageLayer.obeyed_obeyed]
  · rw [hlayer] at hse
    exact absurd hse (l.obeyed_action s e)

theorem not_waits_of_nil (hnil : a.pendingInboundMessages.toList = []) (i : Int) : ¬a.Waits i := by
  rintro ⟨p, hp, -⟩
  rw [hnil] at hp
  cases hp

theorem waits_erase {a' : Actor α σ} {k : Int}
    (h' : a'.pendingInboundMessages = a.pendingInboundMessages.erase k) (i : Int) :
    a'.Waits i ↔ a.Waits i ∧ i ≠ k := by
  rw [Waits, h']
  constructor
  · rintro ⟨p, hp, rfl⟩
    obtain ⟨hp, hne⟩ := Ordered.mem_erase.mp hp
    exact ⟨⟨p, hp, rfl⟩, hne⟩
  · rintro ⟨⟨p, hp, rfl⟩, hne⟩
    exact ⟨p, Ordered.mem_erase.mpr ⟨hp, hne⟩, rfl⟩

theorem exists_first_waiting (hsome : ∃ j, a.Waits j) :
    ∃ j, a.Waits j ∧ ∀ i, a.Waits i → j ≤ i := by
  cases hlist : a.pendingInboundMessages.toList with
  | nil =>
    obtain ⟨j, hj⟩ := hsome
    exact absurd hj (not_waits_of_nil hlist j)
  | cons p l =>
    refine ⟨p.1, ⟨p, hlist ▸ mem_cons_self, rfl⟩, ?_⟩
    rintro i ⟨q, hq, rfl⟩
    exact Ordered.le_of_head hlist hq

/-- One round of the loop. -/
theorem Good.round (hgood : Good h peer n a) (hx : IsRole x)
    (hp : p ∈ a.pendingInboundMessages.toList) (hle : p.1 ≤ n) :
    ∃ a1 status, { a with pendingInboundMessages :=
          a.pendingInboundMessages.erase p.1 }.doInboundMessageDecryptedUnchecked h p.2 =
        some (a1, status) ∧
      Good h peer (n + 1) (a1.checkStatus status) ∧ Frame a (a1.checkStatus status) ∧
      (a1.checkStatus status).pendingInboundMessages = a.pendingInboundMessages.erase p.1 := by
  obtain ⟨hkey, hfits⟩ := hgood.fits_waiting hp hle
  have herased : Good h peer n
      { a with pendingInboundMessages := a.pendingInboundMessages.erase p.1 } :=
    { hgood with waiting := fun q hq => hgood.waiting q (Ordered.mem_erase.mp hq).1 }
  have hgone : ¬Waits { a with
      pendingInboundMessages := a.pendingInboundMessages.erase p.1 } n :=
    fun hw => ((waits_erase rfl n).mp hw).2 hkey.symm
  obtain ⟨a1, status, hprocess, hgood1, hframe1, hpending1, hstatus⟩ :=
    herased.next hx { hfits with } hgone
  obtain ⟨hgood2, hframe2, hpending2⟩ := hgood1.checkStatus_ok fun e he => .inl (hstatus e he)
  have hframe : Frame a a1 := { hframe1 with }
  exact ⟨a1, status, hprocess, hgood2, hframe.trans hframe2, hpending2.trans hpending1⟩

/-- **After the loop, the next message does not wait.** What was processed or waits is what it was
before. The induction is on the rounds, of which there are as many as messages. -/
theorem Good.replayPending_ok (hx : IsRole x) {rounds : Nat} (hgood : Good h peer n a)
    (hrounds : a.pendingInboundMessages.toList.length ≤ rounds) :
    ∃ n' a', replayPending h rounds a = some a' ∧ Good h peer n' a' ∧ Frame a a' ∧
      ¬a'.Waits n' ∧ ∀ i : Int, i < n' ∨ a'.Waits i ↔ i < n ∨ a.Waits i := by
  induction rounds generalizing n a with
  | zero =>
    have hnil := length_eq_zero_iff.mp (Nat.le_zero.mp hrounds)
    exact ⟨n, a, rfl, hgood, ⟨rfl, rfl, rfl, id⟩, not_waits_of_nil hnil n, fun i => Iff.rfl⟩
  | succ rounds ih =>
    rw [replayPending]
    cases hlist : a.pendingInboundMessages.toList with
    | nil =>
      exact ⟨n, a, rfl, hgood, ⟨rfl, rfl, rfl, id⟩, not_waits_of_nil hlist n, fun i => Iff.rfl⟩
    | cons p l =>
      have hp : p ∈ a.pendingInboundMessages.toList := hlist ▸ mem_cons_self
      dsimp only
      rw [hgood.myIn_eq]
      split
      · rename_i hle
        have hkey : p.1 = n := (hgood.fits_waiting hp hle).1
        obtain ⟨a1, status, hprocess, hgood1, hframe1, hpending1⟩ := hgood.round hx hp hle
        have hgone : (a1.checkStatus status).pendingInboundMessages.find? p.1 = none := by
          rw [hpending1]
          exact Ordered.find?_eq_none.mpr fun q hq => (Ordered.mem_erase.mp hq).2
        have hfewer := (Ordered.perm_erase hp).length_eq
        rw [length_cons, ← hpending1] at hfewer
        obtain ⟨n', a', hloop, hgood', hframe', hnext, hsame⟩ := ih hgood1 (by omega)
        rw [hprocess, Option.bind_some]
        rw [hgone]
        refine ⟨n', a', hloop, hgood', hframe1.trans hframe', hnext, fun i => ?_⟩
        rw [hsame i, waits_erase hpending1 i, hkey]
        -- the message `n` waits before the round and is processed in it
        have hwaits : a.Waits n := ⟨p, hp, hkey⟩
        by_cases hi : i = n
        · subst hi
          exact ⟨fun _ => .inr hwaits, fun _ => .inl (by omega)⟩
        · refine or_congr ?_ (and_iff_left hi)
          omega
      · refine ⟨n, a, rfl, hgood, ⟨rfl, rfl, rfl, id⟩, ?_, fun i => Iff.rfl⟩
        rintro ⟨q, hq, hqn⟩
        have := Ordered.le_of_head hlist hq
        omega

end Steps

end Actor

end Tdlib.SecretChat
