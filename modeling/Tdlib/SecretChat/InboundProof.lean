import Tdlib.SecretChat.InboundOrder

/-!
# Every message once, in order

After every event, **the messages that were processed are exactly those before the
first one that has not come**, and what has come of the others waits. This says
everything about the order: a message is processed once, in its turn, and at once
when the last message before it comes.

What is missing before the first message that waits has been asked for, and only
once: `resend_end_seq_no` is the end of the last gap that was asked for, and the
message behind it waits until the gap is closed.
-/

namespace Tdlib.SecretChat

open List Lib

variable {α σ : Type}

namespace Actor

section Steps

variable {h : Handlers α σ} {x : Int} {peer : Peer α x} {n k : Nat} {a : Actor α σ}

/-! ## Sending -/

/-- `resend_end_seq_no` after an action of ours. -/
def resendEnd (old : Int) : Option (Action α) → Int
  | some (.resend _ endSeqNo) => if old < endSeqNo.tdiv 2 then endSeqNo.tdiv 2 else old
  | _ => old

/-- What sending a message does, apart from what can be sent again. -/
structure Made (message : DecryptedMessage α) (a a' : Actor α σ) : Prop where
  x_eq : a'.x = a.x
  seqNoState_eq : a'.seqNoState =
    { a.seqNoState with
      messageId := a.seqNoState.messageId + 1
      myOutSeqNo := a.seqNoState.myOutSeqNo + 1
      resendEndSeqNo := resendEnd a.seqNoState.resendEndSeqNo message.action? }
  pending_eq : a'.pendingInboundMessages = a.pendingInboundMessages
  processed_eq : a'.processed = a.processed
  closeFlag_eq : a'.closeFlag = a.closeFlag
  fatal_eq : a'.fatal = a.fatal
  nextLogEventId_eq : a'.nextLogEventId = a.nextLogEventId
  pfs_le : a'.pfsMessageId ≤ a.seqNoState.messageId + 1
  hisLayer_eq : a'.hisLayer = a.hisLayer
  sent_eq : a'.sent = a.sent ++
    [{ layer := a.currentLayer
       inSeqNo := a.seqNoState.myInSeqNo * 2 + a.x
       outSeqNo := (a.seqNoState.myOutSeqNo + 1) * 2 - 1 - a.x
       message := message }]

/-- An action of ours that is new. -/
theorem onOutboundAction_eq {messageId : Int} (hpfs : a.pfsMessageId < messageId)
    (hid : a.seqNoState.messageId = messageId) (action : Action α) (rest : σ) :
    ∃ rest', a.onOutboundAction action messageId rest =
      { a with
        pfsMessageId := messageId
        rest := rest'
        seqNoState := { a.seqNoState with
          resendEndSeqNo := resendEnd a.seqNoState.resendEndSeqNo (some action) } } := by
  rw [onOutboundAction, if_neg (by omega), if_neg (by omega)]
  cases action with
  | resend s e =>
    refine ⟨a.rest, ?_⟩
    dsimp only [resendEnd]
    split <;> rfl
  | noop => exact ⟨a.rest, rfl⟩
  | other action => exact ⟨rest, rfl⟩

/-- The counters after a message of ours. -/
theorem updateSeqNoState_made (hin : a.seqNoState.myInSeqNo ≠ -1) :
    a.updateSeqNoState
        { messageId := a.seqNoState.messageId + 1
          myInSeqNo := a.seqNoState.myInSeqNo
          myOutSeqNo := a.seqNoState.myOutSeqNo + 1
          hisInSeqNo := a.seqNoState.hisInSeqNo } =
      { a with seqNoState := { a.seqNoState with
          messageId := a.seqNoState.messageId + 1
          myOutSeqNo := a.seqNoState.myOutSeqNo + 1 } } := by
  rw [updateSeqNoState, SeqNoState.updateSeqNoState_new (Int.lt_succ _) hin]
  simp

theorem mem_tokens_waitForAck {i k : Int}
    (hi : i ∈ a.outboundTokens.toList ∨ a.seqNoState.hisInSeqNo ≤ i ∧ i = k) :
    i ∈ (a.waitForAck k).outboundTokens.toList := by
  rw [waitForAck]
  split
  · exact hi.resolve_right fun ⟨hle, heq⟩ => by omega
  · by_cases heq : i = k
    · exact Ordered.mem_insert.mpr (.inl heq)
    · exact Ordered.mem_insert.mpr (.inr ⟨hi.resolve_right fun hk => heq hk.2, heq⟩)

variable {message : DecryptedMessage α} {a' : Actor α σ}

theorem Made.waitForAck {b : Actor α σ} (hb : Made message a b) (k : Int) :
    Made message a (b.waitForAck k) := by
  rw [Actor.waitForAck]
  split
  · exact hb
  · exact { hb with }

/-- The state in which a message of ours waits to be acknowledged. -/
theorem doOutboundMessageImpl_eq (hin : a.seqNoState.myInSeqNo ≠ -1)
    (hpfs : a.pfsMessageId ≤ a.seqNoState.messageId) (action : Option (Action α)) (rest : σ) :
    ∃ (pfsMessageId : Int) (rest' : σ), a.doOutboundMessageImpl
          { messageId := a.seqNoState.messageId + 1
            myInSeqNo := a.seqNoState.myInSeqNo
            myOutSeqNo := a.seqNoState.myOutSeqNo + 1
            hisInSeqNo := a.seqNoState.hisInSeqNo } action rest =
        { a with
          pfsMessageId := pfsMessageId
          rest := rest'
          seqNoState := { a.seqNoState with
            messageId := a.seqNoState.messageId + 1
            myOutSeqNo := a.seqNoState.myOutSeqNo + 1
            resendEndSeqNo := resendEnd a.seqNoState.resendEndSeqNo action }
          }.waitForAck a.seqNoState.myOutSeqNo ∧
      pfsMessageId ≤ a.seqNoState.messageId + 1 := by
  rw [doOutboundMessageImpl.eq_def]
  rw [updateSeqNoState_made hin, Int.add_sub_cancel]
  cases action with
  | none => exact ⟨a.pfsMessageId, a.rest, rfl, by omega⟩
  | some action =>
    obtain ⟨rest', heq⟩ := onOutboundAction_eq
      (a := { a with seqNoState := { a.seqNoState with
        messageId := a.seqNoState.messageId + 1
        myOutSeqNo := a.seqNoState.myOutSeqNo + 1 } })
      (Int.lt_add_one_of_le hpfs) rfl action rest
    exact ⟨a.seqNoState.messageId + 1, rest', congrArg (waitForAck · _) heq, le_rfl⟩

theorem sendMessageImpl_made (hopen : a.closeFlag = false) (hin : a.seqNoState.myInSeqNo ≠ -1)
    (hpfs : a.pfsMessageId ≤ a.seqNoState.messageId) (message : DecryptedMessage α) (rest : σ) :
    Made message a (a.sendMessageImpl message rest) ∧
      ∀ i, i ∈ a.outboundTokens.toList ∨
          a.seqNoState.hisInSeqNo ≤ i ∧ i = a.seqNoState.myOutSeqNo →
        i ∈ (a.sendMessageImpl message rest).outboundTokens.toList := by
  rw [sendMessageImpl, if_neg (by simp [hopen])]
  obtain ⟨pfsMessageId, rest', heq, hle⟩ := doOutboundMessageImpl_eq
    (a := { a with sent := a.sent ++
      [{ layer := a.currentLayer
         inSeqNo := a.seqNoState.myInSeqNo * 2 + a.x
         outSeqNo := (a.seqNoState.myOutSeqNo + 1) * 2 - 1 - a.x
         message := message }] }) hin hpfs message.action? rest
  rw [heq]
  constructor
  · apply Made.waitForAck
    exact ⟨rfl, rfl, rfl, rfl, rfl, rfl, rfl, hle, rfl, rfl⟩
  · exact fun i hi => mem_tokens_waitForAck hi

theorem Good.made (hgood : Good h peer n a) (hopen : a.closeFlag = false)
    (message : DecryptedMessage α) (rest : σ) :
    Made message a (a.sendMessageImpl message rest) ∧
      ∀ i, i ∈ a.outboundTokens.toList ∨
          a.seqNoState.hisInSeqNo ≤ i ∧ i = a.seqNoState.myOutSeqNo →
        i ∈ (a.sendMessageImpl message rest).outboundTokens.toList := by
  refine sendMessageImpl_made hopen ?_ hgood.pfs_le message rest
  rw [hgood.myIn_eq]
  omega

/-- The invariant does not see what we send. -/
theorem Good.send (hgood : Good h peer n a) (message : DecryptedMessage α) (rest : σ) :
    Good h peer n (a.sendMessageImpl message rest) := by
  cases hopen : a.closeFlag with
  | true =>
    rw [sendMessageImpl, if_pos hopen]
    exact hgood
  | false =>
    obtain ⟨hmade, htokens⟩ := hgood.made hopen message rest
    have hseq := hmade.seqNoState_eq
    constructor
    case x_eq => rw [hmade.x_eq, hgood.x_eq]
    case myIn_eq => rw [hseq, ← hgood.myIn_eq]
    case length_eq => rw [hmade.processed_eq, hgood.length_eq]
    case processed => rw [hmade.processed_eq]; exact hgood.processed
    case hisIn_le => rw [hseq]; exact hgood.hisIn_le
    case hisLayer_le => rw [hseq]; exact hgood.hisLayer_le
    case tokens =>
      intro i hi hlt
      rw [hseq] at hi hlt
      dsimp only at hlt
      by_cases hold : i < a.seqNoState.myOutSeqNo
      · exact htokens i (.inl (hgood.tokens i hi hold))
      · exact htokens i (.inr ⟨hi, by omega⟩)
    case pfs_le => rw [hseq]; exact hmade.pfs_le
    case nextLogEventId_ne => rw [hmade.nextLogEventId_eq]; exact hgood.nextLogEventId_ne
    case waiting =>
      intro p hp
      rw [hmade.pending_eq] at hp
      obtain ⟨k, l, hkey, hk, hl, hlayer, hack, hlog⟩ := hgood.waiting p hp
      refine ⟨k, l, hkey, hk, hl, hlayer, ?_, hlog⟩
      rw [hseq]
      exact le_trans hack (Int.le_add_of_nonneg_right (by decide))
    case closed => rw [hmade.closeFlag_eq, hmade.fatal_eq]; exact hgood.closed

/-! ## Asking for what is missing -/

/-- The other side has been asked for its message number `i`. -/
def Requested (a : Actor α σ) (i : Int) : Prop :=
  ∃ l ∈ a.sent, ∃ s e, l.message.action? = some (.resend s e) ∧ s.tdiv 2 ≤ i ∧ i ≤ e.tdiv 2

/-- What `resend_end_seq_no` stands for. -/
structure Asked (n : Nat) (a : Actor α σ) : Prop where
  /-- Behind what was asked for, a message waits. -/
  behind : n ≤ a.seqNoState.resendEndSeqNo → a.Waits (a.seqNoState.resendEndSeqNo + 1)
  requested : ∀ i : Int, n ≤ i → i ≤ a.seqNoState.resendEndSeqNo → a.Requested i

/-- No message that was processed or waits is lost. -/
theorem Asked.mono (hasked : Asked n a) {n' : Nat} (hn : n ≤ n') (hframe : Frame a a')
    (hkept : ∀ i : Int, i < n ∨ a.Waits i → i < n' ∨ a'.Waits i) : Asked n' a' where
  behind := by
    rw [hframe.resendEnd_eq]
    intro hle
    have hwaits := hasked.behind (by omega)
    exact (hkept _ (.inr hwaits)).resolve_left (by omega)
  requested := by
    intro i hi hle
    rw [hframe.resendEnd_eq] at hle
    rw [Requested, hframe.sent_eq]
    exact hasked.requested i (by omega) hle

theorem Made.waits_iff (hmade : Made message a a') (i : Int) :
    a'.Waits i ↔ a.Waits i := by rw [Waits, Waits, hmade.pending_eq]

theorem Made.requested_mono (hmade : Made message a a') {i : Int} (hi : a.Requested i) :
    a'.Requested i := by
  obtain ⟨l, hl, hrest⟩ := hi
  exact ⟨l, hmade.sent_eq ▸ mem_append_left _ hl, hrest⟩

theorem Made.resendEnd_eq (hmade : Made message a a')
    (hother : ∀ s e, message.action? ≠ some (.resend s e)) :
    a'.seqNoState.resendEndSeqNo = a.seqNoState.resendEndSeqNo := by
  rw [hmade.seqNoState_eq]
  rw [resendEnd]
  exact hother

/-- Everything we send apart from requests. -/
theorem Asked.send (hasked : Asked n a) (hgood : Good h peer n a)
    (hother : ∀ s e, message.action? ≠ some (.resend s e)) (rest : σ) :
    Asked n (a.sendMessageImpl message rest) := by
  cases hopen : a.closeFlag with
  | true =>
    rw [sendMessageImpl, if_pos hopen]
    exact hasked
  | false =>
    obtain ⟨hmade, -⟩ := hgood.made hopen message rest
    constructor
    · rw [hmade.resendEnd_eq hother, hmade.waits_iff]
      exact hasked.behind
    · rw [hmade.resendEnd_eq hother]
      exact fun i hi hle => hmade.requested_mono (hasked.requested i hi hle)

/-- After a request for everything before the message number `k`. -/
theorem Asked.request (hgood : Good h peer n a) (hx : IsRole x) (hopen : a.closeFlag = false)
    (hwaits : a.Waits k) (hk : n < k) (hend : a.seqNoState.resendEndSeqNo < (k : Int) - 1)
    (randomId : Int) (rest : σ) :
    let a' := a.sendMessageImpl
      (.service randomId (.resend ((n : Int) * 2 + x) (((k : Int) - 1) * 2 + x))) rest
    Asked n a' ∧ a'.seqNoState.resendEndSeqNo = (k : Int) - 1 := by
  have hstart : (n : Int) * 2 + x = wire n x := by rw [wire]; omega
  have hfinish : ((k : Int) - 1) * 2 + x = wire (k - 1) x := by rw [wire]; omega
  rw [hstart, hfinish]
  obtain ⟨hmade, -⟩ :=
    hgood.made hopen (.service randomId (.resend (wire n x) (wire (k - 1) x))) rest
  have hend' : (a.sendMessageImpl (.service randomId
      (.resend (wire n x) (wire (k - 1) x))) rest).seqNoState.resendEndSeqNo = k - 1 := by
    rw [hmade.seqNoState_eq]
    dsimp only [DecryptedMessage.action?, resendEnd]
    rw [wire_tdiv hx]
    omega
  refine ⟨⟨fun _ => ?_, fun i hi hle => ?_⟩, hend'⟩
  · rw [hend', Int.sub_add_cancel]
    exact (hmade.waits_iff _).mpr hwaits
  refine ⟨_, hmade.sent_eq ▸ mem_append_right _ (mem_singleton_self _), wire n x,
    wire (k - 1) x, rfl, ?_, ?_⟩
  · rw [wire_tdiv hx]
    exact hi
  · rw [wire_tdiv hx]
    omega

/-- The gap before the first message that waits has been asked for. -/
def GapAsked (a : Actor α σ) : Prop :=
  ∀ j, a.Waits j → (∀ i, a.Waits i → j ≤ i) → j ≤ a.seqNoState.resendEndSeqNo + 1

/-- **Neither `CHECK` fails**: as long as not everything that was asked for has come, the first
message that waits is not behind it. -/
theorem Good.requestMissing_ok (hgood : Good h peer n a) (hx : IsRole x) (hnext : ¬a.Waits n)
    (hasked : Asked n a) :
    ∃ a', a.requestMissing = some a' ∧ Good h peer n a' ∧ Asked n a' ∧
      a'.pendingInboundMessages = a.pendingInboundMessages ∧ a'.closeFlag = a.closeFlag ∧
      (a.closeFlag = false → a'.GapAsked) := by
  rw [requestMissing]
  cases hlist : a.pendingInboundMessages.toList with
  | nil =>
    exact ⟨a, rfl, hgood, hasked, rfl, rfl, fun _ j hj => absurd hj (not_waits_of_nil hlist j)⟩
  | cons p l =>
    have hp : p ∈ a.pendingInboundMessages.toList := hlist ▸ mem_cons_self
    have hwaits : a.Waits p.1 := ⟨p, hp, rfl⟩
    have hfirst : ∀ i, a.Waits i → p.1 ≤ i := by
      rintro i ⟨q, hq, rfl⟩
      exact Ordered.le_of_head hlist hq
    obtain ⟨k, -, hk, hle, -⟩ := hgood.waiting p hp
    have hne : p.1 ≠ n := fun heq => hnext (heq ▸ hwaits)
    dsimp only
    rw [hgood.myIn_eq, if_neg (by omega)]
    split
    · refine ⟨a, rfl, hgood, hasked, rfl, rfl, fun _ j hj hmin => ?_⟩
      have := hmin p.1 hwaits
      omega
    rw [if_neg ?_]
    swap
    · -- what was asked for would end behind the first message that waits
      intro hnot
      have := hfirst _ (hasked.behind (by omega))
      omega
    cases hopen : a.closeFlag with
    | true =>
      -- a closed chat sends nothing
      have hsame : ∀ message, a.sendMessageImpl message a.rest = a := fun message => by
        rw [sendMessageImpl, if_pos hopen]
      rw [hsame]
      exact ⟨a, rfl, hgood, hasked, rfl, hopen, nofun⟩
    | false =>
      have hpn : p.1 - 1 = k - 1 := by rw [hk]
      rw [hgood.x_eq, hpn]
      obtain ⟨hasked', hend'⟩ := Asked.request hgood hx hopen (hk ▸ hwaits) (by omega)
        (by omega) 0 a.rest
      obtain ⟨hmade, -⟩ := hgood.made hopen (.service 0
        (.resend (n * 2 + x) ((k - 1) * 2 + x))) a.rest
      refine ⟨_, rfl, hgood.send _ _, hasked', hmade.pending_eq,
        hmade.closeFlag_eq.trans hopen, fun _ j hj hmin => ?_⟩
      have := hmin p.1 ((hmade.waits_iff _).mpr hwaits)
      omega

/-! ## Every event -/

/-- Between events. -/
structure Settled (h : Handlers α σ) (peer : Peer α x) (n : Nat) (a : Actor α σ) : Prop
    extends Good h peer n a where
  asked : Asked n a
  /-- The next message does not wait. -/
  next : a.closeFlag = false → ¬a.Waits n
  gapAsked : a.closeFlag = false → a.GapAsked

theorem Good.runPfs_ok (hgood : Good h peer n a) (hasked : Asked n a)
    (hopen : a.closeFlag = false) :
    Good h peer n (a.runPfs h) ∧ Asked n (a.runPfs h) ∧
      (a.runPfs h).pendingInboundMessages = a.pendingInboundMessages := by
  rw [runPfs]
  generalize h.runPfs a.seqNoState a.rest = sends
  induction sends generalizing a with
  | nil => exact ⟨hgood, hasked, rfl⟩
  | cons p sends ih =>
    obtain ⟨hmade, -⟩ := hgood.made hopen (.service 0 (.other p.1)) p.2
    obtain ⟨hgood', hasked', hpending'⟩ :=
      ih (hgood.send (.service 0 (.other p.1)) p.2)
        (hasked.send hgood (fun s e hse => by cases hse) p.2) (hmade.closeFlag_eq.trans hopen)
    exact ⟨hgood', hasked', hpending'.trans hmade.pending_eq⟩

theorem Good.loop_ok (hgood : Good h peer n a) (hx : IsRole x) (hasked : Asked n a) :
    ∃ n' a', a.loop h = some a' ∧ Settled h peer n' a' ∧
      (a.closeFlag = true → a'.closeFlag = true) ∧
      ∀ i : Int, i < n' ∨ a'.Waits i ↔ i < n ∨ a.Waits i := by
  rw [loop]
  split
  · rename_i hclosed
    exact ⟨n, a, rfl, { hgood with
      asked := hasked
      next := fun hopen => by rw [hopen] at hclosed; cases hclosed
      gapAsked := fun hopen => by rw [hopen] at hclosed; cases hclosed }, id, fun i => Iff.rfl⟩
  rename_i hopen
  obtain ⟨hgood1, hasked1, hpending1⟩ := hgood.runPfs_ok hasked (by simpa using hopen)
  obtain ⟨n', a2, hreplay, hgood2, hframe2, hnext2, hsame2⟩ :=
    hgood1.replayPending_ok hx le_rfl
  have hle : n ≤ n' := by
    by_contra hlt
    rcases (hsame2 n').mpr (.inl (by omega)) with hself | hwaits
    · exact absurd hself (lt_irrefl _)
    · exact hnext2 hwaits
  have hasked2 := hasked1.mono hle hframe2 fun i hi => (hsame2 i).mpr hi
  obtain ⟨a3, hrequest, hgood3, hasked3, hpending3, hclose3, hgap3⟩ :=
    hgood2.requestMissing_ok hx hnext2 hasked2
  have hwaits3 : ∀ i, a3.Waits i ↔ a2.Waits i := fun i => by rw [Waits, Waits, hpending3]
  have hwaits1 : ∀ i, (a.runPfs h).Waits i ↔ a.Waits i := fun i => by
    rw [Waits, Waits, hpending1]
  refine ⟨n', a3, ?_, { hgood3 with
    asked := hasked3
    next := fun _ => (hwaits3 n').not.mpr hnext2
    gapAsked := fun hopen3 => hgap3 (hclose3 ▸ hopen3) }, fun hclosed => absurd hclosed hopen,
    fun i => ?_⟩
  · rw [runFillGaps, hreplay, Option.bind_some, hrequest]
  · rw [hwaits3, hsame2, hwaits1]

/-- A message is processed, kept or recognized, by its number. -/
theorem Good.receive (hgood : Good h peer n a) (hx : IsRole x) (hnext : ¬a.Waits n)
    {l : MessageLayer α} (hl : Fits peer k a l) :
    ∃ n' a' status,
      a.doInboundMessageDecryptedUnchecked h { decryptedMessageLayer := l } = some (a', status) ∧
      Good h peer n' (a'.checkStatus status) ∧ Frame a (a'.checkStatus status) ∧ n ≤ n' ∧
      ∀ i : Int, i < n' ∨ (a'.checkStatus status).Waits i ↔ i < n ∨ a.Waits i ∨ i = k := by
  rcases lt_trichotomy k n with hlt | rfl | hgt
  · have hcode : ∀ e, some (⟨1, "Old seq_no"⟩ : Error) = some e → h.Refuses e ∨ e.code = 1 := by
      intro e he
      cases he
      exact .inr rfl
    obtain ⟨hgood', hframe, hpending⟩ := hgood.checkStatus_ok hcode
    refine ⟨n, a, _, hgood.old hx hlt hl, hgood', hframe, le_rfl, fun i => ?_⟩
    constructor
    · rintro (hi | hi)
      · exact .inl hi
      · exact .inr (.inl hi)
    · rintro (hi | hi | hi)
      · exact .inl hi
      · exact .inr hi
      · exact .inl (by omega)
  · obtain ⟨a1, status, hprocess, hgood1, hframe1, hpending1, hstatus⟩ :=
      hgood.next (m := { decryptedMessageLayer := l }) hx hl hnext
    obtain ⟨hgood2, hframe2, hpending2⟩ := hgood1.checkStatus_ok fun e he => .inl (hstatus e he)
    refine ⟨k + 1, a1, status, hprocess, hgood2, hframe1.trans hframe2, Nat.le_add_right k 1,
      fun i => ?_⟩
    rw [Waits, hpending2, hpending1]
    constructor
    · rintro (hi | hi)
      · rcases lt_or_eq_of_le (show i ≤ k by omega) with hi | hi
        · exact .inl hi
        · exact .inr (.inr hi)
      · exact .inr (.inl hi)
    · rintro (hi | hi | hi)
      · exact .inl (by omega)
      · exact .inr hi
      · exact .inl (by omega)
  · obtain ⟨a1, hkeep, hgood1, hframe1, hwaits1⟩ := hgood.early hx hgt hl
    refine ⟨n, a1, none, hkeep, hgood1, hframe1, le_rfl, fun i => ?_⟩
    rw [checkStatus, hwaits1, or_comm (a := i = k)]

/-- **A message comes**: for the first time or again, early or in its turn. -/
theorem Settled.deliver (hset : Settled h peer n a) (hx : IsRole x)
    (hopen : a.closeFlag = false) {l : MessageLayer α} (hl : Fits peer k a l) :
    ∃ n' a', a.addInboundMessage h l 2 = some a' ∧ Settled h peer n' a' ∧
      ∀ i : Int, i < n' ∨ a'.Waits i ↔ i < n ∨ a.Waits i ∨ i = k := by
  have hpos : ¬l.inSeqNo < 0 := by
    have := wire_nonneg hx.other (peer.ack k)
    rw [hl.inSeqNo_eq]
    omega
  rw [addInboundMessage, if_neg (by simp [hopen]), doInboundMessageEncrypted]
  rw [if_neg (by omega), if_neg hpos]
  -- the layer of the chat is not looked at
  have hconfig : ∃ b, (if a.hisLayer < l.layer then { a with hisLayer := l.layer } else a) = b ∧
      Good h peer n b ∧ Fits peer k b l ∧ Asked n b ∧
      b.pendingInboundMessages = a.pendingInboundMessages := by
    split
    · exact ⟨_, rfl, { hset.toGood with }, { hl with }, { hset.asked with }, rfl⟩
    · exact ⟨a, rfl, hset.toGood, hl, hset.asked, rfl⟩
  obtain ⟨b, hb, hgood, hfits, hasked, hpending⟩ := hconfig
  rw [hb]
  have hwaits : ∀ i, b.Waits i ↔ a.Waits i := fun i => by rw [Waits, Waits, hpending]
  have hnext : ¬b.Waits n := (hwaits n).not.mpr (hset.next hopen)
  obtain ⟨n1, a1, status, hreceive, hgood1, hframe1, hle, hsame1⟩ := hgood.receive hx hnext hfits
  have hasked1 := hasked.mono hle hframe1 fun i hi =>
    (hsame1 i).mpr (hi.imp_right .inl)
  obtain ⟨n', a', hloop, hset', -, hsame'⟩ := hgood1.loop_ok hx hasked1
  refine ⟨n', a', ?_, hset', fun i => ?_⟩
  · rw [hreceive]
    exact hloop
  · rw [hsame', hsame1, hwaits]

/-- A message of ours that asks for nothing. -/
theorem Settled.send (hset : Settled h peer n a) (hopen : a.closeFlag = false)
    (message : DecryptedMessage α) (hother : ∀ s e, message.action? ≠ some (.resend s e))
    (rest : σ) :
    Settled h peer n (a.sendMessageImpl message rest) ∧
      ∀ i, (a.sendMessageImpl message rest).Waits i ↔ a.Waits i := by
  obtain ⟨hmade, -⟩ := hset.toGood.made hopen message rest
  refine ⟨{ hset.toGood.send message rest with
    asked := hset.asked.send hset.toGood hother rest
    next := fun _ => (hmade.waits_iff n).not.mpr (hset.next hopen)
    gapAsked := fun _ j hj hmin => ?_ }, hmade.waits_iff⟩
  rw [hmade.resendEnd_eq hother]
  exact hset.gapAsked hopen j ((hmade.waits_iff j).mp hj) fun i hi =>
    hmin i ((hmade.waits_iff i).mpr hi)

end Steps

end Actor

/-! ## Runs -/

section Run

variable {h : Handlers α σ} {x : Int} {peer : Peer α x} {rest : σ} {n : Nat} {a : Actor α σ}
  {history : List (Event α σ)}

open Actor

theorem Settled.start : Settled h peer 0 ({ x := x, rest := rest } : Actor α σ) where
  x_eq := rfl
  myIn_eq := rfl
  length_eq := rfl
  processed i hi := absurd hi (Nat.not_lt_zero i)
  hisIn_le := by
    show 0 ≤ _
    omega
  hisLayer_le _ _ _ hl := peer.layer_nonneg hl
  tokens i _ hi := by
    have : (i : Int) < 0 := hi
    omega
  pfs_le := le_rfl
  nextLogEventId_ne := Nat.one_ne_zero
  waiting p hp := by cases hp
  closed hclosed := by cases hclosed
  asked := by
    refine ⟨fun hle => ?_, fun i hi hle => ?_⟩
    · have : ((0 : Nat) : Int) ≤ -1 := hle
      omega
    · have : i ≤ -1 := hle
      omega
  next _ := by
    rintro ⟨p, hp, -⟩
    cases hp
  gapAsked := by
    rintro _ j ⟨p, hp, -⟩
    cases hp

/-- A message that is delivered is in hand. -/
theorem fits_of_allowed {l : MessageLayer α} {v : Int} (hallowed : Allowed peer a (.deliver l v)) :
    v = 2 ∧ ∃ k : Nat, l.outSeqNo.tdiv 2 = k ∧ Fits peer k a l := by
  obtain ⟨hv, k, hl, hack, hmade⟩ := hallowed
  refine ⟨hv, k, ?_, ⟨l, hl, rfl⟩, hack, fun s e hse => ?_⟩
  · rw [peer.outSeqNo_eq hl, wire_tdiv peer.isRole]
  · obtain ⟨n, hn, hs, he, hfit⟩ := peer.resend_eq hl hse
    have hlt := hmade s e hse
    rw [he, wire_tdiv peer.isRole.other] at hlt
    exact ⟨n, hn, hs, he, hfit, hlt⟩

/-- What holds between events: the messages that have come are those that were processed and those
that wait. -/
def Kept (h : Handlers α σ) (peer : Peer α x) (history : List (Event α σ)) (a : Actor α σ) : Prop :=
  ∃ n, Settled h peer n a ∧
    (a.closeFlag = false → ∀ k : Nat, (k : Int) ∈ delivered history ↔ k < n ∨ a.Waits k)

/-- A closed chat does nothing. -/
theorem step_of_closed (hclosed : a.closeFlag = true) (e : Event α σ) : a.step h e = some a := by
  cases e with
  | deliver l v | loop => exact if_pos hclosed
  | sendMessage randomId | sendAction randomId action rest => exact congrArg some (if_pos hclosed)

theorem mem_delivered_other {e : Event α σ} (he : ∀ l v, e ≠ .deliver l v) {i : Int} :
    i ∈ delivered (history ++ [e]) ↔ i ∈ delivered history := by
  rw [mem_delivered_concat, or_iff_left]
  rintro ⟨l, v, heq, -⟩
  exact he l v heq

/-- **Every event keeps the order, and no `CHECK` fails.** -/
theorem Kept.step (hkept : Kept h peer history a) {e : Event α σ} (he : Allowed peer a e) :
    ∃ a', a.step h e = some a' ∧ Kept h peer (history ++ [e]) a' := by
  obtain ⟨n, hset, hcome⟩ := hkept
  cases hopen : a.closeFlag with
  | true =>
    refine ⟨a, step_of_closed hopen e, n, hset, fun hfalse => ?_⟩
    rw [hopen] at hfalse
    cases hfalse
  | false =>
    have hcome := hcome hopen
    cases e with
    | deliver l v =>
      obtain ⟨rfl, k, hk, hfits⟩ := fits_of_allowed he
      obtain ⟨n', a', hstep, hset', hsame⟩ := hset.deliver peer.isRole hopen hfits
      refine ⟨a', hstep, n', hset', fun _ j => ?_⟩
      rw [mem_delivered_concat, hcome, ← Int.ofNat_lt, ← Int.ofNat_lt, hsame, or_assoc]
      refine or_congr_right (or_congr_right ?_)
      constructor
      · rintro ⟨l', v', heq, hj⟩
        cases heq
        rw [← hj, hk]
      · rintro hj
        exact ⟨l, 2, rfl, hk.trans hj.symm⟩
    | sendMessage randomId =>
      obtain ⟨hset', hwaits⟩ := hset.send hopen (.message randomId)
        (nofun) a.rest
      refine ⟨_, rfl, n, hset', fun _ j => ?_⟩
      rw [mem_delivered_other (by simp), hcome, hwaits]
    | sendAction randomId action rest =>
      obtain ⟨hset', hwaits⟩ := hset.send hopen (.service randomId (.other action))
        (nofun) rest
      refine ⟨_, rfl, n, hset', fun _ j => ?_⟩
      rw [mem_delivered_other (by simp), hcome, hwaits]
    | loop =>
      obtain ⟨n', a', hstep, hset', -, hsame⟩ := hset.toGood.loop_ok peer.isRole hset.asked
      refine ⟨a', hstep, n', hset', fun _ j => ?_⟩
      rw [mem_delivered_other (by simp), hcome, ← Int.ofNat_lt, ← Int.ofNat_lt, hsame]

theorem Run.kept (hrun : Run h peer rest history a) : Kept h peer history a := by
  induction hrun with
  | start =>
    refine ⟨0, Settled.start, fun _ k => ⟨nofun, ?_⟩⟩
    rintro (hk | ⟨p, hp, -⟩)
    · exact absurd hk (Nat.not_lt_zero k)
    · cases hp
  | step hrun he hs ih =>
    obtain ⟨a', hs', hkept⟩ := ih.step he
    cases hs.symm.trans hs'
    exact hkept

/-- **Every message of the other side is processed once, in its turn and as soon as it can be.**

In every state that a chat with an honest side can reach, no `CHECK` fails at the next event, the
messages that were processed are the first ones, in order, and `my_in_seq_no` is their number. As
long as the rest of the actor does not close the chat, the first message that was not processed
has not come, whatever else has come waits, and the gap before it has been asked for. So nothing
waits once everything that was asked for has come. -/
theorem exactly_once_in_order (hrun : Run h peer rest history a) :
    (∀ e, Allowed peer a e → (a.step h e).isSome) ∧
    a.seqNoState.myInSeqNo = a.processed.length ∧
    (∀ i < a.processed.length, ∃ l, peer.sends i l ∧ a.processed[i]? = some l.obeyed) ∧
    (a.closeFlag = true → ∃ e, a.fatal = some e ∧ h.Refuses e) ∧
    (a.closeFlag = false →
      (a.processed.length : Int) ∉ delivered history ∧
      (∀ k : Nat, (k : Int) ∈ delivered history ↔ k < a.processed.length ∨ a.Waits k) ∧
      (∀ i : Nat, a.processed.length ≤ i → (∃ j, a.Waits j) → (∀ j, a.Waits j → i < j) →
        a.Requested i) ∧
      ((∀ i : Nat, a.Requested i → (i : Int) ∈ delivered history) → ∀ j, ¬a.Waits j)) := by
  have hkept := hrun.kept
  refine ⟨fun e he => ?_, ?_⟩
  · obtain ⟨a', hs, -⟩ := hkept.step he
    exact Option.isSome_iff_exists.mpr ⟨a', hs⟩
  obtain ⟨n, hset, hcome⟩ := hkept
  rw [hset.length_eq]
  refine ⟨hset.myIn_eq, hset.processed, hset.closed, fun hopen => ?_⟩
  have hmissing : (n : Int) ∉ delivered history := by
    rw [hcome hopen n]
    exact not_or.mpr ⟨lt_irrefl n, hset.next hopen⟩
  have hrequested : ∀ i : Nat, n ≤ i → (∃ j, a.Waits j) → (∀ j, a.Waits j → i < j) →
      a.Requested i := by
    intro i hi hsome hbefore
    -- the first message that waits is behind `i`
    obtain ⟨j, hj, hmin⟩ := exists_first_waiting hsome
    have hasked := hset.gapAsked hopen j hj hmin
    have := hbefore j hj
    exact hset.asked.requested i (by omega) (by omega)
  refine ⟨hmissing, hcome hopen, hrequested, fun hanswered j hj => hmissing (hanswered n ?_)⟩
  refine hrequested n le_rfl ⟨j, hj⟩ ?_
  rintro i ⟨p, hp, rfl⟩
  obtain ⟨k, -, hk, hle, -⟩ := hset.waiting p hp
  have hne : p.1 ≠ n := fun heq => hset.next hopen ⟨p, hp, heq⟩
  omega

/-- Two messages, of a side that has processed nothing. -/
def twoMessages : Peer Unit 0 where
  isRole := .inl rfl
  sends k l := k < 2 ∧ l = ⟨73, wire 0 1, wire k 0, .message k⟩
  ack _ := 0
  ack_mono _ := le_rfl
  inSeqNo_eq := by
    rintro k l ⟨-, rfl⟩
    rfl
  outSeqNo_eq := by
    rintro k l ⟨-, rfl⟩
    rfl
  layer_nonneg := by
    rintro k l ⟨-, rfl⟩
    exact Int.le_of_lt (by decide : (0 : Int) < 73)
  layer_mono := by
    rintro j k l l' - ⟨-, rfl⟩ ⟨-, rfl⟩
    exact Int.le_refl 73
  resend_eq := by
    rintro k l s e ⟨-, rfl⟩ hse
    cases hse

/-- The rest of the actor takes everything. -/
def obliging : Handlers Unit Unit := ⟨fun _ _ => .ok (), fun _ _ => []⟩

/-- The second message comes before the first one, and then again. -/
theorem exactly_once_in_order_swapped :
    ∃ a, Run obliging twoMessages ()
        [.deliver ⟨73, wire 0 1, wire 1 0, .message 1⟩ 2,
          .deliver ⟨73, wire 0 1, wire 0 0, .message 0⟩ 2,
          .deliver ⟨73, wire 0 1, wire 1 0, .message 1⟩ 2] a ∧
      a.processed.map (·.message) = [.message 0, .message 1] ∧
      ∀ e, Allowed twoMessages a e → (a.step obliging e).isSome := by
  have hallowed : ∀ (a : Actor Unit Unit) k, k < 2 → 0 ≤ a.seqNoState.myOutSeqNo →
      Allowed twoMessages a (.deliver ⟨73, wire 0 1, wire k 0, .message k⟩ 2) := by
    intro a k hk hout
    exact ⟨rfl, k, ⟨hk, rfl⟩, hout, nofun⟩
  have h0 : Run obliging twoMessages () [] { x := 0, rest := () } := .start
  have h1 := h0.step (e := .deliver ⟨73, wire 0 1, wire 1 0, .message 1⟩ 2)
    (hallowed _ 1 (by decide) (by decide)) rfl
  have h2 := h1.step (e := .deliver ⟨73, wire 0 1, wire 0 0, .message 0⟩ 2)
    (hallowed _ 0 (by decide) (by decide)) rfl
  have h3 := h2.step (e := .deliver ⟨73, wire 0 1, wire 1 0, .message 1⟩ 2)
    (hallowed _ 1 (by decide) (by decide)) rfl
  exact ⟨_, h3, rfl, (exactly_once_in_order h3).1⟩

/-! ## A gap that is too long -/

/-- The chat after `n` messages of ours. -/
def sendMany : Nat → Actor Unit Unit
  | 0 => { x := 0, rest := () }
  | n + 1 => (sendMany n).sendMessageImpl (.message n) ()

theorem sendMany_made (n : Nat) :
    (sendMany n).closeFlag = false ∧ (sendMany n).pfsMessageId ≤ (sendMany n).seqNoState.messageId ∧
    (sendMany n).x = 0 ∧ (sendMany n).hisLayer = 8 ∧ (sendMany n).processed = [] ∧
    (sendMany n).seqNoState = { messageId := n, myOutSeqNo := n } ∧
    (sendMany n).sent = (range n).map fun i => ⟨73, wire 0 0, wire i 1, .message i⟩ := by
  induction n with
  | zero => exact ⟨rfl, le_rfl, rfl, rfl, rfl, rfl, rfl⟩
  | succ n ih =>
    obtain ⟨hopen, hpfs, hx, hlayer, hprocessed, hseq, hsent⟩ := ih
    have hin : (sendMany n).seqNoState.myInSeqNo = 0 := by rw [hseq]
    obtain ⟨hmade, -⟩ := sendMessageImpl_made hopen (by rw [hin]; decide) hpfs (.message n) ()
    have hseq' := hmade.seqNoState_eq
    refine ⟨hmade.closeFlag_eq.trans hopen, ?_, hmade.x_eq.trans hx,
      hmade.hisLayer_eq.trans hlayer, hmade.processed_eq.trans hprocessed, ?_, ?_⟩
    · rw [sendMany, hseq']
      exact hmade.pfs_le
    · rw [sendMany, hseq', hseq]
      rfl
    rw [sendMany, hmade.sent_eq, hsent, range_succ, map_append, hx, hseq]
    have hnow : (sendMany n).currentLayer = 73 := by
      rw [currentLayer, hlayer]
      rfl
    have hwire : ((n : Int) + 1) * 2 - 1 - 0 = wire n 1 := by
      rw [wire]
      omega
    simp only [hnow, hwire]
    rfl

/-- More than 1001 messages are not sent again. -/
theorem addInboundMessage_long {a : Actor Unit Unit} (hopen : a.closeFlag = false) (hx : a.x = 0)
    (hlayer : a.hisLayer = 8)
    (hcheck : checkSeqNo 0 a.seqNoState (wire 0 1) (wire 0 0) 73 = .ok ()) :
    a.addInboundMessage obliging
        ⟨73, wire 0 1, wire 0 0, .service 0 (.resend (wire 0 1) (wire 1001 1))⟩ 2 =
      some { a with
        hisLayer := 73
        closeFlag := true
        fatal := some ⟨0, "Won't resend more than 1000 messages"⟩ } := by
  have hlong : ∀ b : Actor Unit Unit, b.processResend (wire 0 1) (wire 1001 1) =
      (b, some ⟨0, "Won't resend more than 1000 messages"⟩) := fun b => rfl
  rw [addInboundMessage, if_neg (by simp [hopen]), doInboundMessageEncrypted]
  rw [hlayer, if_neg (by decide), if_neg (by decide), if_pos (by decide),
    doInboundMessageDecryptedUnchecked]
  rw [hx, hcheck]
  dsimp only [DecryptedMessage.upgrade, obeyResend]
  rw [hlong, Option.bind_some]
  rw [checkStatus, if_neg (by decide), if_neg (by simp [hopen])]
  rfl

/-- The last of 1003 messages comes first, and the actor on the other side asks for the others. The
actor that has sent them **does not send them again but closes the chat**, and the request is never
processed. -/
theorem long_gap_closes :
    ∃ (a a' : Actor Unit Unit) (last request : MessageLayer Unit),
      a = sendMany 1003 ∧ last ∈ a.sent ∧
      (Actor.addInboundMessage obliging { x := 1, rest := () } last 2).map Actor.sent =
        some [request] ∧
      request = ⟨73, wire 0 1, wire 0 0, .service 0 (.resend (wire 0 1) (wire 1001 1))⟩ ∧
      a.addInboundMessage obliging request 2 = some a' ∧
      a'.processed = [] ∧ a'.closeFlag = true := by
  obtain ⟨hopen, -, hx, hlayer, hprocessed, hseq, hsent⟩ := sendMany_made 1003
  generalize sendMany 1003 = a at *
  have hcheck : checkSeqNo 0 a.seqNoState (wire 0 1) (wire 0 0) 73 = .ok () := by
    rw [hseq]
    rfl
  refine ⟨a, _, ⟨73, wire 0 0, wire 1002 1, .message 1002⟩,
    ⟨73, wire 0 1, wire 0 0, .service 0 (.resend (wire 0 1) (wire 1001 1))⟩, rfl, ?_, rfl, rfl,
    addInboundMessage_long hopen hx hlayer hcheck, hprocessed, rfl⟩
  rw [hsent]
  exact mem_map.mpr ⟨1002, mem_range.mpr (by decide), rfl⟩

end Run

end Tdlib.SecretChat
