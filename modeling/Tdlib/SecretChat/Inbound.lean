import Tdlib.Lib.Ordered
import Tdlib.SecretChat.SeqNo

/-!
# Messages that come in

The part of a `SecretChatActor` that puts the messages of the other side into their
order. A message that comes too early waits in a map, and the other side is asked to
send again what is missing. A message that asks us to send again is obeyed at once,
even when it comes too early itself.

What a message does once it is its turn is not looked at: the actions that are not
about the order have any type `α`, the rest of the actor has any state `σ`, and
`Handlers` says what becomes of it. The chat is `Ready` and its binlog has been
replayed. A message is given as it is after decryption. Numbers of messages fit into
an `int32` since they do so on the wire. The random ids of messages are new and never
looked at here, so that the actions of the loop get 0. `none` stands for a failed `CHECK`.
-/

namespace Tdlib.SecretChat

open Lib

/-- `MAX_RESEND_COUNT`. -/
def maxResendCount : Nat := 1000

namespace SecretChatLayer

def default : Int := 73

def mtproto2 : Int := 73

def current : Int := 123

end SecretChatLayer

/-- `decryptedMessageAction…`. -/
inductive Action (α : Type) where
  | resend (startSeqNo endSeqNo : Int)
  | noop
  | other (action : α)
deriving DecidableEq

inductive DecryptedMessage (α : Type) where
  | message (randomId : Int)
  | service (randomId : Int) (action : Action α)
  | service8 (randomId : Int) (action : Action α)
deriving DecidableEq

namespace DecryptedMessage

variable {α : Type}

def action? : DecryptedMessage α → Option (Action α)
  | message _ => none
  | service _ action => some action
  | service8 _ action => some action

/-- A service message in its new form. -/
def upgrade : DecryptedMessage α → DecryptedMessage α
  | service8 randomId action => service randomId action
  | m => m

end DecryptedMessage

/-- `decryptedMessageLayer`. -/
structure MessageLayer (α : Type) where
  layer : Int
  inSeqNo : Int
  outSeqNo : Int
  message : DecryptedMessage α
deriving DecidableEq

structure InboundSecretMessage (α : Type) where
  decryptedMessageLayer : MessageLayer α
  /-- Whether the promise of the qts is still to be set. -/
  promise : Bool := true
  logEventId : Nat := 0
  isPending : Bool := false
  seqNo : EventSeqNo := {}
deriving DecidableEq

/-- What the rest of the actor does. -/
structure Handlers (α σ : Type) where
  onInboundAction : α → σ → Except Error σ
  /-- The actions that `run_pfs` sends, each with the rest of the actor after it. -/
  runPfs : SeqNoState → σ → List (α × σ)

structure Actor (α σ : Type) where
  x : Int
  closeFlag : Bool := false
  seqNoState : SeqNoState := {}
  /-- `config_state_.his_layer`. -/
  hisLayer : Int := 8
  /-- `pfs_state_.message_id`: the last action that was looked at. -/
  pfsMessageId : Int := 0
  pendingInboundMessages : Ordered (Prod.fst : Int × InboundSecretMessage α → Int) := .empty _
  /-- The keys of `out_seq_no_to_outbound_message_state_token_`. -/
  outboundTokens : Ordered (id : Int → Int) := .empty _
  rest : σ
  nextLogEventId : Nat := 1
  /-- The log events that have not been erased. -/
  logEvents : List Nat := []
  /-- The messages that were processed, in order. -/
  processed : List (MessageLayer α) := []
  /-- The messages we made, in order. -/
  sent : List (MessageLayer α) := []
  /-- Our messages that were sent again. -/
  resent : List Nat := []
  /-- The error that has closed the chat. -/
  fatal : Option Error := none

namespace Actor

variable {α σ : Type}

/-! ## Sending -/

def currentLayer (a : Actor α σ) : Int :=
  let layer :=
    if a.hisLayer < SecretChatLayer.current then a.hisLayer else SecretChatLayer.current
  if layer < SecretChatLayer.default then SecretChatLayer.default else layer

/-- `update_seq_no_state`, with `on_his_in_seq_no_updated`. -/
def updateSeqNoState (a : Actor α σ) (e : EventSeqNo) : Actor α σ :=
  let s := a.seqNoState.updateSeqNoState e
  { a with
    seqNoState := s
    outboundTokens :=
      if a.seqNoState.hisInSeqNo ≠ s.hisInSeqNo then a.outboundTokens.eraseBelow s.hisInSeqNo
      else a.outboundTokens }

/-- `rest` is what becomes of the rest of the actor. -/
def onOutboundAction (a : Actor α σ) (action : Action α) (messageId : Int) (rest : σ) :
    Actor α σ :=
  if messageId ≤ a.pfsMessageId then a
  else if messageId < a.seqNoState.messageId then a
  else
    let a := { a with pfsMessageId := messageId }
    match action with
    | .resend _ endSeqNo =>
      if a.seqNoState.resendEndSeqNo < endSeqNo.tdiv 2 then
        { a with seqNoState := { a.seqNoState with resendEndSeqNo := endSeqNo.tdiv 2 } }
      else a
    | .noop => a
    | .other _ => { a with rest := rest }

/-- A message that has been acknowledged already need not be sent again. -/
def waitForAck (a : Actor α σ) (outSeqNo : Int) : Actor α σ :=
  if outSeqNo < a.seqNoState.hisInSeqNo then a
  else { a with outboundTokens := a.outboundTokens.insert outSeqNo }

/-- The part of `do_outbound_message_impl` that is not about saving. -/
def doOutboundMessageImpl (a : Actor α σ) (e : EventSeqNo) (action : Option (Action α))
    (rest : σ) : Actor α σ :=
  let a := a.updateSeqNoState e
  let a :=
    match action with
    | some action => a.onOutboundAction action e.messageId rest
    | none => a
  a.waitForAck (e.myOutSeqNo - 1)

/-- `send_message_impl` of a message with a new `random_id`. -/
def sendMessageImpl (a : Actor α σ) (message : DecryptedMessage α) (rest : σ) : Actor α σ :=
  if a.closeFlag then a
  else
    let s := a.seqNoState
    let e : EventSeqNo :=
      { messageId := s.messageId + 1
        myInSeqNo := s.myInSeqNo
        myOutSeqNo := s.myOutSeqNo + 1
        hisInSeqNo := s.hisInSeqNo }
    let encrypted : MessageLayer α :=
      { layer := a.currentLayer
        inSeqNo := e.myInSeqNo * 2 + a.x
        outSeqNo := e.myOutSeqNo * 2 - 1 - a.x
        message := message }
    { a with sent := a.sent ++ [encrypted] }.doOutboundMessageImpl e message.action? rest

/-! ## Receiving -/

/-- `binlog_add`, with the id of the log event. -/
def binlogAdd (a : Actor α σ) : Actor α σ × Nat :=
  ({ a with
      nextLogEventId := a.nextLogEventId + 1
      logEvents := a.logEvents ++ [a.nextLogEventId] },
    a.nextLogEventId)

def binlogErase (a : Actor α σ) (logEventId : Nat) : Actor α σ :=
  { a with logEvents := a.logEvents.filter (· ≠ logEventId) }

/-- `static_cast<uint32>`. -/
def asUint32 (n : Int) : Nat := (n % 0x100000000).toNat

/-- `static_cast<int32>`. -/
def asInt32 (n : Nat) : Int := if n < 0x80000000 then n else n - 0x100000000

/-- The loop over what is asked for: `count` messages from `seqNo` on. -/
def resendLoop (a : Actor α σ) : Nat → Nat → Actor α σ × Option Error
  | 0, _ => (a, none)
  | count + 1, seqNo =>
    match a.outboundTokens.find? (asInt32 seqNo) with
    | none => (a, some ⟨0, s!"Can't resend query [seq_no:{seqNo}]"⟩)
    | some _ => resendLoop { a with resent := a.resent ++ [seqNo] } count (seqNo + 1)

def processResend (a : Actor α σ) (startSeqNo endSeqNo : Int) : Actor α σ × Option Error :=
  let start := asUint32 (startSeqNo.tdiv 2)
  let finish := asUint32 (endSeqNo.tdiv 2)
  if (start + maxResendCount) % 0x100000000 < finish then
    (a, some ⟨0, s!"Won't resend more than {maxResendCount} messages"⟩)
  else resendLoop a (finish + 1 - start) start

def onInboundAction (h : Handlers α σ) (a : Actor α σ) (action : Action α) (messageId : Int) :
    Actor α σ × Option Error :=
  if messageId ≤ a.pfsMessageId then (a, none)
  else if messageId < a.seqNoState.messageId then (a, none)
  else
    let a := { a with pfsMessageId := messageId }
    match action with
    | .resend _ _ => (a, none)
    | .noop => (a, none)
    | .other action =>
      match h.onInboundAction action a.rest with
      | .ok rest => ({ a with rest := rest }, none)
      | .error e => (a, some e)

/-- The log event of a message whose turn it is. -/
def saveLogEvent (a : Actor α σ) (m : InboundSecretMessage α) : Actor α σ :=
  if m.logEventId = 0 then a.binlogAdd.1
  else if m.isPending then a.binlogAdd.1.binlogErase m.logEventId
  else a

/-- `do_inbound_message_decrypted`, with the status. -/
def doInboundMessageDecrypted (h : Handlers α σ) (a : Actor α σ) (m : InboundSecretMessage α) :
    Actor α σ × Option Error :=
  let a := (a.saveLogEvent m).updateSeqNoState m.seqNo
  let a := { a with processed := a.processed ++ [m.decryptedMessageLayer] }
  match m.decryptedMessageLayer.message.action? with
  | some action => onInboundAction h a action m.seqNo.messageId
  | none => (a, none)

def doInboundMessageDecryptedPending (a : Actor α σ) (m : InboundSecretMessage α) :
    Option (Actor α σ) :=
  let seqNo := m.decryptedMessageLayer.outSeqNo.tdiv 2
  if m.logEventId = 0 then
    let (a, logEventId) := a.binlogAdd
    let m := { m with promise := false, isPending := true, logEventId := logEventId }
    some { a with pendingInboundMessages := a.pendingInboundMessages.insert (seqNo, m) }
  else if m.promise then none
  else some { a with pendingInboundMessages := a.pendingInboundMessages.insert (seqNo, m) }

/-- `ActionResend` of a service message is obeyed, and replaced by `ActionNoop`. -/
def obeyResend (a : Actor α σ) : DecryptedMessage α → Actor α σ × Option Error × DecryptedMessage α
  | .service randomId (.resend startSeqNo endSeqNo) =>
    let (a, error) := a.processResend startSeqNo endSeqNo
    (a, error, .service randomId .noop)
  | message => (a, none, message)

/-- What the log event of a message whose turn it is says. -/
def eventSeqNo (a : Actor α σ) (m : InboundSecretMessage α) : EventSeqNo :=
  let l := m.decryptedMessageLayer
  let messageId := a.seqNoState.messageId + 1
  if l.inSeqNo ≠ -1 then
    { messageId := messageId
      myInSeqNo := l.outSeqNo.tdiv 2 + 1
      myOutSeqNo := a.seqNoState.myOutSeqNo
      hisInSeqNo := l.inSeqNo.tdiv 2
      hisLayer := l.layer }
  else { m.seqNo with messageId := messageId, hisLayer := l.layer }

/-- With the status. -/
def doInboundMessageDecryptedUnchecked (h : Handlers α σ) (a : Actor α σ)
    (m : InboundSecretMessage α) : Option (Actor α σ × Option Error) :=
  let l := m.decryptedMessageLayer
  match checkSeqNo a.x a.seqNoState l.inSeqNo l.outSeqNo l.layer with
  | .error e =>
    if e.code ≠ 2 then
      some (if m.logEventId ≠ 0 then a.binlogErase m.logEventId else a, some e)
    else
      match a.obeyResend l.message.upgrade with
      | (a, some e, _) => some (a, some e)
      | (a, none, message) =>
        let m := { m with decryptedMessageLayer := { l with message := message } }
        (a.doInboundMessageDecryptedPending m).map (·, none)
  | .ok () =>
    match a.obeyResend l.message.upgrade with
    | (a, some e, _) => some (a, some e)
    | (a, none, message) =>
      let m := { m with decryptedMessageLayer := { l with message := message } }
      some (a.doInboundMessageDecrypted h { m with seqNo := a.eventSeqNo m })

/-- `cancel_chat` after an error that is not of code 1. -/
def checkStatus (a : Actor α σ) : Option Error → Actor α σ
  | none => a
  | some e =>
    if e.code = 1 then a
    else if a.closeFlag then a
    else { a with closeFlag := true, fatal := some e }

/-- From where the `decryptedMessageLayer` of a message has been fetched. -/
def doInboundMessageEncrypted (h : Handlers α σ) (a : Actor α σ) (l : MessageLayer α)
    (mtprotoVersion : Int) : Option (Actor α σ × Option Error) :=
  let a := if a.hisLayer < l.layer then { a with hisLayer := l.layer } else a
  if l.layer ≥ SecretChatLayer.mtproto2 ∧ mtprotoVersion < 2 then
    some (a, some ⟨0, "MTProto 1.0 encryption is forbidden for this layer"⟩)
  else if l.inSeqNo < 0 then some (a, some ⟨0, "Invalid seq_no"⟩)
  else a.doInboundMessageDecryptedUnchecked h { decryptedMessageLayer := l }

/-! ## Filling gaps -/

/-- The loop of `run_fill_gaps`. Each round erases a message from the map. -/
def replayPending (h : Handlers α σ) : Nat → Actor α σ → Option (Actor α σ)
  | 0, a => some a
  | rounds + 1, a =>
    match a.pendingInboundMessages.toList with
    | [] => some a
    | (nextSeqNo, m) :: _ =>
      if nextSeqNo ≤ a.seqNoState.myInSeqNo then
        let a :=
          { a with pendingInboundMessages := a.pendingInboundMessages.erase nextSeqNo }
        (a.doInboundMessageDecryptedUnchecked h m).bind fun (a, status) =>
          let a := a.checkStatus status
          if (a.pendingInboundMessages.find? nextSeqNo).isSome then none
          else replayPending h rounds a
      else some a

/-- The other side is asked for what is missing before the first message that waits. -/
def requestMissing (a : Actor α σ) : Option (Actor α σ) :=
  match a.pendingInboundMessages.toList with
  | [] => some a
  | (nextSeqNo, _) :: _ =>
    let startSeqNo := a.seqNoState.myInSeqNo
    let finishSeqNo := nextSeqNo - 1
    if ¬startSeqNo ≤ finishSeqNo then none
    else if a.seqNoState.resendEndSeqNo ≥ finishSeqNo then some a
    else if ¬a.seqNoState.resendEndSeqNo < startSeqNo then none
    else
      let action := .resend (startSeqNo * 2 + a.x) (finishSeqNo * 2 + a.x)
      some (a.sendMessageImpl (.service 0 action) a.rest)

def runFillGaps (h : Handlers α σ) (a : Actor α σ) : Option (Actor α σ) :=
  (replayPending h a.pendingInboundMessages.toList.length a).bind requestMissing

def runPfs (h : Handlers α σ) (a : Actor α σ) : Actor α σ :=
  (h.runPfs a.seqNoState a.rest).foldl
    (fun a p => a.sendMessageImpl (.service 0 (.other p.1)) p.2) a

def loop (h : Handlers α σ) (a : Actor α σ) : Option (Actor α σ) :=
  if a.closeFlag then some a else (a.runPfs h).runFillGaps h

def addInboundMessage (h : Handlers α σ) (a : Actor α σ) (l : MessageLayer α)
    (mtprotoVersion : Int) : Option (Actor α σ) :=
  if a.closeFlag then some a
  else (a.doInboundMessageEncrypted h l mtprotoVersion).bind fun (a, status) =>
    (a.checkStatus status).loop h

end Actor

/-! ## Runs -/

/-- What can happen. Every message we send is made by `send`, apart from those of the loop. -/
inductive Event (α σ : Type) where
  | deliver (l : MessageLayer α) (mtprotoVersion : Int)
  | sendMessage (randomId : Int)
  | sendAction (randomId : Int) (action : α) (rest : σ)
  | loop

def Actor.step {α σ : Type} (h : Handlers α σ) (a : Actor α σ) : Event α σ → Option (Actor α σ)
  | .deliver l mtprotoVersion => a.addInboundMessage h l mtprotoVersion
  | .sendMessage randomId => some (a.sendMessageImpl (.message randomId) a.rest)
  | .sendAction randomId action rest =>
    some (a.sendMessageImpl (.service randomId (.other action)) rest)
  | .loop => a.loop h

end Tdlib.SecretChat
