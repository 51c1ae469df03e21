import Tdlib.Lib.Journal
import Tdlib.SecretChat.SeqNo
import Tdlib.Utils.ChangesProcessor

/-!
# Messages that go out, and crashes

What a `SecretChatActor` does so that its sequence numbers survive a crash. A message
is logged before it is sent, its log event is erased only after the counters have been
saved, and after a restart the events that are left are replayed.

A `Chat` is the actor together with the binlog, the callbacks that are on their way to
the actor and the queries that were handed to the network. Everything that is saved goes
through one binlog, so `set_value` of the counters is a record among the log events.
`synced` records are safe; a crash leaves them and any number of those behind them.
Callbacks are worked off in the order in which they come.

Left out are the actions of service messages, the key exchange, messages that come in
too early, and what is saved when a closed chat is taken down. Messages that come in have
passed `check_seq_no`. `none` stands for a failed `CHECK`.
-/

namespace Tdlib.SecretChat.Outbound

open Lib

/-- An encrypted message, as it is before encryption. Without a content it deletes itself. -/
structure EncryptedMessage where
  inSeqNo : Int
  outSeqNo : Int
  content : Option Nat
deriving DecidableEq

/-- The message after which the counters are `myInSeqNo` and `myOutSeqNo`. -/
def createEncryptedMessage (x myInSeqNo myOutSeqNo : Int) (content : Option Nat) :
    EncryptedMessage :=
  { inSeqNo := myInSeqNo * 2 + x
    outSeqNo := myOutSeqNo * 2 - 1 - x
    content := content }

structure OutboundSecretMessage where
  randomId : Int
  encryptedMessage : EncryptedMessage
  seqNo : EventSeqNo
  isSent : Bool := false
  isRewritable : Bool
  isExternal : Bool
deriving DecidableEq

inductive LogEvent where
  | outbound (message : OutboundSecretMessage)
  | inbound (seqNo : EventSeqNo)
  | close
deriving DecidableEq

/-- A query with an encrypted message. -/
structure Query where
  randomId : Int
  encryptedMessage : EncryptedMessage
deriving DecidableEq

def createNetQuery (message : OutboundSecretMessage) : Query :=
  ⟨message.randomId, message.encryptedMessage⟩

/-- What is sent to the actor by a promise. -/
inductive Callback where
  | sendMessageStart (stateId : Nat)
  | sendMessageFinish (stateId : Nat)
  | sendMessageError (stateId : Nat) (shouldFail : Bool)
  | saveChangesStart (token : Nat)
  | saveChangesFinish (stateId : Nat)
  /-- The promise that hands a query to the network again. -/
  | resendQuery (query : Query)
deriving DecidableEq

structure StateChange where
  seqNoStateChange : Option SeqNoState
  /-- The state whose `save_changes_finish` is kept. -/
  saveChangesFinish : Nat
deriving DecidableEq

/-- What an `OutboundMessageState` has that an `InboundMessageState` has not. -/
structure OutboundProgress where
  message : OutboundSecretMessage
  sendMessageFinishFlag : Bool := false
  ackFlag : Bool := false
  /-- Whether it is in `out_seq_no_to_outbound_message_state_token_`. -/
  waitsForAck : Bool := false
  /-- Whether there is a query, and whether it may fail. -/
  netQuery : Bool := false
  netQueryMayFail : Bool := false
deriving DecidableEq

/-- How far a message is. -/
inductive Progress where
  | outbound (p : OutboundProgress)
  | inbound (seqNo : EventSeqNo) (saveMessageFinish : Bool)
deriving DecidableEq

/-- An element of `outbound_message_states_` or `inbound_message_states_`. -/
structure MessageState where
  stateId : Nat
  logEventId : Nat
  saveChangesFinish : Bool
  progress : Progress
deriving DecidableEq

/-- The log event of the message. -/
def Progress.event : Progress → LogEvent
  | outbound p => .outbound p.message
  | inbound seqNo _ => .inbound seqNo

/-- The actor, its log, the callbacks under way and the network. -/
structure Chat where
  x : Int
  closeFlag : Bool := false
  seqNoState : SeqNoState := {}
  seqNoStateChanged : Bool := false
  changesProcessor : ChangesProcessor StateChange := .new
  states : List MessageState := []
  nextStateId : Nat := 1
  binlogReplayFinishFlag : Bool := true
  lastBinlogMessageId : Int := -1
  /-- Everything that was written, in order. -/
  records : List (Record LogEvent SeqNoState) := []
  nextLogEventId : Nat := 1
  synced : Nat := 0
  /-- The promises of `force_sync`: how much they wait for, and what they send. -/
  syncing : List (Nat × List Callback) := []
  mailbox : List Callback := []
  /-- The queries that were handed to the network. -/
  network : List Query := []
  /-- How much was written before the chat was cancelled. -/
  closedAt : Option Nat := none

namespace Chat

/-! ## The binlog -/

def write (c : Chat) (r : Record LogEvent SeqNoState) : Chat :=
  { c with records := c.records ++ [r] }

/-- `binlog_add`, under the id `c.nextLogEventId`. -/
def binlogAdd (c : Chat) (event : LogEvent) : Chat :=
  { c.write (.add c.nextLogEventId event) with nextLogEventId := c.nextLogEventId + 1 }

def forceSync (c : Chat) (callbacks : List Callback) : Chat :=
  { c with syncing := c.syncing ++ [(c.records.length, callbacks)] }

def post (c : Chat) (callbacks : List Callback) : Chat :=
  { c with mailbox := c.mailbox ++ callbacks }

/-! ## States of messages -/

def find? (c : Chat) (stateId : Nat) : Option MessageState :=
  c.states.find? fun s => s.stateId = stateId

def set (c : Chat) (s : MessageState) : Chat :=
  { c with states := c.states.map fun s' => if s'.stateId = s.stateId then s else s' }

def eraseState (c : Chat) (stateId : Nat) : Chat :=
  { c with states := c.states.filter fun s => s.stateId ≠ stateId }

/-- `inbound_loop` and `outbound_loop`. -/
def loop (c : Chat) (s : MessageState) : Chat :=
  if c.closeFlag then c
  else
    match s.progress with
    | .inbound _ saveMessageFinish =>
      if s.saveChangesFinish && saveMessageFinish then
        (c.write (.erase s.logEventId)).eraseState s.stateId
      else c
    | .outbound p =>
      if s.saveChangesFinish && p.ackFlag then
        (c.write (.erase s.logEventId)).eraseState s.stateId
      else if s.saveChangesFinish && p.sendMessageFinishFlag && !p.message.isSent then
        let message := { p.message with isSent := true }
        (c.set { s with progress := .outbound { p with message := message } }).write
          (.rewrite s.logEventId (.outbound message))
      else c

/-- `on_outbound_ack` of a state that has just left the map of those that wait. -/
def onOutboundAck (c : Chat) (s : MessageState) : Chat :=
  match s.progress with
  | .outbound p =>
    if c.closeFlag then c.set { s with progress := .outbound { p with waitsForAck := false } }
    else
      let s := { s with progress := .outbound { p with waitsForAck := false, ackFlag := true } }
      (c.set s).loop s
  | .inbound _ _ => c

/-- The message waits for an acknowledgement that has come. -/
def isAcked (hisInSeqNo : Int) (s : MessageState) : Bool :=
  match s.progress with
  | .outbound p => p.waitsForAck && decide (p.message.seqNo.myOutSeqNo - 1 < hisInSeqNo)
  | .inbound _ _ => false

def onHisInSeqNoUpdated (c : Chat) : Chat :=
  (c.states.filter (isAcked c.seqNoState.hisInSeqNo)).foldl onOutboundAck c

/-! ## The counters -/

def updateSeqNoState (c : Chat) (e : EventSeqNo) : Chat :=
  if c.seqNoState.Knows e then c
  else
    let old := c.seqNoState.hisInSeqNo
    let c := { c with seqNoState := c.seqNoState.updateSeqNoState e }
    let c := if old ≠ c.seqNoState.hisInSeqNo then c.onHisInSeqNoUpdated else c
    { c with seqNoStateChanged := true }

/-- With the token of the change. -/
def addChanges (c : Chat) (stateId : Nat) : Chat × Nat :=
  let change : StateChange :=
    { seqNoStateChange := if c.seqNoStateChanged then some c.seqNoState else none
      saveChangesFinish := stateId }
  let (changesProcessor, token) := c.changesProcessor.add change
  ({ c with seqNoStateChanged := false, changesProcessor := changesProcessor }, token)

/-- The last counters among the changes. -/
def lastChange (changes : List StateChange) : Option SeqNoState :=
  changes.foldl (fun last change => change.seqNoStateChange.or last) none

def onSaveChangesStart (c : Chat) (token : Nat) : Chat :=
  if c.closeFlag then c
  else
    let (changesProcessor, changes) := c.changesProcessor.finish token
    let c := { c with changesProcessor := changesProcessor }
    let c :=
      match lastChange changes with
      | some seqNoState => c.write (.save seqNoState)
      | none => c
    c.post (changes.map fun change => .saveChangesFinish change.saveChangesFinish)

/-! ## Messages -/

def hasRandomId (randomId : Int) (s : MessageState) : Bool :=
  match s.progress with
  | .outbound p => p.message.randomId = randomId
  | .inbound _ _ => false

/-- A message that has not been acknowledged waits for it. -/
def waitForAck (hisInSeqNo : Int) (p : OutboundProgress) : OutboundProgress :=
  if p.message.seqNo.myOutSeqNo - 1 < hisInSeqNo then { p with ackFlag := true }
  else { p with waitsForAck := true }

/-- A new message has no log event yet, and its `logEventId` is 0. -/
def doOutboundMessageImpl (c : Chat) (message : OutboundSecretMessage) (logEventId : Nat) :
    Option Chat :=
  if c.states.any (hasRandomId message.randomId) then none
  else
    let s : MessageState :=
      { stateId := c.nextStateId
        logEventId := if logEventId = 0 then c.nextLogEventId else logEventId
        saveChangesFinish := false
        progress := .outbound { message := message } }
    let c := { c with states := c.states ++ [s], nextStateId := c.nextStateId + 1 }
    let c := c.updateSeqNoState message.seqNo
    let (c, token) := c.addChanges s.stateId
    let p := waitForAck c.seqNoState.hisInSeqNo { message := message }
    let c := c.set { s with progress := .outbound p }
    let callbacks := [.sendMessageStart s.stateId, .saveChangesStart token]
    if logEventId = 0 then some ((c.binlogAdd (.outbound message)).forceSync callbacks)
    else some (c.post callbacks)

/-- `send_message_impl`. A message that is on its way already is not sent again. -/
def sendMessageImpl (c : Chat) (randomId : Int) (content : Nat) (isRewritable isExternal : Bool) :
    Option Chat :=
  if c.closeFlag then some c
  else if ¬c.binlogReplayFinishFlag then none
  else if c.states.any (hasRandomId randomId) then some c
  else
    let s := c.seqNoState
    let e : EventSeqNo :=
      { messageId := s.messageId + 1
        myInSeqNo := s.myInSeqNo
        myOutSeqNo := s.myOutSeqNo + 1
        hisInSeqNo := s.hisInSeqNo }
    c.doOutboundMessageImpl
      { randomId := randomId
        encryptedMessage := createEncryptedMessage c.x e.myInSeqNo e.myOutSeqNo (some content)
        seqNo := e
        isRewritable := isRewritable
        isExternal := isExternal } 0

/-- `do_inbound_message_decrypted`. A new message has no log event yet. -/
def doInboundMessageDecrypted (c : Chat) (e : EventSeqNo) (logEventId : Nat) : Chat :=
  let s : MessageState :=
    { stateId := c.nextStateId
      logEventId := if logEventId = 0 then c.nextLogEventId else logEventId
      saveChangesFinish := false
      progress := .inbound e false }
  let c := { c with states := c.states ++ [s], nextStateId := c.nextStateId + 1 }
  let c := if logEventId = 0 then c.binlogAdd (.inbound e) else c
  let c := c.updateSeqNoState e
  let (c, token) := c.addChanges s.stateId
  if logEventId = 0 then c.forceSync [.saveChangesStart token]
  else c.post [.saveChangesStart token]

/-- The next message of the other side, which has processed `ack` of our messages. -/
def addInboundMessage (c : Chat) (ack layer : Int) : Chat :=
  if c.closeFlag then c
  else
    let s := c.seqNoState
    c.doInboundMessageDecrypted
      { messageId := s.messageId + 1
        myInSeqNo := s.myInSeqNo + 1
        myOutSeqNo := s.myOutSeqNo
        hisInSeqNo := ack
        hisLayer := layer } 0

/-! ## What becomes of a message -/

def onSendMessageFinish (c : Chat) (stateId : Nat) : Chat :=
  if c.closeFlag then c
  else
    match c.find? stateId with
    | some s =>
      match s.progress with
      | .outbound p =>
        let s := { s with progress := .outbound { p with sendMessageFinishFlag := true } }
        (c.set s).loop s
      | .inbound _ _ => c
    | none => c

/-- Even a chat that is closed sends. -/
def onSendMessageStart (c : Chat) (stateId : Nat) : Chat :=
  match c.find? stateId with
  | some s =>
    match s.progress with
    | .outbound p =>
      if ¬p.message.isSent then
        let p := { p with netQuery := true, netQueryMayFail := p.message.isRewritable }
        { c.set { s with progress := .outbound p } with
          network := c.network ++ [createNetQuery p.message] }
      else c.onSendMessageFinish stateId
    | .inbound _ _ => c
  | none => c

/-- `on_outbound_save_changes_finish` and `on_inbound_save_changes_finish`. -/
def onSaveChangesFinish (c : Chat) (stateId : Nat) : Option Chat :=
  if c.closeFlag then some c
  else
    match c.find? stateId with
    | some s =>
      let s := { s with saveChangesFinish := true }
      some ((c.set s).loop s)
    | none => none

/-- `on_inbound_save_message_finish`. -/
def onSaveMessageFinish (c : Chat) (stateId : Nat) : Option Chat :=
  if c.closeFlag then some c
  else
    match c.find? stateId with
    | some s =>
      match s.progress with
      | .inbound e _ =>
        let s := { s with progress := .inbound e true }
        some ((c.set s).loop s)
      | .outbound _ => none
    | none => none

def outboundResend (c : Chat) (stateId : Nat) : Option Chat :=
  if c.closeFlag then some c
  else
    match c.find? stateId with
    | some s =>
      match s.progress with
      | .outbound p =>
        let p := { p with message.isSent := false, netQuery := false }
        some (((c.set { s with progress := .outbound p }).write
          (.rewrite s.logEventId (.outbound p.message))).forceSync
          [.sendMessageStart stateId])
      | .inbound _ _ => none
    | none => none

def outboundRewriteWithEmpty (c : Chat) (stateId : Nat) : Chat :=
  if c.closeFlag then c
  else
    match c.find? stateId with
    | some s =>
      match s.progress with
      | .outbound p =>
        if ¬p.message.isRewritable then c
        else
          let e := p.message.seqNo
          let message :=
            { p.message with
              encryptedMessage := createEncryptedMessage c.x e.myInSeqNo e.myOutSeqNo none
              isRewritable := false
              isExternal := false }
          (c.set { s with progress := .outbound { p with message := message } }).write
            (.rewrite s.logEventId (.outbound message))
      | .inbound _ _ => c
    | none => c

def isOutbound (s : MessageState) : Bool :=
  match s.progress with
  | .outbound _ => true
  | .inbound _ _ => false

/-- Before the chat is closed, its log events are erased. -/
def cancelChat (c : Chat) : Chat :=
  if c.closeFlag then c
  else
    let closedAt := c.records.length
    let toDelete := c.states.filter isOutbound ++ c.states.filter fun s => !isOutbound s
    let c := toDelete.foldl (fun c s => c.write (.erase s.logEventId)) { c with closeFlag := true }
    { (c.binlogAdd .close).forceSync [] with closedAt := some closedAt }

/-- The query is made again, and handed over now or after everything has been synced. -/
def resend (c : Chat) (stateId : Nat) (needSync : Bool) : Chat :=
  match c.find? stateId with
  | some s =>
    match s.progress with
    | .outbound p =>
      let query := createNetQuery p.message
      let c := c.set { s with progress := .outbound { p with netQuery := true } }
      if needSync then c.forceSync [.resendQuery query]
      else { c with network := c.network ++ [query] }
    | .inbound _ _ => c
  | none => c

/-- A message that may fail deletes itself instead. The message that tells so is sent by an event
of its own. -/
def onSendMessageError (c : Chat) (stateId : Nat) (shouldFail : Bool) : Chat :=
  if c.closeFlag then c
  else
    match c.find? stateId with
    | some s =>
      match s.progress with
      | .outbound p =>
        if p.netQueryMayFail then
          if p.message.isRewritable then
            (c.outboundRewriteWithEmpty stateId).resend stateId true
          else c.resend stateId false
        else if shouldFail then c.cancelChat
        else c.resend stateId false
      | .inbound _ _ => c
    | none => c

/-- `on_outbound_send_message_result`. The result of an old query is ignored. -/
def onSendMessageResult (c : Chat) (stateId : Nat) (result : Callback) : Chat :=
  if c.closeFlag then c
  else
    match c.find? stateId with
    | some s =>
      match s.progress with
      | .outbound p =>
        if ¬p.netQuery then c
        else (c.set { s with progress := .outbound { p with netQuery := false } }).post [result]
      | .inbound _ _ => c
    | none => c

def run (c : Chat) : Callback → Option Chat
  | .sendMessageStart stateId => some (c.onSendMessageStart stateId)
  | .sendMessageFinish stateId => some (c.onSendMessageFinish stateId)
  | .sendMessageError stateId shouldFail => some (c.onSendMessageError stateId shouldFail)
  | .saveChangesStart token => some (c.onSaveChangesStart token)
  | .saveChangesFinish stateId => c.onSaveChangesFinish stateId
  | .resendQuery query => some { c with network := c.network ++ [query] }

/-- The first callback of the mailbox is worked off. -/
def runNext (c : Chat) : Option Chat :=
  match c.mailbox with
  | [] => some c
  | callback :: mailbox => { c with mailbox := mailbox }.run callback

/-- The first `n` records are safe now, and the promises that waited for it are kept. -/
def sync (c : Chat) (n : Nat) : Chat :=
  { c with
    synced := n
    syncing := c.syncing.filter fun p => n < p.1
    mailbox := c.mailbox ++ (c.syncing.filter fun p => p.1 ≤ n).flatMap Prod.snd }

/-! ## Restart -/

def replayOutboundMessage (c : Chat) (logEventId : Nat) (message : OutboundSecretMessage) :
    Option Chat :=
  if c.closeFlag then some c
  else if ¬message.seqNo.messageId > c.lastBinlogMessageId then none
  else
    { c with lastBinlogMessageId := message.seqNo.messageId }.doOutboundMessageImpl message
      logEventId

def replayInboundMessage (c : Chat) (logEventId : Nat) (e : EventSeqNo) : Option Chat :=
  if c.closeFlag then some c
  else if ¬e.messageId > c.lastBinlogMessageId then none
  else some ({ c with lastBinlogMessageId := e.messageId }.doInboundMessageDecrypted e logEventId)

def replay (c : Chat) (p : Nat × LogEvent) : Option Chat :=
  match p.2 with
  | .outbound message => c.replayOutboundMessage p.1 message
  | .inbound e => c.replayInboundMessage p.1 e
  | .close => some { c with closeFlag := true }

def binlogReplayFinish (c : Chat) : Chat :=
  { c.onHisInSeqNoUpdated with binlogReplayFinishFlag := true }

/-- One more than the last id. -/
def nextId (records : List (Record LogEvent SeqNoState)) : Nat :=
  records.foldl (fun n r => match r with
    | .add id _ => max n (id + 1)
    | _ => n) 1

/-- `start_up`, with what was found on the disk. -/
def startUp (c : Chat) (n : Nat) : Chat :=
  { x := c.x
    seqNoState := Journal.saved {} (c.records.take n)
    binlogReplayFinishFlag := false
    records := c.records.take n
    nextLogEventId := nextId (c.records.take n)
    synced := n
    network := c.network
    closedAt := c.closedAt.filter (· < n) }

/-- A crash that leaves `n` records, and the restart after it. -/
def restart (c : Chat) (n : Nat) : Option Chat :=
  ((Journal.live (c.records.take n)).foldlM replay (c.startUp n)).map binlogReplayFinish

end Chat

/-! ## Runs -/

/-- What can happen. -/
inductive Event where
  | send (randomId : Int) (content : Nat) (isRewritable isExternal : Bool)
  | receive (ack layer : Int)
  /-- The first callback of the mailbox is worked off. -/
  | callback
  /-- The message has been saved by others. -/
  | saveMessage (stateId : Nat)
  | sendOk (stateId : Nat)
  | sendError (stateId : Nat) (shouldFail : Bool)
  /-- The other side asks for a message. -/
  | resend (stateId : Nat)
  /-- The message is deleted. -/
  | delete (stateId : Nat)
  | cancel
  | sync (n : Nat)
  | crash (n : Nat)
deriving DecidableEq

namespace Chat

def step (c : Chat) : Event → Option Chat
  | .send randomId content isRewritable isExternal =>
    c.sendMessageImpl randomId content isRewritable isExternal
  | .receive ack layer => some (c.addInboundMessage ack layer)
  | .callback => c.runNext
  | .saveMessage stateId => c.onSaveMessageFinish stateId
  | .sendOk stateId => some (c.onSendMessageResult stateId (.sendMessageFinish stateId))
  | .sendError stateId shouldFail =>
    some (c.onSendMessageResult stateId (.sendMessageError stateId shouldFail))
  | .resend stateId => c.outboundResend stateId
  | .delete stateId => some (c.outboundRewriteWithEmpty stateId)
  | .cancel => some c.cancelChat
  | .sync n => some (c.sync n)
  | .crash n => c.restart n

/-- The message has not been saved by others yet. -/
def isUnsaved (s : MessageState) : Bool :=
  match s.progress with
  | .outbound _ => false
  | .inbound _ saveMessageFinish => !saveMessageFinish

/-- What the surroundings can do. -/
def Allowed (c : Chat) : Event → Prop
  | .receive ack _ => c.seqNoState.hisInSeqNo ≤ ack ∧ ack ≤ c.seqNoState.myOutSeqNo
  | .saveMessage stateId => ∃ s ∈ c.states, s.stateId = stateId ∧ isUnsaved s
  | .resend stateId => ∃ s ∈ c.states, s.stateId = stateId ∧ isOutbound s
  | .sync n => c.synced ≤ n ∧ n ≤ c.records.length
  | .crash n => c.synced ≤ n ∧ n ≤ c.records.length
  | _ => True

instance (c : Chat) : (e : Event) → Decidable (c.Allowed e)
  | .receive ack _ =>
    inferInstanceAs (Decidable (c.seqNoState.hisInSeqNo ≤ ack ∧ ack ≤ c.seqNoState.myOutSeqNo))
  | .saveMessage stateId =>
    inferInstanceAs (Decidable (∃ s ∈ c.states, s.stateId = stateId ∧ isUnsaved s))
  | .resend stateId =>
    inferInstanceAs (Decidable (∃ s ∈ c.states, s.stateId = stateId ∧ isOutbound s))
  | .sync n => inferInstanceAs (Decidable (c.synced ≤ n ∧ n ≤ c.records.length))
  | .crash n => inferInstanceAs (Decidable (c.synced ≤ n ∧ n ≤ c.records.length))
  | .send _ _ _ _ | .callback | .sendOk _ | .sendError _ _ | .delete _ | .cancel => .isTrue trivial

end Chat

end Tdlib.SecretChat.Outbound
