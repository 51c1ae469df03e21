import Mathlib

/-!
# Queries in a chain

A `SequenceDispatcher` sends queries in order, each of them after the one before. A query is
`start` until it is sent, then `wait` until its answer comes, and `finish` in the end.
`finishI` is the first query that is not finished and `nextI` the next one to be sent.

When a query of the current chain has to be sent again, a new chain starts: the generation
goes up and `nextI` goes back to `finishI`.

An actor does not find its data by a pointer but by a token, the position of the query plus
`idOffset`. What was handed out and has not come back yet is `outstanding`. Times are of any
type `τ` with a sum and a comparison. `none` stands for a failed `CHECK`, for an access
outside the array and for a query that was moved away.
-/

namespace Tdlib.Net

/-- An error of a query. The text of a `Too Many Requests` error ends with a time. -/
structure QueryError (τ : Type) where
  code : Int
  message : String
  retryAfter : Option τ := none
deriving DecidableEq

/-- What the dispatcher uses of a `NetQuery`. -/
structure NetQuery (τ : Type) where
  id : Nat
  error : Option (QueryError τ)
  totalTimeout : τ
  totalTimeoutLimit : τ
  lastTimeout : τ
  /-- The query after which this one is to be invoked. -/
  invokeAfter : Option Nat
deriving DecidableEq

/-- `NetQuery::Error::ResendInvokeAfter`. -/
def resendInvokeAfter : Int := 204

/-- The query has to be sent again, because the one before it failed. -/
def NetQuery.needsResend {τ : Type} (query : NetQuery τ) : Bool :=
  match query.error with
  | some error =>
    error.code == resendInvokeAfter ||
      (error.code == 400 &&
        (error.message == "MSG_WAIT_FAILED" || error.message == "MSG_WAIT_TIMEOUT"))
  | none => false

inductive State where
  | start
  | wait
  | finish
  | dummy
deriving DecidableEq

/-- A query and where it stands. -/
structure Data (τ : Type) where
  state : State
  /-- `net_query_ref_`: the query that was put in. -/
  netQueryRef : Nat
  query : Option (NetQuery τ)
  callback : Nat
  generation : Nat
  totalTimeout : τ
  lastTimeout : τ
deriving DecidableEq

/-- Who holds a token: the network, or the callback that may ask for a resend. -/
inductive Holder where
  | network
  | callback
deriving DecidableEq

/-- A token that was handed out with a query. -/
structure Token (τ : Type) where
  number : Nat
  holder : Holder
  /-- The query that was put in at the position. -/
  netQueryRef : Nat
  query : NetQuery τ
deriving DecidableEq

structure SequenceDispatcher (τ : Type) where
  /-- Whether there is a parent. -/
  parent : Bool
  idOffset : Nat := 1
  data : List (Data τ) := []
  finishI : Nat := 0
  nextI : Nat := 0
  /-- The last query that was sent in the current chain. -/
  lastSentI : Option Nat := none
  generation : Nat := 1
  waitCnt : Nat := 0
  /-- The timeout that is set, in seconds. -/
  timeout : Option Nat := none
  /-- How often `Parent::on_result` was called. -/
  results : Nat := 0
  outstanding : List (Token τ) := []
deriving DecidableEq

namespace SequenceDispatcher

variable {τ : Type} [Zero τ] [Add τ] [LT τ] [DecidableLT τ] [DecidableEq τ]

def maxSimultaneousWait : Nat := 10

/-- `try_resend_query`. The callback gets the query and a promise with the token. -/
def tryResendQuery (d : SequenceDispatcher τ) (pos : Nat) (query : NetQuery τ) :
    Option (SequenceDispatcher τ) :=
  match d.data[pos]? with
  | none => none
  | some data =>
    if data.state ≠ .dummy then none
    else
      some { d with
        data := d.data.set pos { data with state := .wait, query := none }
        waitCnt := d.waitCnt + 1
        outstanding := d.outstanding ++
          [⟨pos + d.idOffset, .callback, data.netQueryRef, query⟩] }

/-- `check_timeout`. A query that has waited for too long is not sent but given back. -/
def checkTimeout (d : SequenceDispatcher τ) (pos : Nat) : Option (SequenceDispatcher τ) :=
  match d.data[pos]? with
  | none => none
  | some data =>
    if data.state ≠ .start then some d
    else
      match data.query with
      | none => none
      | some query =>
        let query := { query with totalTimeout := query.totalTimeout + data.totalTimeout }
        let data := { data with totalTimeout := 0, query := some query }
        if query.totalTimeoutLimit < query.totalTimeout then
          let error := ⟨429, "Too Many Requests: retry after ", some data.lastTimeout⟩
          let query := { query with error := some error }
          let data := { data with state := .dummy, query := some query }
          { d with data := d.data.set pos data }.tryResendQuery pos query
        else some { d with data := d.data.set pos data }

/-- `data_from_token`, with the position. -/
def dataFromToken (d : SequenceDispatcher τ) (token : Nat) : Option (SequenceDispatcher τ × Nat) :=
  if token < d.idOffset then none
  else
    let pos := token - d.idOffset
    match d.data[pos]? with
    | none => none
    | some data =>
      if data.state ≠ .wait then none
      else if d.waitCnt = 0 then none
      else
        some ({ d with
          data := d.data.set pos { data with state := .dummy }
          waitCnt := d.waitCnt - 1 }, pos)

/-- `do_resend`, after the query was given back. -/
def doResend (d : SequenceDispatcher τ) (pos : Nat) (query : NetQuery τ) :
    Option (SequenceDispatcher τ) :=
  match d.data[pos]? with
  | none => none
  | some data =>
    if data.state ≠ .dummy then none
    else
      let d := { d with data := d.data.set pos { data with state := .start, query := some query } }
      let d :=
        if data.generation = d.generation then
          { d with nextI := d.finishI, generation := d.generation + 1, lastSentI := none }
        else d
      d.checkTimeout pos

def doFinish (d : SequenceDispatcher τ) (pos : Nat) : Option (SequenceDispatcher τ) :=
  match d.data[pos]? with
  | none => none
  | some data =>
    if data.state ≠ .dummy then none
    else
      some { d with
        data := d.data.set pos { data with state := .finish }
        results := if d.parent then d.results + 1 else d.results }

/-! ## The loop -/

/-- The first loop: finished queries are skipped. -/
def skipFinished (d : SequenceDispatcher τ) : SequenceDispatcher τ :=
  { d with
    finishI := d.finishI +
      ((d.data.drop d.finishI).takeWhile fun data => data.state = .finish).length }

/-- The query after which the next one is to be invoked. -/
def invokeAfter (d : SequenceDispatcher τ) : Option (Option Nat) :=
  match d.lastSentI with
  | none => some none
  | some i =>
    match d.data[i]? with
    | none => none
    | some data => some (if data.state = .wait then some data.netQueryRef else none)

/-- The body of the second loop for a query that is `start`. -/
def sendNext (d : SequenceDispatcher τ) (data : Data τ) : Option (SequenceDispatcher τ) :=
  match d.invokeAfter, data.query with
  | some invokeAfter, some query =>
    let query := { query with invokeAfter := invokeAfter, lastTimeout := 0 }
    some { d with
      data := d.data.set d.nextI
        { data with state := .wait, query := none, generation := d.generation }
      waitCnt := d.waitCnt + 1
      lastSentI := some d.nextI
      outstanding := d.outstanding ++
        [⟨d.nextI + d.idOffset, .network, data.netQueryRef, query⟩]
      nextI := d.nextI + 1 }
  | _, _ => none

/-- The second loop, which takes as many rounds as there are queries behind `nextI`. -/
def sendLoop : Nat → SequenceDispatcher τ → Option (SequenceDispatcher τ)
  | 0, d => some d
  | n + 1, d =>
    match d.data[d.nextI]? with
    | none => some d
    | some data =>
      if data.state = .wait ∨ maxSimultaneousWait ≤ d.waitCnt then some d
      else if data.state = .finish then sendLoop n { d with nextI := d.nextI + 1 }
      else (d.sendNext data).bind (sendLoop n)

def tryShrink (d : SequenceDispatcher τ) : Option (SequenceDispatcher τ) :=
  if d.finishI * 2 > d.data.length ∧ d.data.length > 5 then
    if d.finishI ≤ d.nextI then
      some { d with
        data := d.data.drop d.finishI
        nextI := d.nextI - d.finishI
        lastSentI := d.lastSentI.bind fun i =>
          if d.finishI ≤ i then some (i - d.finishI) else none
        idOffset := d.idOffset + d.finishI
        finishI := 0 }
    else none
  else some d

/-- The end of `loop`. -/
def setTimeout (d : SequenceDispatcher τ) : SequenceDispatcher τ :=
  if d.finishI = d.data.length ∧ d.parent then { d with timeout := some 5 } else d

def loop (d : SequenceDispatcher τ) : Option (SequenceDispatcher τ) :=
  let d := d.skipFinished
  let d := { d with nextI := max d.nextI d.finishI }
  ((sendLoop (d.data.length - d.nextI) d).bind tryShrink).map setTimeout

/-! ## Events -/

def sendWithCallback (d : SequenceDispatcher τ) (query : NetQuery τ) (callback : Nat) :
    Option (SequenceDispatcher τ) :=
  let data : Data τ := ⟨.start, query.id, some query, callback, 0, 0, 0⟩
  { d with timeout := none, data := d.data ++ [data] }.loop

/-- The wait of a query is also a wait of the query at `i` behind it. -/
def addTimeout (lastTimeout : τ) (d : SequenceDispatcher τ) (i : Nat) :
    Option (SequenceDispatcher τ) :=
  match d.data[i]? with
  | none => none
  | some data =>
    { d with
      data := d.data.set i { data with
        totalTimeout := data.totalTimeout + lastTimeout
        lastTimeout := lastTimeout } }.checkTimeout i

/-- The queries behind `pos` wait as well. -/
def addTimeouts (d : SequenceDispatcher τ) (pos : Nat) (lastTimeout : τ) :
    Option (SequenceDispatcher τ) :=
  if lastTimeout = 0 then some d
  else (List.range' (pos + 1) (d.data.length - (pos + 1))).foldlM (addTimeout lastTimeout) d

/-- The answer is worked off after the position has been found. -/
def handleResult (d : SequenceDispatcher τ) (pos : Nat) (query : NetQuery τ) :
    Option (SequenceDispatcher τ) :=
  (d.addTimeouts pos query.lastTimeout).bind fun d =>
    if query.needsResend then d.doResend pos { query with error := none }
    else d.tryResendQuery pos query

def onResult (d : SequenceDispatcher τ) (token : Nat) (query : NetQuery τ) :
    Option (SequenceDispatcher τ) :=
  ((d.dataFromToken token).bind fun (d, pos) => d.handleResult pos query).bind loop

def onResendOk (d : SequenceDispatcher τ) (token : Nat) (query : NetQuery τ) :
    Option (SequenceDispatcher τ) :=
  ((d.dataFromToken token).bind fun (d, pos) => d.doResend pos query).bind loop

def onResendError (d : SequenceDispatcher τ) (token : Nat) : Option (SequenceDispatcher τ) :=
  ((d.dataFromToken token).bind fun (d, pos) => d.doFinish pos).bind loop

def timeoutExpired (d : SequenceDispatcher τ) : Option (SequenceDispatcher τ) :=
  if d.finishI ≠ d.data.length then some { d with timeout := none }
  else if ¬d.parent then none
  else some { d with timeout := some 1 }

end SequenceDispatcher

/-- What can happen to a dispatcher. -/
inductive Event (τ : Type) where
  | sendWithCallback (query : NetQuery τ) (callback : Nat)
  | onResult (token : Nat) (query : NetQuery τ)
  | onResendOk (token : Nat) (query : NetQuery τ)
  | onResendError (token : Nat)
  | loop
  | timeoutExpired

namespace SequenceDispatcher

variable {τ : Type} [Zero τ] [Add τ] [LT τ] [DecidableLT τ] [DecidableEq τ]

/-- The token has been handed out, and its holder has not answered. -/
def Holds (d : SequenceDispatcher τ) (holder : Holder) (number : Nat) : Prop :=
  ∃ token ∈ d.outstanding, token.holder = holder ∧ token.number = number

/-- Only who holds a token can answer. -/
def Allowed (d : SequenceDispatcher τ) : Event τ → Prop
  | .onResult number _ => d.Holds .network number
  | .onResendOk number _ => d.Holds .callback number
  | .onResendError number => d.Holds .callback number
  | .timeoutExpired => d.timeout.isSome
  | _ => True

/-- A token is given back. -/
def release (d : SequenceDispatcher τ) (holder : Holder) (number : Nat) : SequenceDispatcher τ :=
  { d with
    outstanding := d.outstanding.eraseP fun token => token.holder = holder ∧ token.number = number }

def step (d : SequenceDispatcher τ) : Event τ → Option (SequenceDispatcher τ)
  | .sendWithCallback query callback => d.sendWithCallback query callback
  | .onResult number query => (d.release .network number).onResult number query
  | .onResendOk number query => (d.release .callback number).onResendOk number query
  | .onResendError number => (d.release .callback number).onResendError number
  | .loop => d.loop
  | .timeoutExpired => d.timeoutExpired

end SequenceDispatcher

end Tdlib.Net
