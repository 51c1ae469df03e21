import Mathlib

/-!
# Sequence numbers of a secret chat

Each side counts the messages it has sent, the messages it has processed and the
messages the other side says it has processed. A message carries two of these
counters, doubled, with the role of its sender in the low bit.

A number on the wire is `2 * n` or `2 * n + 1`, so `wire` is the only way in which
an honest side makes one, and `checkSeqNo_wire` says what the receiver makes of it.
-/

namespace Tdlib.SecretChat

/-- A `Status` that is not OK. -/
structure Error where
  code : Int
  message : String
deriving DecidableEq

/-- `SeqNoState`. The counters are `int32`; with fewer than 2^30 messages none of them overflows. -/
structure SeqNoState where
  messageId : Int := 0
  myInSeqNo : Int := 0
  myOutSeqNo : Int := 0
  hisInSeqNo : Int := 0
  hisLayer : Int := 0
  resendEndSeqNo : Int := -1
deriving DecidableEq

/-- What a log event of a message says about the counters. -/
structure EventSeqNo where
  messageId : Int := 0
  myInSeqNo : Int := -1
  myOutSeqNo : Int := -1
  hisInSeqNo : Int := -1
  hisLayer : Int := -1
deriving DecidableEq

namespace SeqNoState

/-- The update says nothing new. -/
def Knows (s : SeqNoState) (e : EventSeqNo) : Prop :=
  s.messageId ≥ e.messageId ∧ s.myInSeqNo ≥ e.myInSeqNo ∧ s.myOutSeqNo ≥ e.myOutSeqNo ∧
    s.hisInSeqNo ≥ e.hisInSeqNo

instance (s : SeqNoState) (e : EventSeqNo) : Decidable (s.Knows e) :=
  inferInstanceAs (Decidable (_ ∧ _ ∧ _ ∧ _))

/-- The counters after `update_seq_no_state`. -/
def updateSeqNoState (s : SeqNoState) (e : EventSeqNo) : SeqNoState :=
  if s.Knows e then s
  else if e.myInSeqNo ≠ -1 then
    { s with
      messageId := e.messageId
      myInSeqNo := e.myInSeqNo
      myOutSeqNo := e.myOutSeqNo
      hisLayer := if e.hisLayer ≠ -1 then e.hisLayer else s.hisLayer
      hisInSeqNo := e.hisInSeqNo }
  else { s with messageId := e.messageId }

theorem updateSeqNoState_new {s : SeqNoState} {e : EventSeqNo} (hnew : s.messageId < e.messageId)
    (hin : e.myInSeqNo ≠ -1) :
    s.updateSeqNoState e =
      { s with
        messageId := e.messageId
        myInSeqNo := e.myInSeqNo
        myOutSeqNo := e.myOutSeqNo
        hisLayer := if e.hisLayer ≠ -1 then e.hisLayer else s.hisLayer
        hisInSeqNo := e.hisInSeqNo } := by
  have hknown : ¬s.Knows e := by
    intro h
    have := h.1
    omega
  rw [updateSeqNoState, if_neg hknown, if_pos hin]

end SeqNoState

/-! ## The check -/

/-- `check_seq_no` of the side with role `x`. -/
def checkSeqNo (x : Int) (s : SeqNoState) (inSeqNo outSeqNo hisLayer : Int) : Except Error Unit :=
  if inSeqNo < 0 then .ok ()
  else if inSeqNo.tmod 2 ≠ 1 - x ∨ outSeqNo.tmod 2 ≠ x then .error ⟨0, "Bad seq_no parity"⟩
  else if outSeqNo.tdiv 2 < s.myInSeqNo then .error ⟨1, "Old seq_no"⟩
  else if outSeqNo.tdiv 2 > s.myInSeqNo then .error ⟨2, "Gap found!"⟩
  else if inSeqNo.tdiv 2 < s.hisInSeqNo then .error ⟨0, "in_seq_no is not monotonic"⟩
  else if s.myOutSeqNo < inSeqNo.tdiv 2 then
    .error ⟨0, "in_seq_no is bigger than seq_no_state_.my_out_seq_no"⟩
  else if hisLayer < s.hisLayer then .error ⟨0, "his_layer is not monotonic"⟩
  else .ok ()

/-- A counter on the wire, with a role in its low bit. -/
def wire (n : Nat) (role : Int) : Int := 2 * n + role

/-- The role of a side. -/
def IsRole (x : Int) : Prop := x = 0 ∨ x = 1

variable {x : Int}

theorem IsRole.other (h : IsRole x) : IsRole (1 - x) := by
  rcases h with rfl | rfl
  · exact .inr rfl
  · exact .inl rfl

theorem wire_nonneg (h : IsRole x) (n : Nat) : 0 ≤ wire n x := by
  rcases h with rfl | rfl <;> simp only [wire] <;> omega

theorem wire_tmod (h : IsRole x) (n : Nat) : (wire n x).tmod 2 = x := by
  rw [Int.tmod_eq_emod_of_nonneg (wire_nonneg h n), wire]
  rcases h with rfl | rfl <;> omega

theorem wire_tdiv (h : IsRole x) (n : Nat) : (wire n x).tdiv 2 = n := by
  rw [Int.tdiv_eq_ediv_of_nonneg (wire_nonneg h n), wire]
  rcases h with rfl | rfl <;> omega

/-- **What is checked of honest numbers**: that the message is the next one, and that what it
acknowledges and its layer do not go back. -/
theorem checkSeqNo_wire (hx : IsRole x) (s : SeqNoState) (ack k : Nat) (layer : Int) :
    checkSeqNo x s (wire ack (1 - x)) (wire k x) layer =
      if (k : Int) < s.myInSeqNo then .error ⟨1, "Old seq_no"⟩
      else if (k : Int) > s.myInSeqNo then .error ⟨2, "Gap found!"⟩
      else if (ack : Int) < s.hisInSeqNo then .error ⟨0, "in_seq_no is not monotonic"⟩
      else if s.myOutSeqNo < ack then
        .error ⟨0, "in_seq_no is bigger than seq_no_state_.my_out_seq_no"⟩
      else if layer < s.hisLayer then .error ⟨0, "his_layer is not monotonic"⟩
      else .ok () := by
  have hpos := wire_nonneg hx.other ack
  rw [checkSeqNo, if_neg (by omega), wire_tmod hx.other, wire_tmod hx, wire_tdiv hx,
    wire_tdiv hx.other, if_neg (by simp)]

end Tdlib.SecretChat
