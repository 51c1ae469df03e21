import Tdlib.Files.PartsManager

/-!
# A transfer in parts

What a `FileLoader` does with its `PartsManager`. It starts parts and keeps those that are under
way in `part_map_`. A part comes back with a number of bytes, which is not more than was asked
for, or it failed and is started again. In between the streaming offset and limit may change, and
the content may have to be checked.

A part without bytes ends the loop that starts parts: nothing is sent for it. An error stops the
transfer for good, but the streaming offset may still be set.
-/

namespace Tdlib.Files

/-- The parts of a file, and what was reported for each. -/
structure Transfer where
  parts : PartsManager
  /-- `part_map_`: the number and the size of a part that is under way. -/
  partMap : List (Nat × Nat) := []
  /-- How many bytes were reported for a part that is ready. -/
  reported : Nat → Nat
  stopFlag : Bool := false

/-- What can happen to a transfer. -/
inductive Event where
  | startPart
  | partOk (id actualSize : Nat)
  | partFailed (id : Nat)
  | setStreamingOffset (offset limit : Int)
  | setStreamingLimit (limit : Int)
  | setNeedCheck
  | setCheckedPrefixSize (size : Nat)
deriving DecidableEq

namespace Transfer

/-- A transfer begins. Parts that are ready count with their full size. -/
def start (d : PartsManager) : Transfer where
  parts := d
  reported id := (d.getPart id).size

/-- A part that is under way comes back, with at most the bytes that were asked for. -/
def Allowed (t : Transfer) : Event → Prop
  | .partOk id actualSize =>
    t.stopFlag = false ∧ ∃ size, (id, size) ∈ t.partMap ∧ actualSize ≤ size
  | .partFailed id => t.stopFlag = false ∧ ∃ size, (id, size) ∈ t.partMap
  | .setStreamingOffset _ _ => True
  | .setStreamingLimit _ => True
  | _ => t.stopFlag = false

/-- The size a part under way was asked with. -/
def askedSize (t : Transfer) (id : Nat) : Nat :=
  ((t.partMap.find? fun part => part.1 = id).map Prod.snd).getD 0

def onStarted (t : Transfer) (d : PartsManager) : Except Error Part → Transfer
  | .ok ⟨some id, _, size⟩ =>
    if size = 0 then { t with parts := d }
    else { t with parts := d, partMap := t.partMap ++ [(id, size)] }
  | .ok ⟨none, _, _⟩ => { t with parts := d }
  -- the error 1 only ends the loop
  | .error error => { t with parts := d, stopFlag := decide (error.code ≠ 1) }

def onOk (t : Transfer) (d : PartsManager) (id actualSize : Nat) : Except Error Unit → Transfer
  | .ok () =>
    { t with
      parts := d
      partMap := t.partMap.filter fun part => part.1 ≠ id
      reported := Function.update t.reported id actualSize }
  | .error _ => { t with parts := d, stopFlag := true }

def step (t : Transfer) : Event → Option Transfer
  | .startPart => t.parts.startPart.map fun (d, r) => t.onStarted d r
  | .partOk id actualSize =>
    (t.parts.onPartOk id (t.askedSize id) actualSize).map fun (d, r) => t.onOk d id actualSize r
  | .partFailed id =>
    (t.parts.onPartFailed id).map fun d =>
      { t with parts := d, partMap := t.partMap.filter fun part => part.1 ≠ id }
  | .setStreamingOffset offset limit =>
    (t.parts.setStreamingOffset offset limit).map fun (d, _) => { t with parts := d }
  | .setStreamingLimit limit => some { t with parts := t.parts.setStreamingLimit limit }
  | .setNeedCheck => t.parts.setNeedCheck.map fun d => { t with parts := d }
  | .setCheckedPrefixSize size => some { t with parts := t.parts.setCheckedPrefixSize size }

/-- The transfers that come after `t0`, by steps of which all meet a condition. -/
inductive Run (ok : Transfer → Event → Prop) (t0 : Transfer) : Transfer → Prop
  | refl : Run ok t0 t0
  | step {t t' : Transfer} (event : Event) (h : Run ok t0 t) (hallowed : t.Allowed event)
      (hok : ok t event) (hstep : t.step event = some t') : Run ok t0 t'

end Transfer

end Tdlib.Files
