import Tdlib.Utils.ByteFlow

/-!
# Bodies of HTTP messages

The length of a body is declared in the header, or the body comes in chunks, each with its own
length and the last one empty. Either way a byte flow takes it from the stream. The chunks are
decoded in the same way however the stream arrives: the flow may have to stop in a length line, in
the content of a chunk and before the line break behind it, and goes on from there.

When the input is closed, the chunked flow always comes to an end. The other one goes on for ever if
less than it wants to read at once has arrived.
-/

namespace Tdlib.Http

open Tdlib.Lib List

def minUpdateSize : Nat := 2 ^ 14

def crlf : List UInt8 := [13, 10]

/-! ## The model -/

/-- `len` bytes are missing. -/
def HttpContentLengthByteFlow.loop (isInputActive : Bool) (len : Nat) (input : List UInt8) :
    Looped Nat :=
  let readySize := min input.length len
  let needSize := min minUpdateSize len
  if readySize < needSize then ⟨len, input, [], needSize, none, false⟩
  else
    let output := input.take readySize
    let input := input.drop readySize
    let len := len - readySize
    if len = 0 then ⟨len, input, output, 0, some (.ok ()), false⟩
    else if !isInputActive then
      ⟨len, input, output, 0, some (.error "Unexpected end of stream"), false⟩
    else ⟨len, input, output, 0, none, true⟩

def isDigit (c : UInt8) : Bool := 48 ≤ c && c ≤ 57

def isHexDigit (c : UInt8) : Bool := isDigit c || (97 ≤ c ||| 0x20 && c ||| 0x20 ≤ 102)

def hexToInt (c : UInt8) : Nat :=
  if isDigit c then c.toNat - 48
  else if 97 ≤ c ||| 0x20 ∧ c ||| 0x20 ≤ 102 then (c ||| 0x20).toNat - 97 + 10
  else 16

/-- A `size_t`. -/
def hexToInteger (str : List UInt8) : Nat :=
  (str.takeWhile isHexDigit).foldl (fun value c => (value * 16 + hexToInt c) % 2 ^ 64) 0

/-- The search `findBoundary` makes in what it has not read. -/
def seek (boundary : List UInt8) : List UInt8 → Nat → Bool × Nat
  | [], alreadyRead => (false, alreadyRead)
  | c :: range, alreadyRead =>
    if boundary.head? = some c then
      if range.length + 1 < boundary.length then (false, alreadyRead)
      else if boundary.isPrefixOf (c :: range) then (true, alreadyRead)
      else seek boundary range (alreadyRead + 1)
    else seek boundary range (alreadyRead + 1)

/-- Whether the boundary was found, and how much is known not to hold it. -/
def findBoundary (range boundary : List UInt8) (alreadyRead : Nat) : Bool × Nat :=
  seek boundary (range.drop alreadyRead) alreadyRead

inductive ReadState
  | readChunkLength
  | readChunkContent
deriving DecidableEq

structure HttpChunkedByteFlow where
  state : ReadState
  /-- How much of the length line was searched, or how much of the content is missing. -/
  len : Nat
  /-- The length of the chunk. -/
  saveLen : Nat
  totalSize : Nat
  uncommitedSize : Nat

namespace HttpChunkedByteFlow

def maxChunkSize : Nat := 15 * 2 ^ 20

def maxSize : Nat := 2 ^ 31 - 1

def initial : ByteFlow HttpChunkedByteFlow := ⟨⟨.readChunkLength, 0, 0, 0, 0⟩, [], [], 0, none⟩

/-- `loop` calls `finish` with an error. -/
def fail (s : HttpChunkedByteFlow) (input : List UInt8) (message : String) :
    Looped HttpChunkedByteFlow :=
  ⟨s, input, [], 0, some (.error message), false⟩

/-- The end of `loop`. -/
def leave (isInputActive : Bool) (s : HttpChunkedByteFlow) (input output : List UInt8)
    (needSize : Nat) (result : Bool) : Looped HttpChunkedByteFlow :=
  if !isInputActive && !result then
    ⟨s, input, output, 0, some (.error "Unexpected end of stream"), result⟩
  else ⟨s, input, output, needSize, none, result⟩

/-- `loop` in the content of a chunk. -/
def readContent (isInputActive : Bool) (s : HttpChunkedByteFlow) (input : List UInt8) :
    Looped HttpChunkedByteFlow :=
  let ready := min s.len input.length
  let needSize := min minUpdateSize (s.len + 2)
  if input.length < needSize then s.leave isInputActive input [] needSize false
  else
    let s := { s with totalSize := s.totalSize + ready, uncommitedSize := s.uncommitedSize + ready }
    if maxSize < s.totalSize then
      s.fail input ("Too big query [size:" ++ toString input.length ++ "]")
    else
      let output := input.take ready
      let input := input.drop ready
      let s := { s with
        len := s.len - ready
        uncommitedSize := if minUpdateSize ≤ s.uncommitedSize then 0 else s.uncommitedSize }
      if s.len ≠ 0 then s.leave isInputActive input output 0 true
      else if input.length < 2 then s.leave isInputActive input output 2 true
      else
        let input := input.drop 2
        let s := { s with totalSize := s.totalSize + 2 }
        if s.saveLen = 0 then ⟨s, input, output, 0, some (.ok ()), false⟩
        else leave isInputActive { s with state := .readChunkLength, len := 0 } input output 0 true

def loop (isInputActive : Bool) (s : HttpChunkedByteFlow) (input : List UInt8) :
    Looped HttpChunkedByteFlow :=
  match s.state with
  | .readChunkContent => s.readContent isInputActive input
  | .readChunkLength =>
    let found := findBoundary input crlf s.len
    let s := { s with len := found.2 }
    let line := input.take s.len
    if 10 < s.len then
      s.fail (input.drop s.len)
        ("Too long length in chunked " ++ String.ofList (line.map fun c => Char.ofNat c.toNat))
    else if !found.1 then s.leave isInputActive input [] (input.length + 1) false
    else
      let input := (input.drop s.len).drop 2
      let s := { s with len := hexToInteger line }
      if maxChunkSize < s.len then
        s.fail input ("Invalid chunk size [size:" ++ toString s.len ++ "]")
      else readContent isInputActive { s with saveLen := s.len, state := .readChunkContent } input

/-! ## Closed input -/

/-- A call of `loop` takes something from the input; if not, it finishes once the input is
closed. -/
def Goes (active : Bool) (input : List UInt8) (r : Looped HttpChunkedByteFlow) : Prop :=
  (r.result = true → r.input.length < input.length) ∧
    (active = false → r.result = false → r.status.isSome)

variable {active : Bool} {s : HttpChunkedByteFlow} {input : List UInt8}

theorem goes_leave {rest output : List UInt8} {need : Nat} {result : Bool}
    (h : result = true → rest.length < input.length) :
    Goes active input (s.leave active rest output need result) := by
  unfold leave Goes
  cases active <;> cases result <;> simp [h]

theorem goes_readContent : Goes active input (s.readContent active input) := by
  unfold readContent
  dsimp only
  split
  · exact goes_leave nofun
  rename_i hsize
  unfold minUpdateSize at hsize
  split
  · exact ⟨nofun, fun _ _ => rfl⟩
  split
  · refine goes_leave fun _ => ?_
    rw [length_drop]
    omega
  split
  · rename_i hrest
    rw [length_drop] at hrest
    refine goes_leave fun _ => ?_
    rw [length_drop]
    omega
  split
  · exact ⟨nofun, fun _ _ => rfl⟩
  · refine goes_leave fun _ => ?_
    rw [length_drop, length_drop]
    omega

theorem goes_loop : Goes active input (loop active s input) := by
  unfold loop
  split
  · exact goes_readContent
  dsimp only
  split
  · exact ⟨nofun, fun _ _ => rfl⟩
  split
  · exact goes_leave nofun
  split
  · exact ⟨nofun, fun _ _ => rfl⟩
  · refine ⟨fun h => lt_of_lt_of_le (goes_readContent.1 h) ?_, goes_readContent.2⟩
    rw [length_drop, length_drop]
    omega

theorem loop_progress (active : Bool) : ByteFlow.Progress (loop active) :=
  fun _ _ => goes_loop.1

end HttpChunkedByteFlow

namespace HttpContentLengthByteFlow

def initial (len : Nat) : ByteFlow Nat := ⟨len, [], [], 0, none⟩

/-- Too little has arrived to go on. -/
def Short (f : ByteFlow Nat) : Prop := f.status = none ∧ f.input.length < min minUpdateSize f.state

theorem Short.after {f : ByteFlow Nat} (h : Short f) : Short (f.after (loop false)) := by
  obtain ⟨_, hshort⟩ := h
  have hwait : loop false f.state f.input =
      ⟨f.state, f.input, [], min minUpdateSize f.state, none, false⟩ := by
    unfold loop
    rw [if_pos (by omega)]
  unfold ByteFlow.after Short
  rw [hwait]
  exact ⟨rfl, hshort⟩

/-- Nothing ends the calls of `loop` then. -/
theorem Short.not_ends {f r : ByteFlow Nat} (h : Short f) :
    ¬Ends (ByteFlow.closedRound (loop false)) f r := by
  intro hends
  refine hends.rule (P := Short) (Q := fun _ => False) ?_ ?_ h
  · intro s s' hs hround
    obtain ⟨_, rfl⟩ := ByteFlow.closedRound_again hround
    exact hs.after
  · intro s r hs hround
    unfold ByteFlow.closedRound at hround
    rw [hs.1] at hround
    cases hround

theorem closed_ends_iff (f : ByteFlow Nat) :
    (∃ r, Ends (ByteFlow.closedRound (loop false)) f r ∧ r.status.isSome) ↔
      f.status.isSome ∨ min minUpdateSize f.state ≤ f.input.length := by
  constructor
  · rintro ⟨r, hends, _⟩
    by_contra hcond
    rw [not_or, Option.not_isSome_iff_eq_none, not_le] at hcond
    exact Short.not_ends hcond hends
  intro hcond
  cases hstatus : f.status with
  | some status =>
    have hround : ByteFlow.closedRound (loop false) f = .stop f := by
      unfold ByteFlow.closedRound
      rw [hstatus]
      rfl
    exact ⟨f, .stop hround, by rw [hstatus]; rfl⟩
  | none =>
    -- One call of `loop` finishes, with what is there.
    have hready : ¬min f.input.length f.state < min minUpdateSize f.state := by
      rw [hstatus] at hcond
      have := hcond.resolve_left nofun
      omega
    have hfinished : (f.after (loop false)).status.isSome := by
      show (loop false f.state f.input).status.isSome
      unfold loop
      rw [if_neg hready]
      dsimp only
      split <;> rfl
    have hround : ByteFlow.closedRound (loop false) f = .again (f.after (loop false)) := by
      unfold ByteFlow.closedRound
      rw [hstatus]
      rfl
    have hstop : ByteFlow.closedRound (loop false) (f.after (loop false)) =
        .stop (f.after (loop false)) := if_pos hfinished
    exact ⟨_, .again hround (.stop hstop), hfinished⟩

end HttpContentLengthByteFlow

/-- The flow when its input is closed: all the pieces arrived, the last one together with the
end. -/
def received {σ : Type} (loop : σ → List UInt8 → Looped σ) (f : ByteFlow σ)
    (pieces : List (List UInt8)) (rest : List UInt8) : ByteFlow σ :=
  let f := pieces.foldl (ByteFlow.receive loop) f
  { f with input := f.input ++ rest }

/-- **The chunked flow finishes when its input is closed.** The flow of a declared length finishes
if and only if it had finished before, or as much is there as it wants to read at once. -/
theorem closed_flow_finishes_iff (pieces : List (List UInt8)) (rest : List UInt8) (len : Nat) :
    (∃ r, Ends (ByteFlow.closedRound (HttpChunkedByteFlow.loop false))
      (received (HttpChunkedByteFlow.loop true) HttpChunkedByteFlow.initial pieces rest) r ∧
      r.status.isSome) ∧
    let f := received (HttpContentLengthByteFlow.loop true) (HttpContentLengthByteFlow.initial len)
      pieces rest
    (∃ r, Ends (ByteFlow.closedRound (HttpContentLengthByteFlow.loop false)) f r ∧
      r.status.isSome) ↔ f.status.isSome ∨ min minUpdateSize f.state ≤ f.input.length := by
  refine ⟨?_, HttpContentLengthByteFlow.closed_ends_iff _⟩
  obtain ⟨r, hends⟩ := ByteFlow.closed_ends (HttpChunkedByteFlow.loop_progress false)
    (fun _ _ => HttpChunkedByteFlow.goes_loop.2 rfl) _
  exact ⟨r, hends, ByteFlow.closed_finished hends⟩

/-- The whole body has arrived. -/
theorem closed_flow_finishes_whole : ∃ r,
    Ends (ByteFlow.closedRound (HttpContentLengthByteFlow.loop false))
      (received (HttpContentLengthByteFlow.loop true) (HttpContentLengthByteFlow.initial 2) [[104]]
        [105]) r ∧ r.status.isSome :=
  (closed_flow_finishes_iff [[104]] [105] 2).2.mpr (.inr (by decide +kernel))

/-- Two bytes of five have arrived when the input is closed. -/
theorem closed_flow_goes_on : ¬∃ r,
    Ends (ByteFlow.closedRound (HttpContentLengthByteFlow.loop false))
    (received (HttpContentLengthByteFlow.loop true) (HttpContentLengthByteFlow.initial 5)
      [[104, 105]] []) r := by
  rintro ⟨r, hends⟩
  exact HttpContentLengthByteFlow.Short.not_ends ⟨by decide +kernel, by decide +kernel⟩ hends

/-! ## Chunks -/

/-- A chunk, and the digits its length is written in. -/
structure Chunk where
  digits : List UInt8
  content : List UInt8
  hex : digits.all isHexDigit
  short : digits.length ≤ 10
  /-- The digits say how long the content is. -/
  value : hexToInteger digits = content.length
  small : content.length ≤ HttpChunkedByteFlow.maxChunkSize

def Chunk.encode (c : Chunk) : List UInt8 := c.digits ++ (crlf ++ (c.content ++ crlf))

/-- The last chunk, and no other one, is empty. -/
def Ended : List Chunk → Prop
  | [] => False
  | c :: cs => if c.content = [] then cs = [] else Ended cs

theorem ended_append {chunks : List Chunk} {last : Chunk} (h : ∀ c ∈ chunks, c.content ≠ [])
    (hlast : last.content = []) : Ended (chunks ++ [last]) := by
  induction chunks with
  | nil => exact (if_pos hlast).mpr rfl
  | cons c cs ih =>
    rw [forall_mem_cons] at h
    exact (if_neg h.1).mpr (ih h.2)

/-- A part of the stream has arrived as a whole, or the input ends in it. -/
theorem arrived_or_not {input coming part rest : List UInt8} (h : input ++ coming = part ++ rest) :
    (∃ more, 0 < more.length ∧ part = input ++ more ∧ coming = more ++ rest) ∨
      ∃ input', input = part ++ input' ∧ rest = input' ++ coming := by
  rcases append_eq_append_iff.mp h with ⟨more, hpart, hcoming⟩ | harrived
  · cases more with
    | nil => exact .inr ⟨[], by simp [hpart], hcoming.symm⟩
    | cons c more => exact .inl ⟨c :: more, Nat.succ_pos _, hpart, hcoming⟩
  · exact .inr harrived

/-- The line break is found as soon as it is there, and its search goes on where it stopped. -/
theorem seek_line {ds xs more rest : List UInt8} (n : Nat) (hds : ∀ d ∈ ds, isHexDigit d)
    (h : xs ++ more = ds ++ (crlf ++ rest)) :
    seek crlf xs n = (decide (ds.length + 2 ≤ xs.length), n + min ds.length xs.length) := by
  induction ds generalizing xs n with
  | nil =>
    match xs, h with
    | [], _ => rfl
    | [c], h =>
      cases h
      rfl
    | c :: c' :: xs, h =>
      cases h
      simp [seek, crlf]
  | cons d ds ih =>
    cases xs with
    | nil => simp [seek]
    | cons x xs =>
      obtain ⟨rfl, htail⟩ := cons.inj h
      rw [forall_mem_cons] at hds
      have hd : crlf.head? ≠ some x := by
        rintro ⟨⟩
        exact absurd hds.1 (by decide)
      rw [seek, if_neg hd, ih (n + 1) hds.2 htail]
      simp
      omega

namespace HttpChunkedByteFlow

/-- What is due: the stream from here on, and the part of the body that is in it. `size` is counted
by `totalSize` before the last line break: the body, and two for each chunk that is not empty. -/
inductive Due (size : Nat) (trailing : List UInt8) (s : HttpChunkedByteFlow)
    (stream body : List UInt8) : Prop
  | length (c : Chunk) (cs : List Chunk) (hstate : s.state = .readChunkLength)
    (hlen : s.len ≤ c.digits.length) (hended : Ended (c :: cs))
    (hstream : stream = (c :: cs).flatMap Chunk.encode ++ trailing)
    (hbody : body = (c :: cs).flatMap Chunk.content)
    (hsize : s.totalSize + body.length + 2 * cs.length = size)
  | content (left : List UInt8) (cs : List Chunk) (hstate : s.state = .readChunkContent)
    (hlen : s.len = left.length) (hended : if s.saveLen = 0 then cs = [] else Ended cs)
    (hstream : stream = left ++ (crlf ++ (cs.flatMap Chunk.encode ++ trailing)))
    (hbody : body = left ++ cs.flatMap Chunk.content)
    (hsize : s.totalSize + body.length + 2 * cs.length = size)

/-- The flow on its way to the body, of which the bytes `coming` have not arrived. -/
def Ahead (size : Nat) (trailing body : List UInt8) (f : ByteFlow HttpChunkedByteFlow)
    (coming : List UInt8) : Prop :=
  match f.status with
  | none => f.needSize ≤ (f.input ++ coming).length ∧
      ∃ due, f.output ++ due = body ∧ Due size trailing f.state (f.input ++ coming) due
  | some (.ok ()) => size ≤ maxSize ∧ f.output = body ∧ f.input ++ coming = trailing
  | some (.error _) => maxSize < size

/-- A call of `loop` keeps it, and waits for more than there is if it made no progress. -/
def Keeps (size : Nat) (trailing body coming : List UInt8)
    (r : Looped HttpChunkedByteFlow) : Prop :=
  Ahead size trailing body ⟨r.state, r.input, r.output, r.needSize, r.status⟩ coming ∧
    (r.status = none → r.result = false → r.input.length < r.needSize)

variable {size : Nat} {trailing body coming : List UInt8}

theorem keeps_readContent (hstate : s.state = .readChunkContent)
    (h : Due size trailing s (input ++ coming) body) :
    Keeps size trailing body coming (s.readContent true input) := by
  cases h with
  | length c cs hlength => exact absurd (hstate.symm.trans hlength) nofun
  | content left cs _ hlen hended hstream hbody hsize =>
    have hcount : (input ++ coming).length = s.len + 2 +
        (cs.flatMap Chunk.encode ++ trailing).length := by
      rw [hstream]
      simp [crlf]
      omega
    rw [hbody, length_append] at hsize
    unfold readContent
    dsimp only
    split
    · rename_i hshort
      refine ⟨⟨?_, body, rfl, .content left cs hstate hlen hended hstream hbody ?_⟩,
        fun _ _ => hshort⟩
      · show min minUpdateSize (s.len + 2) ≤ (input ++ coming).length
        omega
      · rw [hbody, length_append]
        exact hsize
    split
    · refine ⟨?_, nofun⟩
      show maxSize < size
      omega
    rcases arrived_or_not hstream with ⟨left', hmore, rfl, rfl⟩ | ⟨rest, rfl, hrest⟩
    · -- The input ends in the content.
      rw [length_append] at hlen hsize
      rw [Nat.min_eq_right (show input.length ≤ s.len by omega), take_length, drop_length,
        if_pos (by omega)]
      refine ⟨⟨Nat.zero_le _, left' ++ cs.flatMap Chunk.content, ?_, ?_⟩, nofun⟩
      · rw [hbody, append_assoc]
        rfl
      refine .content left' cs hstate ?_ hended rfl rfl ?_
      · show s.len - input.length = _
        omega
      · rw [length_append]
        show s.totalSize + input.length + _ + _ = _
        omega
    -- It goes beyond the content.
    have hready : min s.len (left ++ rest).length = left.length := by
      rw [length_append]
      omega
    rw [hready]
    rw [take_left, drop_left, if_neg (by omega)]
    split
    · refine ⟨⟨?_, cs.flatMap Chunk.content, hbody.symm, ?_⟩, nofun⟩
      · show 2 ≤ (rest ++ coming).length
        rw [← hrest]
        simp [crlf]
      · refine .content [] cs hstate ?_ hended hrest.symm rfl ?_
        · show s.len - left.length = 0
          omega
        · show s.totalSize + left.length + _ + _ = _
          omega
    obtain ⟨rest, rfl⟩ : ∃ rest', rest = crlf ++ rest' := by
      rcases arrived_or_not hrest.symm with ⟨more, hmore, hcrlf, _⟩ | ⟨rest', h, _⟩
      · have := congrArg length hcrlf
        simp [crlf] at this
        omega
      · exact ⟨rest', h⟩
    rw [append_assoc, append_cancel_left_eq] at hrest
    split at hended
    · rename_i hzero
      subst hended
      rw [if_pos hzero]
      refine ⟨⟨?_, ?_, hrest.symm⟩, nofun⟩
      · simp at hsize
        omega
      · exact (append_nil _).symm.trans hbody.symm
    rename_i hnonzero
    rw [if_neg hnonzero]
    cases cs with
    | nil => cases hended
    | cons c cs =>
      refine ⟨⟨Nat.zero_le _, _, hbody.symm, .length c cs rfl (Nat.zero_le _) hended hrest.symm
        rfl ?_⟩, nofun⟩
      show s.totalSize + left.length + 2 + _ + _ = _
      rw [length_cons] at hsize
      omega

/-- **One call of `loop`**, in every state. -/
theorem keeps_loop (h : Due size trailing s (input ++ coming) body) :
    Keeps size trailing body coming (loop true s input) := by
  cases hstate : s.state with
  | readChunkContent =>
    unfold loop
    rw [hstate]
    exact keeps_readContent hstate h
  | readChunkLength =>
    cases h with
    | content left cs hcontent => exact absurd (hstate.symm.trans hcontent) nofun
    | length c cs _ hlen hended hstream hbody hsize =>
      have hline : input ++ coming = c.digits ++ (crlf ++
          (c.content ++ (crlf ++ (cs.flatMap Chunk.encode ++ trailing)))) := by
        rw [hstream, flatMap_cons, Chunk.encode]
        simp only [append_assoc]
      have hfound : findBoundary input crlf s.len = (decide (c.digits.length + 2 ≤ input.length),
          s.len + min (c.digits.length - s.len) (input.length - s.len)) := by
        have hdrop := congrArg (drop s.len) hline
        rw [drop_append, drop_append_of_le_length hlen] at hdrop
        rw [findBoundary,
          seek_line s.len (fun d hd => all_eq_true.mp c.hex d (mem_of_mem_drop hd)) hdrop,
          length_drop, length_drop]
        refine Prod.ext (decide_eq_decide.mpr ?_) rfl
        omega
      have hshort := c.short
      unfold loop
      rw [hstate, hfound]
      dsimp only
      rw [if_neg (by omega)]
      -- The line may end in what is still to come.
      by_cases hthere : c.digits.length + 2 ≤ input.length
      · obtain ⟨rest, rfl⟩ : ∃ rest, input = c.digits ++ (crlf ++ rest) := by
          rw [← append_assoc] at hline
          rcases arrived_or_not hline with ⟨more, hmore, hpart, _⟩ | ⟨rest, hrest, _⟩
          · have := congrArg length hpart
            simp [crlf] at this
            omega
          · exact ⟨rest, hrest.trans (append_assoc _ _ _)⟩
        have hlen' : s.len + min (c.digits.length - s.len)
            ((c.digits ++ (crlf ++ rest)).length - s.len) = c.digits.length := by omega
        rw [decide_eq_true hthere, Bool.not_true, if_neg nofun, hlen', take_left,
          drop_left, c.value, if_neg (not_lt.mpr c.small)]
        refine keeps_readContent rfl (.content c.content cs rfl rfl ?_ ?_ hbody hsize)
        · simpa only [Ended, ← length_eq_zero_iff] using hended
        · simp only [append_assoc, append_cancel_left_eq] at hline
          exact hline
      · rw [decide_eq_false hthere]
        refine ⟨⟨?_, body, rfl, .length c cs rfl ?_ hended hstream hbody hsize⟩,
          fun _ _ => Nat.lt_succ_self _⟩
        · show input.length + 1 ≤ (input ++ coming).length
          rw [hline]
          simp [crlf]
          omega
        · show s.len + _ ≤ _
          omega

variable {f : ByteFlow HttpChunkedByteFlow}

theorem Ahead.after (h : Ahead size trailing body f coming) (hidle : ¬f.Idle) :
    Ahead size trailing body (f.after (loop true)) coming := by
  unfold Ahead at h
  cases hstatus : f.status with
  | some status => exact absurd (.inl (by rw [hstatus]; rfl)) hidle
  | none =>
    rw [hstatus] at h
    obtain ⟨_, due, rfl, hdue⟩ := h
    obtain ⟨hahead, hwait⟩ := keeps_loop hdue
    unfold Ahead ByteFlow.after at *
    dsimp only
    cases hend : (loop true f.state f.input).status with
    | none =>
      rw [hend] at hahead
      obtain ⟨hneed, due', houtput, hdue'⟩ := hahead
      refine ⟨?_, due', by rw [append_assoc, houtput], hdue'⟩
      split
      · rename_i hless
        exact absurd (hwait hend hless.1) (not_lt.mpr hless.2)
      · exact hneed
    | some status =>
      rw [hend] at hahead
      cases status with
      | error e => exact hahead
      | ok u => exact ⟨hahead.1, congrArg (f.output ++ ·) hahead.2.1, hahead.2.2⟩

/-- **A piece of the stream arrives.** -/
theorem Ahead.receive {piece : List UInt8} (h : Ahead size trailing body f (piece ++ coming)) :
    Ahead size trailing body (f.receive (loop true) piece) coming ∧
      (f.receive (loop true) piece).Idle := by
  refine ByteFlow.wakeup_rule (P := fun f => Ahead size trailing body f coming) (loop_progress true)
    (fun f hf hidle => hf.after hidle) ?_
  unfold Ahead at *
  rw [← append_assoc] at h
  exact h

variable {pieces : List (List UInt8)}

/-- The whole stream has arrived. -/
theorem Ahead.receive_all (h : Ahead size trailing body f pieces.flatten) (hidle : f.Idle) :
    Ahead size trailing body (pieces.foldl (ByteFlow.receive (loop true)) f) [] ∧
      (pieces.foldl (ByteFlow.receive (loop true)) f).Idle := by
  induction pieces generalizing f with
  | nil => exact ⟨h, hidle⟩
  | cons piece pieces ih => exact ih h.receive.1 h.receive.2

/-- An idle flow to which nothing comes has finished. -/
theorem Ahead.finished (h : Ahead size trailing body f []) (hidle : f.Idle) :
    if size ≤ maxSize then f.status = some (.ok ()) ∧ f.output = body ∧ f.input = trailing
    else ∃ e, f.status = some (.error e) := by
  unfold Ahead at h
  rw [append_nil] at h
  split at h
  · rename_i hnone
    unfold ByteFlow.Idle at hidle
    rw [hnone] at hidle
    exact absurd (hidle.resolve_left nofun) (not_lt.mpr h.1)
  · rename_i hok
    rw [if_pos h.1]
    exact ⟨hok, h.2⟩
  · rename_i e herror
    rw [if_neg (not_le.mpr h)]
    exact ⟨e, herror⟩

/-- However the chunks arrive, the flow gives their content if it is not too big with two bytes more
for each chunk, and an error if it is. -/
theorem decode {chunks : List Chunk} {last : Chunk} (hchunks : ∀ c ∈ chunks, c.content ≠ [])
    (hlast : last.content = [])
    (hpieces : pieces.flatten = (chunks ++ [last]).flatMap Chunk.encode ++ trailing) :
    let f := pieces.foldl (ByteFlow.receive (loop true)) initial
    if (chunks.flatMap Chunk.content).length + 2 * chunks.length ≤ maxSize then
      f.status = some (.ok ()) ∧ f.output = chunks.flatMap Chunk.content ∧ f.input = trailing
    else ∃ e, f.status = some (.error e) := by
  have hended := ended_append hchunks hlast
  have hbody : (chunks ++ [last]).flatMap Chunk.content = chunks.flatMap Chunk.content := by
    simp [hlast]
  have hstart : Ahead ((chunks.flatMap Chunk.content).length + 2 * chunks.length) trailing
      (chunks.flatMap Chunk.content) initial pieces.flatten := by
    rw [hpieces]
    refine ⟨Nat.zero_le _, chunks.flatMap Chunk.content, rfl, ?_⟩
    cases hcs : chunks ++ [last] with
    | nil => simp at hcs
    | cons c cs =>
      have hlength := congrArg length hcs
      rw [hcs] at hended hbody
      refine .length c cs rfl (Nat.zero_le _) hended rfl hbody.symm ?_
      show 0 + _ + _ = _
      simp at hlength
      omega
  cases pieces with
  | nil =>
    have := congrArg length hpieces
    simp [Chunk.encode, crlf] at this
  | cons piece pieces =>
    obtain ⟨hahead, hidle⟩ := hstart.receive
    exact (hahead.receive_all hidle).1.finished (hahead.receive_all hidle).2

end HttpChunkedByteFlow

/-- **The chunks are decoded however the stream arrives**: the flow gives their content and leaves
what follows them, unless the content is too big with two bytes more for each chunk. -/
theorem chunked_flow_decodes (chunks : List Chunk) (last : Chunk) (pieces : List (List UInt8))
    (trailing : List UInt8) (hchunks : ∀ c ∈ chunks, c.content ≠ []) (hlast : last.content = [])
    (hsize : (chunks.flatMap Chunk.content).length + 2 * chunks.length ≤
      HttpChunkedByteFlow.maxSize)
    (hpieces : pieces.flatten = (chunks ++ [last]).flatMap Chunk.encode ++ trailing) :
    let f := pieces.foldl (ByteFlow.receive (HttpChunkedByteFlow.loop true))
      HttpChunkedByteFlow.initial
    f.status = some (.ok ()) ∧ f.output = chunks.flatMap Chunk.content ∧ f.input = trailing := by
  have hdecode := HttpChunkedByteFlow.decode hchunks hlast hpieces
  rw [if_pos hsize] at hdecode
  exact hdecode

/-- The end of a stream. -/
def Chunk.zero : Chunk := ⟨[48], [], by decide, by decide, by decide, by decide⟩

/-- Two pieces, the first of which ends in the second chunk. -/
theorem chunked_flow_decodes_two :
    let f := [[50, 13, 10, 104, 105, 13, 10, 49],
      [13, 10, 33, 13, 10, 48, 13, 10, 13, 10, 71]].foldl
      (ByteFlow.receive (HttpChunkedByteFlow.loop true)) HttpChunkedByteFlow.initial
    f.status = some (.ok ()) ∧ f.output = [104, 105, 33] ∧ f.input = [71] :=
  chunked_flow_decodes [⟨[50], [104, 105], by decide, by decide, by decide, by decide⟩,
    ⟨[49], [33], by decide, by decide, by decide, by decide⟩] .zero _ _
    (by simp) rfl (by decide) rfl

/-- A chunk of zeros, of almost fifteen megabytes. -/
def Chunk.big : Chunk where
  digits := [69, 70, 50, 69, 66, 55]
  content := replicate 15675063 0
  hex := by decide
  short := by decide
  value := by
    rw [length_replicate]
    decide
  small := by
    rw [length_replicate]
    decide

/-- The content of the chunks is not too big, but the flow counts the line breaks behind them
too. -/
theorem chunked_flow_refuses : ∃ chunks : List Chunk, (∀ c ∈ chunks, c.content ≠ []) ∧
    (chunks.flatMap Chunk.content).length ≤ HttpChunkedByteFlow.maxSize ∧
    ([(chunks ++ [Chunk.zero]).flatMap Chunk.encode].foldl
      (ByteFlow.receive (HttpChunkedByteFlow.loop true)) HttpChunkedByteFlow.initial).status ≠
        some (.ok ()) := by
  obtain ⟨c, hc⟩ : ∃ c : Chunk, c.content.length = 15675063 := ⟨.big, length_replicate⟩
  have hlength : ((replicate 137 c).flatMap Chunk.content).length = 137 * 15675063 := by
    rw [length_flatMap, map_replicate, hc, sum_replicate_nat]
  have hchunks : ∀ d ∈ replicate 137 c, d.content ≠ [] := by
    intro d hd
    rw [eq_of_mem_replicate hd]
    exact ne_nil_of_length_pos (by omega)
  refine ⟨replicate 137 c, hchunks, by rw [hlength]; decide, ?_⟩
  have hdecode := HttpChunkedByteFlow.decode hchunks (show Chunk.zero.content = [] from rfl)
    (flatten_singleton.trans (append_nil _).symm)
  rw [if_neg (by rw [hlength, length_replicate]; decide)] at hdecode
  obtain ⟨e, he⟩ := hdecode
  rw [he]
  nofun

end Tdlib.Http
