import Tdlib.Utils.Tl

/-!
# The memory that a TL parser reads

The parser has a pointer into its input. After an error the pointer is set to a buffer of 32 zeros,
and it is set there again whenever something is to be read. In between it may move on. Lengths of
up to seven bytes come from the input.

Here the pointer is a position in one of the two buffers, and `none` is a read outside of it or a
failed `CHECK`. `TlParser`, which works on the bytes behind the pointer, does the same as long as
every read is inside, and every read is.
-/

namespace Tdlib.Tl

open List Lib
open Option (bind_eq_some_iff map_eq_some_iff)

/-- What the pointer points into. -/
inductive Buffer where
  | input
  | empty
deriving DecidableEq

/-- The parser as it is in memory: a buffer, a pointer and lengths. -/
structure PointerParser where
  input : Bytes
  buffer : Buffer
  /-- The pointer `data`. -/
  pos : Nat
  leftLen : Nat
  dataLen : Nat
  /-- The first error, and where it happened. -/
  error : Option (String × Nat)
deriving DecidableEq

namespace PointerParser

def ofSlice (slice : Bytes) : PointerParser := ⟨slice, .input, 0, slice.length, slice.length, none⟩

def bytes (p : PointerParser) : Bytes :=
  match p.buffer with
  | .input => p.input
  | .empty => emptyData

/-- So many bytes behind the pointer. -/
def read (p : PointerParser) (offset size : Nat) : Option Bytes :=
  if p.pos + offset + size ≤ p.bytes.length then
    some ((p.bytes.drop (p.pos + offset)).take size)
  else none

def advance (p : PointerParser) (size : Nat) : PointerParser := { p with pos := p.pos + size }

/-- That `error_pos` is not the largest `size_t` needs no check: no input is that long. -/
def setError (p : PointerParser) (message : String) : Option PointerParser :=
  match p.error with
  | none =>
    some { p with
      buffer := .empty
      pos := 0
      leftLen := 0
      dataLen := 0
      error := some (message, p.dataLen - p.leftLen) }
  | some _ =>
    if p.dataLen = 0 ∧ p.leftLen = 0 then some { p with buffer := .empty, pos := 0 } else none

def checkLen (p : PointerParser) (len : Nat) : Option PointerParser :=
  if p.leftLen < len then p.setError "Not enough data to read"
  else some { p with leftLen := p.leftLen - len }

/-- `fetch_binary`, and `fetch_int` and `fetch_long` before they make a number of the bytes. -/
def fetchBinary (p : PointerParser) (size : Nat) : Option (Bytes × PointerParser) := do
  let p ← p.checkLen size
  let result ← p.read 0 size
  return (result, p.advance size)

def fetchInt (p : PointerParser) : Option (Int32 × PointerParser) :=
  (p.fetchBinary 4).map fun (result, p) => ((UInt32.ofNat (leNat result)).toInt32, p)

def fetchLong (p : PointerParser) : Option (Int64 × PointerParser) :=
  (p.fetchBinary 8).map fun (result, p) => ((UInt64.ofNat (leNat result)).toInt64, p)

/-- The common end of `fetch_string`. The result begins `start` bytes behind the pointer, after
`header` bytes. -/
def fetchBody (p : PointerParser) (start header resultLen resultAlignedLen : Nat) :
    Option (Bytes × PointerParser) := do
  let checked ← (p.advance header).checkLen resultAlignedLen
  if checked.error.isSome then return ([], checked)
  else
    let result ← p.read start resultLen
    return (result, checked.advance resultAlignedLen)

def fetchString (p : PointerParser) : Option (Bytes × PointerParser) := do
  let p ← p.checkLen 4
  let resultLen := leNat (← p.read 0 1)
  if resultLen < 254 then p.fetchBody 1 4 resultLen (resultLen / 4 * 4)
  else if resultLen = 254 then
    let resultLen := leNat (← p.read 1 3)
    p.fetchBody 4 4 resultLen ((resultLen + 3) / 4 * 4)
  else
    let p ← p.checkLen 4
    let resultLen := leNat (← p.read 1 7)
    if resultLen > 0xffffffffffffffff - 3 then
      (p.setError "Too big string found").map fun p => ([], p)
    else p.fetchBody 8 8 resultLen ((resultLen + 3) / 4 * 4)

def fetchStringRaw (p : PointerParser) (size : Nat) : Option (Bytes × PointerParser) := do
  let p ← p.checkLen size
  if p.error.isSome then return ([], p)
  else
    let result ← p.read 0 size
    return (result, p.advance size)

def fetchEnd (p : PointerParser) : Option PointerParser :=
  if p.leftLen ≠ 0 then p.setError "Too much data to fetch" else some p

/-! ## Calls -/

inductive Call where
  | fetchInt
  | fetchLong
  /-- The size of a type is positive, and not greater than the buffer of zeros. -/
  | fetchBinary (size : Nat) (hpos : 0 < size) (hsize : size ≤ 32)
  | fetchString
  | fetchStringRaw (size : Nat)
  | fetchEnd

inductive Fetched where
  | int (x : Int32)
  | long (x : Int64)
  | binary (bytes : Bytes)
  | string (str : Bytes)
  | nothing
deriving DecidableEq

/-- Zero, or an empty string. -/
def Fetched.IsZero : Fetched → Prop
  | .int x => x = 0
  | .long x => x = 0
  | .binary bytes => ∀ b ∈ bytes, b = 0
  | .string str => str = []
  | .nothing => True

def call (p : PointerParser) : Call → Option (Fetched × PointerParser)
  | .fetchInt => p.fetchInt.map fun (x, p) => (.int x, p)
  | .fetchLong => p.fetchLong.map fun (x, p) => (.long x, p)
  | .fetchBinary size _ _ => (p.fetchBinary size).map fun (bytes, p) => (.binary bytes, p)
  | .fetchString => p.fetchString.map fun (str, p) => (.string str, p)
  | .fetchStringRaw size => (p.fetchStringRaw size).map fun (str, p) => (.string str, p)
  | .fetchEnd => p.fetchEnd.map fun p => (.nothing, p)

def run (p : PointerParser) (calls : List Call) : Option PointerParser :=
  calls.foldlM (fun p c => (p.call c).map Prod.snd) p

/-! ## What is kept -/

/-- How many bytes were taken. -/
def consumed (p : PointerParser) : Nat := p.dataLen - p.leftLen

variable {input : Bytes} {p q : PointerParser} {n : Nat}

/-- A parser without an error, with `n` bytes behind the pointer that are counted as taken. -/
structure Healthy (input : Bytes) (n : Nat) (p : PointerParser) : Prop where
  error : p.error = none
  same : p.input = input
  buffer : p.buffer = .input
  dataLen : p.dataLen = input.length
  /-- What is left begins `n` bytes after the pointer. -/
  pos : p.pos + n + p.leftLen = input.length

/-- A parser with an error. Its pointer may be anywhere. -/
structure Failed (p : PointerParser) : Prop where
  error : ∃ error, p.error = some error
  /-- All that is read from now on are zeros. -/
  buffer : p.buffer = .empty
  leftLen : p.leftLen = 0
  dataLen : p.dataLen = 0

/-- What holds between calls. -/
def Safe (input : Bytes) (p : PointerParser) : Prop := Healthy input 0 p ∨ Failed p

/-- What holds once a length was checked. -/
def Ready (input : Bytes) (n : Nat) (p : PointerParser) : Prop :=
  Healthy input n p ∨ Failed p ∧ p.pos = 0

/-- An error stays as it is. -/
def Kept (p q : PointerParser) : Prop := Failed p → Failed q ∧ q.error = p.error

theorem Kept.trans {r : PointerParser} (h : Kept p q) (h' : Kept q r) : Kept p r := by
  intro hfailed
  obtain ⟨hq, herror⟩ := h hfailed
  obtain ⟨hr, herror'⟩ := h' hq
  exact ⟨hr, herror'.trans herror⟩

theorem Healthy.not_failed (h : Healthy input n p) : ¬Failed p := by
  intro hfailed
  obtain ⟨error, herror⟩ := hfailed.error
  rw [h.error] at herror
  cases herror

variable {offset size len start header resultLen aligned : Nat} {result str : Bytes}

theorem Healthy.read (h : Healthy input n p) (hle : p.pos + offset + size ≤ input.length) :
    ∃ result, p.read offset size = some result := by
  have hbytes : p.bytes = input := by
    unfold PointerParser.bytes
    rw [h.buffer, h.same]
  exact ⟨_, if_pos (by rwa [hbytes])⟩

theorem Failed.read (h : Failed p) (hpos : p.pos = 0) (hle : offset + size ≤ 32) :
    p.read offset size = some (replicate size 0) := by
  have hbytes : p.bytes = replicate 32 0 := by
    unfold PointerParser.bytes
    rw [h.buffer]
    rfl
  unfold PointerParser.read
  rw [hbytes, length_replicate, if_pos (by omega), drop_replicate,
    take_replicate, Nat.min_eq_left (by omega)]

theorem Ready.read (h : Ready input n p) (hn : offset + size ≤ n) (hle : offset + size ≤ 32) :
    ∃ result, p.read offset size = some result ∧ (Failed p → result = replicate size 0) := by
  rcases h with h | ⟨h, hpos⟩
  · have hpos := h.pos
    obtain ⟨result, hread⟩ := h.read (by omega : p.pos + offset + size ≤ input.length)
    exact ⟨result, hread, fun hfailed => absurd hfailed h.not_failed⟩
  · exact ⟨_, h.read hpos hle, fun _ => rfl⟩

theorem Healthy.advance {k : Nat} (h : Healthy input (k + n) p) :
    Healthy input n (p.advance k) where
  error := h.error
  same := h.same
  buffer := h.buffer
  dataLen := h.dataLen
  pos := by
    have hpos := h.pos
    show p.pos + k + n + p.leftLen = input.length
    omega

theorem Failed.advance (h : Failed p) (k : Nat) : Failed (p.advance k) :=
  ⟨h.error, h.buffer, h.leftLen, h.dataLen⟩

theorem Ready.healthy_or (h : Ready input n p) : Healthy input n p ∨ Failed p :=
  h.imp_right And.left

theorem Ready.advance (h : Ready input n p) : Safe input (p.advance n) := by
  rcases h with h | ⟨h, -⟩
  · exact .inl h.advance
  · exact .inr (h.advance n)

/-! ## Checks -/

/-- An error is set or stays, and the pointer goes to the zeros. -/
theorem setError_spec (h : Healthy input n p ∨ Failed p) (message : String) :
    ∃ q, p.setError message = some q ∧ Failed q ∧ q.pos = 0 ∧ Kept p q := by
  unfold setError
  rcases h with h | h
  · rw [h.error]
    refine ⟨_, rfl, ⟨⟨_, rfl⟩, rfl, rfl, rfl⟩, rfl, ?_⟩
    intro hfailed
    exact absurd hfailed h.not_failed
  have hfailed : Failed { p with buffer := .empty, pos := 0 } :=
    ⟨h.error, rfl, h.leftLen, h.dataLen⟩
  split
  · rename_i hnone
    obtain ⟨error, herror⟩ := h.error
    rw [hnone] at herror
    cases herror
  · rw [if_pos ⟨h.dataLen, h.leftLen⟩]
    exact ⟨_, rfl, hfailed, rfl, fun _ => ⟨hfailed, rfl⟩⟩

theorem checkLen_healthy (h : Healthy input n p) (len : Nat) :
    ∃ q, p.checkLen len = some q ∧
      (Healthy input (n + len) q ∧ q.pos = p.pos ∨ Failed q ∧ q.pos = 0) := by
  have hpos := h.pos
  unfold checkLen
  split
  · obtain ⟨q, hq, hfailed, hzero, -⟩ :=
      setError_spec (.inl h) "Not enough data to read"
    exact ⟨q, hq, .inr ⟨hfailed, hzero⟩⟩
  · refine ⟨_, rfl, .inl ⟨⟨h.error, h.same, h.buffer, h.dataLen, ?_⟩, rfl⟩⟩
    show p.pos + (n + len) + (p.leftLen - len) = input.length
    omega

/-- After an error a check of a positive length brings the pointer back to the start. -/
theorem checkLen_failed (h : Failed p) (len : Nat) :
    ∃ q, p.checkLen len = some q ∧ Failed q ∧ q.error = p.error ∧
      (0 < len → q.pos = 0) := by
  unfold checkLen
  split
  · obtain ⟨q, hq, -, hzero, hkept⟩ :=
      setError_spec (.inr h : Healthy [] 0 p ∨ Failed p) "Not enough data to read"
    exact ⟨q, hq, (hkept h).1, (hkept h).2, fun _ => hzero⟩
  rename_i hle
  rw [h.leftLen] at hle
  refine ⟨_, rfl, ⟨h.error, h.buffer, ?_, h.dataLen⟩, rfl, fun hlt => absurd hlt hle⟩
  rw [h.leftLen, Nat.zero_sub]

/-- **What was checked can be read.** -/
theorem checkLen_ready (h : Healthy input n p ∨ Failed p) (hlen : 0 < len) :
    ∃ q, p.checkLen len = some q ∧ Ready input (n + len) q ∧ Kept p q := by
  rcases h with h | h
  · obtain ⟨q, hq, hcases⟩ := checkLen_healthy h len
    exact ⟨q, hq, hcases.imp_left And.left, fun hfailed => absurd hfailed h.not_failed⟩
  · obtain ⟨q, hq, hfailed, herror, hpos⟩ := checkLen_failed h len
    exact ⟨q, hq, .inr ⟨hfailed, hpos hlen⟩, fun _ => ⟨hfailed, herror⟩⟩

/-! ## The calls one by one -/

/-- What a call gives. After an error the result is one of those that count as `zero`. -/
def After {α : Type} (input : Bytes) (zero : α → Prop) (p : PointerParser)
    (result : Option (α × PointerParser)) : Prop :=
  ∃ x q, result = some (x, q) ∧ Safe input q ∧ Kept p q ∧ (Failed p → zero x)

theorem After.map {α β : Type} {zero : α → Prop} {zero' : β → Prop} {f : α → β}
    {result : Option (α × PointerParser)} (h : After input zero p result)
    (hf : ∀ x, zero x → zero' (f x)) :
    After input zero' p (result.map fun (x, p) => (f x, p)) := by
  obtain ⟨x, q, rfl, hsafe, hkept, hzero⟩ := h
  exact ⟨f x, q, rfl, hsafe, hkept, fun hfailed => hf x (hzero hfailed)⟩

theorem After.of_kept {α : Type} {zero : α → Prop} {result : Option (α × PointerParser)}
    (hkept : Kept p q) (h : After input zero q result) : After input zero p result := by
  obtain ⟨x, r, hresult, hsafe, hkept', hzero⟩ := h
  exact ⟨x, r, hresult, hsafe, hkept.trans hkept', fun hfailed => hzero (hkept hfailed).1⟩

theorem fetchBinary_after (h : Safe input p) (hpos : 0 < size) (hsize : size ≤ 32) :
    After input (fun bytes => bytes = replicate size 0) p (p.fetchBinary size) := by
  obtain ⟨q, hq, hready, hkept⟩ := checkLen_ready h hpos
  rw [zero_add] at hready
  obtain ⟨result, hread, hzero⟩ := hready.read (by omega) (by omega : 0 + size ≤ 32)
  have hfetch : p.fetchBinary size = some (result, q.advance size) := by
    unfold fetchBinary
    rw [hq]
    show (q.read 0 size).bind _ = _
    rw [hread]
    rfl
  exact ⟨result, q.advance size, hfetch, hready.advance,
    fun hfailed => ⟨(hkept hfailed).1.advance size, (hkept hfailed).2⟩,
    fun hfailed => hzero (hkept hfailed).1⟩

theorem fetchInt_after (h : Safe input p) : After input (fun x => x = 0) p p.fetchInt := by
  refine After.map (f := fun result => (UInt32.ofNat (leNat result)).toInt32)
    (fetchBinary_after h (by decide) (by decide)) ?_
  intro bytes hbytes
  rw [hbytes]
  rfl

theorem fetchLong_after (h : Safe input p) : After input (fun x => x = 0) p p.fetchLong := by
  refine After.map (f := fun result => (UInt64.ofNat (leNat result)).toInt64)
    (fetchBinary_after h (by decide) (by decide)) ?_
  intro bytes hbytes
  rw [hbytes]
  rfl

/-- The string is inside of what was checked, padding included. -/
theorem fetchBody_after (h : Healthy input header p ∨ Failed p)
    (hlen : start + resultLen ≤ header + aligned) :
    After input (fun str => str = []) p (p.fetchBody start header resultLen aligned) := by
  have hfetch : ∀ q, (p.advance header).checkLen aligned = some q →
      p.fetchBody start header resultLen aligned =
        if q.error.isSome then some ([], q)
        else (p.read start resultLen).bind fun result => some (result, q.advance aligned) := by
    intro q hq
    unfold fetchBody
    rw [hq]
    rfl
  have hempty : ∀ q, (p.advance header).checkLen aligned = some q → Failed q →
      p.fetchBody start header resultLen aligned = some ([], q) := by
    intro q hq hfailed
    obtain ⟨error, herror⟩ := hfailed.error
    rw [hfetch q hq, herror]
    rfl
  rcases h with h | h
  · have hkept : ∀ r, Kept p r := fun _ hfailed => absurd hfailed h.not_failed
    obtain ⟨q, hq, ⟨hgood, hpos⟩ | ⟨hbad, -⟩⟩ :=
      checkLen_healthy (Healthy.advance (k := header) (n := 0) h) aligned
    · have hroom := hgood.pos
      have hmoved : q.pos = p.pos + header := hpos
      obtain ⟨result, hread⟩ := h.read (by omega : p.pos + start + resultLen ≤ input.length)
      refine ⟨result, q.advance aligned, ?_, .inl ?_, hkept _, fun hfailed => ?_⟩
      · rw [hfetch q hq, hgood.error, hread]
        rfl
      · rw [zero_add] at hgood
        exact Healthy.advance (k := aligned) (n := 0) hgood
      · exact absurd hfailed h.not_failed
    · exact ⟨[], q, hempty q hq hbad, .inr hbad, hkept q, fun _ => rfl⟩
  · obtain ⟨q, hq, hbad, herror, -⟩ := checkLen_failed (h.advance header) aligned
    exact ⟨[], q, hempty q hq hbad, .inr hbad, fun _ => ⟨hbad, herror⟩, fun _ => rfl⟩

theorem fetchString_after (h : Safe input p) :
    After input (fun str => str = []) p p.fetchString := by
  obtain ⟨q, hq, hready, hkept⟩ := checkLen_ready h (by decide : 0 < 4)
  obtain ⟨first, hfirst, -⟩ := hready.read (by decide) (by decide : 0 + 1 ≤ 32)
  refine After.of_kept hkept ?_
  unfold fetchString
  rw [hq]
  show After _ _ _ ((q.read 0 1).bind _)
  rw [hfirst]
  dsimp only [Option.bind_some]
  split
  · exact fetchBody_after hready.healthy_or (by omega)
  split
  · obtain ⟨length, hlength, -⟩ := hready.read (by decide) (by decide : 1 + 3 ≤ 32)
    rw [hlength]
    exact fetchBody_after hready.healthy_or (by omega)
  -- a second check, which may be the first that fails
  obtain ⟨r, hr, hready', hkept'⟩ := checkLen_ready hready.healthy_or (by decide : 0 < 4)
  obtain ⟨length, hlength, -⟩ := hready'.read (by decide) (by decide : 1 + 7 ≤ 32)
  refine After.of_kept hkept' ?_
  rw [hr]
  show After _ _ _ ((r.read 1 7).bind _)
  rw [hlength]
  dsimp only [Option.bind_some]
  split
  · obtain ⟨t, ht, hbad, -, hkept''⟩ := setError_spec hready'.healthy_or "Too big string found"
    rw [ht]
    exact ⟨[], t, rfl, .inr hbad, hkept'', fun _ => rfl⟩
  · exact fetchBody_after hready'.healthy_or (by omega)

theorem setError_isSome {message : String} (h : p.setError message = some q) : q.error.isSome := by
  unfold setError at h
  split at h
  · cases h
    rfl
  rename_i herror
  split at h
  · cases h
    exact congrArg Option.isSome herror
  · cases h

/-- A string without a length is the end of one, without a header. -/
theorem fetchStringRaw_eq (p : PointerParser) (size : Nat) :
    p.fetchStringRaw size = p.fetchBody 0 0 size size := by
  refine Option.bind_congr fun q hq => ?_
  unfold checkLen at hq
  split at hq
  · rw [if_pos (setError_isSome hq), if_pos (setError_isSome hq)]
  · cases hq
    rfl

theorem fetchStringRaw_after (h : Safe input p) (size : Nat) :
    After input (fun str => str = []) p (p.fetchStringRaw size) := by
  rw [fetchStringRaw_eq]
  exact fetchBody_after h le_rfl

theorem fetchEnd_safe (h : Safe input p) :
    ∃ q, p.fetchEnd = some q ∧ Safe input q ∧ Kept p q := by
  unfold fetchEnd
  split
  · obtain ⟨q, hq, hbad, -, hkept⟩ :=
      setError_spec h "Too much data to fetch"
    exact ⟨q, hq, .inr hbad, hkept⟩
  · exact ⟨p, rfl, h, fun hfailed => ⟨hfailed, rfl⟩⟩

theorem call_after (h : Safe input p) (c : Call) : After input Fetched.IsZero p (p.call c) := by
  cases c with
  | fetchInt => exact (fetchInt_after h).map fun _ hx => hx
  | fetchLong => exact (fetchLong_after h).map fun _ hx => hx
  | fetchBinary size hpos hsize =>
    refine (fetchBinary_after h hpos hsize).map ?_
    intro bytes hbytes b hb
    rw [hbytes] at hb
    exact eq_of_mem_replicate hb
  | fetchString => exact (fetchString_after h).map fun _ hstr => hstr
  | fetchStringRaw size => exact (fetchStringRaw_after h size).map fun _ hstr => hstr
  | fetchEnd =>
    obtain ⟨q, hq, hsafe, hkept⟩ := fetchEnd_safe h
    refine ⟨.nothing, q, ?_, hsafe, hkept, fun _ => trivial⟩
    show p.fetchEnd.map _ = _
    rw [hq]
    rfl

/-- Every run stays inside, and keeps an error. -/
theorem run_safe (h : Safe input p) (calls : List Call) :
    ∃ q, p.run calls = some q ∧ Safe input q ∧ Kept p q := by
  induction calls generalizing p with
  | nil => exact ⟨p, rfl, h, fun hfailed => ⟨hfailed, rfl⟩⟩
  | cons c calls ih =>
    obtain ⟨x, q, hcall, hsafe, hkept, -⟩ := call_after h c
    obtain ⟨r, hr, hsafe', hkept'⟩ := ih hsafe
    refine ⟨r, ?_, hsafe', hkept.trans hkept'⟩
    show ((p.call c).map Prod.snd).bind _ = _
    rw [hcall]
    exact hr

theorem safe_ofSlice (input : Bytes) : Safe input (ofSlice input) :=
  .inl ⟨rfl, rfl, rfl, rfl, zero_add _⟩

theorem Safe.healthy (h : Safe input p) (hnone : p.error = none) : Healthy input 0 p := by
  rcases h with h | h
  · exact h
  · obtain ⟨error, herror⟩ := h.error
    rw [hnone] at herror
    cases herror

theorem Safe.failed (h : Safe input p) {error : String × Nat} (hsome : p.error = some error) :
    Failed p := by
  rcases h with h | h
  · rw [h.error] at hsome
    cases hsome
  · exact h

/-- **The parser is safe on arbitrary bytes.** No call reads outside of the input and the zeros.
Without an error the pointer is where the counters say. With one, the error stays, nothing is left,
and everything fetched later is zero or empty. -/
theorem reads_inside (input : Bytes) (calls : List Call) :
    ∃ p, (ofSlice input).run calls = some p ∧
      (p.error = none → p.input = input ∧ p.buffer = .input ∧ p.pos = p.consumed ∧
        p.consumed + p.leftLen = input.length) ∧
      (∀ error, p.error = some error → p.leftLen = 0 ∧
        ∀ later, ∃ q, p.run later = some q ∧ q.error = some error ∧ q.leftLen = 0 ∧
          ∀ c, ∃ x r, q.call c = some (x, r) ∧ x.IsZero) := by
  obtain ⟨p, hrun, hsafe, -⟩ := run_safe (safe_ofSlice input) calls
  refine ⟨p, hrun, ?_, ?_⟩
  · intro hnone
    have hgood := hsafe.healthy hnone
    have hpos := hgood.pos
    have hconsumed : p.consumed = input.length - p.leftLen := by
      unfold consumed
      rw [hgood.dataLen]
    refine ⟨hgood.same, hgood.buffer, ?_, ?_⟩ <;> omega
  intro error hsome
  have hbad := hsafe.failed hsome
  refine ⟨hbad.leftLen, ?_⟩
  intro later
  obtain ⟨q, hq, hsafe', hkept⟩ := run_safe hsafe later
  obtain ⟨hbad', herror⟩ := hkept hbad
  refine ⟨q, hq, herror.trans hsome, hbad'.leftLen, ?_⟩
  intro c
  obtain ⟨x, r, hcall, -, -, hzero⟩ := call_after hsafe' c
  exact ⟨x, r, hcall, hzero hbad'⟩

/-! ## The bytes behind the pointer

`TlParser` computes the same, on the bytes behind the pointer.
-/

def view (p : PointerParser) : TlParser := ⟨p.bytes.drop p.pos, p.leftLen, p.dataLen, p.error⟩

theorem view_read (h : p.read offset size = some result) :
    (p.view.data.drop offset).take size = result := by
  unfold read at h
  split at h
  · cases h
    show ((p.bytes.drop p.pos).drop offset).take size = _
    rw [drop_drop]
  · cases h

theorem view_advance (p : PointerParser) (size : Nat) :
    (p.advance size).view = { p.view with data := p.view.data.drop size } := by
  show TlParser.mk (p.bytes.drop (p.pos + size)) _ _ _ =
    TlParser.mk ((p.bytes.drop p.pos).drop size) _ _ _
  rw [drop_drop]
  rfl

theorem view_setError {message : String} (h : p.setError message = some q) :
    q.view = p.view.setError message := by
  have hview : p.view.error = p.error := rfl
  unfold setError at h
  unfold TlParser.setError
  rw [hview]
  cases herror : p.error with
  | none =>
    rw [herror] at h
    cases h
    exact congrArg (fun data => TlParser.mk data _ _ _) drop_zero
  | some error =>
    rw [herror] at h
    dsimp only at h
    split at h
    · cases h
      exact congrArg (fun data => TlParser.mk data _ _ _) drop_zero
    · cases h

theorem view_checkLen (h : p.checkLen len = some q) : q.view = p.view.checkLen len := by
  unfold checkLen at h
  unfold TlParser.checkLen
  split at h
  · rename_i hlt
    rw [if_pos (show p.view.leftLen < len from hlt)]
    exact view_setError h
  · rename_i hle
    rw [if_neg (show ¬p.view.leftLen < len from hle)]
    cases h
    rfl

theorem view_fetchBinary (h : p.fetchBinary size = some (result, q)) :
    (p.view.checkLen size).data.take size = result ∧
      q.view = { p.view.checkLen size with data := (p.view.checkLen size).data.drop size } := by
  obtain ⟨r, hr, h⟩ := bind_eq_some_iff.mp h
  obtain ⟨bytes, hread, h⟩ := bind_eq_some_iff.mp h
  cases h
  rw [← view_checkLen hr]
  exact ⟨view_read hread, view_advance r size⟩

theorem view_fetchInt {x : Int32} (h : p.fetchInt = some (x, q)) :
    p.view.fetchInt = (x, q.view) := by
  obtain ⟨⟨result, r⟩, hfetch, heq⟩ := map_eq_some_iff.mp h
  cases heq
  obtain ⟨hresult, hview⟩ := view_fetchBinary hfetch
  rw [hview, ← hresult]
  rfl

theorem view_fetchLong {x : Int64} (h : p.fetchLong = some (x, q)) :
    p.view.fetchLong = (x, q.view) := by
  obtain ⟨⟨result, r⟩, hfetch, heq⟩ := map_eq_some_iff.mp h
  cases heq
  obtain ⟨hresult, hview⟩ := view_fetchBinary hfetch
  rw [hview, ← hresult]
  rfl

theorem view_fetchBody (h : p.fetchBody start header resultLen aligned = some (str, q)) :
    p.view.fetchBody start header resultLen aligned = (str, q.view) := by
  obtain ⟨r, hr, h⟩ := bind_eq_some_iff.mp h
  have hview := view_checkLen hr
  rw [view_advance] at hview
  unfold TlParser.fetchBody
  rw [← hview]
  split at h
  · rename_i herror
    cases h
    rw [if_pos (show q.view.error.isSome from herror)]
  · rename_i herror
    rw [if_neg (show ¬r.view.error.isSome from herror)]
    obtain ⟨bytes, hread, h⟩ := bind_eq_some_iff.mp h
    cases h
    rw [view_read hread, view_advance]

theorem view_fetchString (h : p.fetchString = some (str, q)) :
    p.view.fetchString = (str, q.view) := by
  obtain ⟨r, hr, h⟩ := bind_eq_some_iff.mp h
  obtain ⟨first, hfirst, h⟩ := bind_eq_some_iff.mp h
  have hfirst' : leNat (r.view.data.take 1) = leNat first := congrArg leNat (view_read hfirst)
  unfold TlParser.fetchString
  dsimp only at h ⊢
  rw [← view_checkLen hr, hfirst']
  split at h
  · rename_i hshort
    rw [if_pos hshort]
    exact view_fetchBody h
  rename_i hlong
  rw [if_neg hlong]
  split at h
  · rename_i hmiddle
    rw [if_pos hmiddle]
    obtain ⟨length, hlength, h⟩ := bind_eq_some_iff.mp h
    rw [view_read hlength]
    exact view_fetchBody h
  rename_i hmiddle
  rw [if_neg hmiddle]
  obtain ⟨t, ht, h⟩ := bind_eq_some_iff.mp h
  obtain ⟨length, hlength, h⟩ := bind_eq_some_iff.mp h
  rw [← view_checkLen ht, view_read hlength]
  split at h
  · rename_i hbig
    obtain ⟨u, hu, heq⟩ := map_eq_some_iff.mp h
    cases heq
    rw [if_pos hbig, view_setError hu]
  · rename_i hbig
    rw [if_neg hbig]
    exact view_fetchBody h

theorem view_fetchStringRaw (h : p.fetchStringRaw size = some (str, q)) :
    p.view.fetchStringRaw size = (str, q.view) := by
  obtain ⟨r, hr, h⟩ := bind_eq_some_iff.mp h
  unfold TlParser.fetchStringRaw
  rw [← view_checkLen hr]
  split at h
  · rename_i herror
    cases h
    rw [if_pos (show q.view.error.isSome from herror)]
  rename_i herror
  rw [if_neg (show ¬r.view.error.isSome from herror)]
  obtain ⟨result, hread, h⟩ := bind_eq_some_iff.mp h
  cases h
  have hresult : r.view.data.take size = str := view_read hread
  rw [hresult, view_advance]

theorem view_fetchEnd (h : p.fetchEnd = some q) : p.view.fetchEnd = q.view := by
  unfold fetchEnd at h
  unfold TlParser.fetchEnd
  split at h
  · rename_i hleft
    rw [if_pos (show p.view.leftLen ≠ 0 from hleft)]
    exact (view_setError h).symm
  · rename_i hleft
    rw [if_neg (show ¬p.view.leftLen ≠ 0 from hleft)]
    cases h
    rfl

end PointerParser

open PointerParser

/-- A call on the bytes behind the pointer. -/
def TlParser.call (p : TlParser) : Call → Fetched × TlParser
  | .fetchInt => p.fetchInt.map .int id
  | .fetchLong => p.fetchLong.map .long id
  | .fetchBinary size _ _ =>
    let p := p.checkLen size
    (.binary (p.data.take size), { p with data := p.data.drop size })
  | .fetchString => p.fetchString.map .string id
  | .fetchStringRaw size => (p.fetchStringRaw size).map .string id
  | .fetchEnd => (.nothing, p.fetchEnd)

namespace PointerParser

variable {p q : PointerParser}

theorem view_map {α : Type} {f : α → Fetched} {result : Option (α × PointerParser)}
    {viewed : α × TlParser} {x : Fetched} (hview : ∀ y r, result = some (y, r) →
      viewed = (y, r.view))
    (h : result.map (fun (y, p) => (f y, p)) = some (x, q)) : viewed.map f id = (x, q.view) := by
  obtain ⟨⟨y, r⟩, hresult, heq⟩ := map_eq_some_iff.mp h
  cases heq
  rw [hview y q hresult]
  rfl

/-- **One call does the same to both parsers.** -/
theorem view_call {c : Call} {x : Fetched} (h : p.call c = some (x, q)) :
    p.view.call c = (x, q.view) := by
  cases c with
  | fetchInt => exact view_map (fun _ _ => view_fetchInt) h
  | fetchLong => exact view_map (fun _ _ => view_fetchLong) h
  | fetchBinary size hpos hsize =>
    obtain ⟨⟨result, r⟩, hfetch, heq⟩ := map_eq_some_iff.mp h
    cases heq
    obtain ⟨hresult, hview⟩ := view_fetchBinary hfetch
    rw [hview, ← hresult]
    rfl
  | fetchString => exact view_map (fun _ _ => view_fetchString) h
  | fetchStringRaw size => exact view_map (fun _ _ => view_fetchStringRaw) h
  | fetchEnd =>
    obtain ⟨r, hend, heq⟩ := map_eq_some_iff.mp h
    cases heq
    exact congrArg (Prod.mk Fetched.nothing) (view_fetchEnd hend)

/-- **The parser with a pointer refines the one on bytes**: after any calls, the next one succeeds
on both, with the same answer. -/
theorem pointer_refines_bytes (input : Bytes) (calls : List Call) (c : Call) :
    ∃ p x q, (ofSlice input).run calls = some p ∧ p.call c = some (x, q) ∧
      (calls.foldl (fun p c => (TlParser.call p c).2) (TlParser.ofSlice input)).call c
        = (x, q.view) := by
  have hfrom : ∀ p, Safe input p → ∃ q, p.run calls = some q ∧ Safe input q ∧
      q.view = calls.foldl (fun p c => (p.call c).2) p.view := by
    induction calls with
    | nil =>
      intro p hsafe
      exact ⟨p, rfl, hsafe, rfl⟩
    | cons c calls ih =>
      intro p hsafe
      obtain ⟨x, r, hcall, hsafe', -⟩ := call_after hsafe c
      obtain ⟨q, hq, hsafe'', hview⟩ := ih r hsafe'
      refine ⟨q, ?_, hsafe'', ?_⟩
      · show ((p.call c).map Prod.snd).bind _ = _
        rw [hcall]
        exact hq
      · rw [hview, foldl_cons, view_call hcall]
  obtain ⟨p, hp, hsafe, hview⟩ := hfrom (ofSlice input) (safe_ofSlice input)
  obtain ⟨x, q, hcall, -⟩ := call_after hsafe c
  refine ⟨p, x, q, hp, hcall, ?_⟩
  rw [show TlParser.ofSlice input = (ofSlice input).view from rfl, ← hview]
  exact view_call hcall

end PointerParser

end Tdlib.Tl
