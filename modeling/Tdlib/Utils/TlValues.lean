import Tdlib.Utils.Tl

/-!
# Values in TL

What `store` and `parse` do with integers, strings and vectors of such values, which may be nested.
The type of a value is known to both of them and is not stored.

`TlStorerCalcLength` says how many bytes a value takes before it is stored. It has its own
arithmetic for strings, and so has the parser. They agree at every length, and so a sequence of
values comes back as it was stored, with nothing left.
-/

namespace Tdlib.Tl

open Lib List

inductive Ty where
  | int
  | long
  | string
  | vector (element : Ty)
deriving DecidableEq

/-- The values of a type. -/
def Ty.Value : Ty → Type
  | .int => Int32
  | .long => Int64
  | .string => Bytes
  | .vector element => List element.Value

/-- A value with its type. -/
abbrev Value := (ty : Ty) × ty.Value

/-! ## Storing -/

/-- Values one after another. -/
def storeEach {α : Type} (store : α → Option Bytes) : List α → Option Bytes
  | [] => some []
  | val :: vec => do
      let stored ← store val
      let rest ← storeEach store vec
      return stored ++ rest

/-- The size of a vector is cast to `int32`, which fails if it does not fit. -/
def storeVector {α : Type} (store : α → Option Bytes) (vec : List α) : Option Bytes :=
  if vec.length < 0x80000000 then
    (storeEach store vec).map fun stored => storeInt (Int32.ofNat vec.length) ++ stored
  else none

def store : (ty : Ty) → ty.Value → Option Bytes
  | .int, x => some (storeInt x)
  | .long, x => some (storeLong x)
  | .string, x => storeString x
  | .vector element, vec => storeVector (store element) vec

def storeAll (values : List Value) : Option Bytes := storeEach (fun v => store v.1 v.2) values

/-! ## The length -/

/-- What `TlStorerCalcLength` adds for a string, in 64 bits. -/
def calcString (str : Bytes) : Nat :=
  let add := str.length
  let add := if add < 254 then add + 1 else if add < 1 <<< 24 then add + 4 else add + 8
  (add + 3) % 0x10000000000000000 / 4 * 4

/-- The length after a value was added to it, in 64 bits. -/
def calcLength : (ty : Ty) → Nat → ty.Value → Nat
  | .int, length, _ => (length + 4) % 0x10000000000000000
  | .long, length, _ => (length + 8) % 0x10000000000000000
  | .string, length, x => (length + calcString x) % 0x10000000000000000
  | .vector element, length, vec =>
    foldl (calcLength element) ((length + 4) % 0x10000000000000000) vec

def calcAll (values : List Value) : Nat :=
  values.foldl (fun length v => calcLength v.1 length v.2) 0

/-! ## Parsing -/

/-- So many values one after another. -/
def parseEach {α : Type} (parse : TlParser → α × TlParser) : Nat → TlParser → List α × TlParser
  | 0, p => ([], p)
  | n + 1, p =>
    let (val, p) := parse p
    let (vec, p) := parseEach parse n p
    (val :: vec, p)

def parseVector {α : Type} (parse : TlParser → α × TlParser) (p : TlParser) : List α × TlParser :=
  let (x, p) := p.fetchInt
  let size := x.toUInt32.toNat
  if p.leftLen < size then ([], p.setError "Wrong vector length")
  else parseEach parse size p

def parse : (ty : Ty) → TlParser → ty.Value × TlParser
  | .int, p => p.fetchInt
  | .long, p => p.fetchLong
  | .string, p => p.fetchString
  | .vector element, p => parseVector (parse element) p

def parseAll : List Ty → TlParser → List Value × TlParser
  | [], p => ([], p)
  | ty :: types, p =>
    let (val, p) := parse ty p
    let (values, p) := parseAll types p
    (⟨ty, val⟩ :: values, p)

/-- `get_status`, where `none` is OK. -/
def TlParser.getStatus (p : TlParser) : Option String :=
  p.error.map fun (message, pos) => message ++ " at " ++ toString pos

/-! ## One value -/

/-- A value takes whole words, as many as were computed. -/
structure Sized {α : Type} (store : α → Option Bytes) (calcLength : Nat → α → Nat) : Prop where
  word : ∀ x stored, store x = some stored → 4 ≤ stored.length ∧ stored.length % 4 = 0
  length : ∀ x stored, store x = some stored → ∀ length,
    calcLength length x = (length + stored.length) % 0x10000000000000000

/-- What holds of a type: also, a value is read back. -/
structure Sound {α : Type} (store : α → Option Bytes) (calcLength : Nat → α → Nat)
    (parse : TlParser → α × TlParser) : Prop extends Sized store calcLength where
  back : ∀ x stored, store x = some stored → ∀ n rest,
    parse (.ok n (stored ++ rest)) = (x, .ok n rest)

variable {str stored : Bytes}

/-- The calculator and the storer agree on every string. -/
theorem length_storeString (h : storeString str = some stored) :
    stored.length = calcString str := by
  unfold storeString at h
  unfold calcString
  dsimp only at h ⊢
  split at h
  · rename_i hshort
    cases h
    rw [if_pos hshort, length_cons, length_append, length_padding]
    omega
  rename_i hlong
  rw [if_neg hlong]
  split at h
  · rename_i hmiddle
    cases h
    rw [if_pos hmiddle, length_cons, length_append, length_append, length_padding, length_leBytes]
    omega
  rename_i hbig
  rw [if_neg hbig]
  split at h
  · cases h
    simp only [length_cons, length_append, length_nil, length_padding, length_leBytes]
    omega
  · cases h

section Vector

variable {α : Type} {store : α → Option Bytes} {calcLength : Nat → α → Nat}
  {parse : TlParser → α × TlParser} {vec : List α} {stored : Bytes}

theorem storeEach_cons {val : α} (h : storeEach store (val :: vec) = some stored) :
    ∃ first rest, store val = some first ∧ storeEach store vec = some rest ∧
      stored = first ++ rest := by
  obtain ⟨first, hfirst, h⟩ := Option.bind_eq_some_iff.mp h
  obtain ⟨rest, hrest, h⟩ := Option.bind_eq_some_iff.mp h
  exact ⟨first, rest, hfirst, hrest, (Option.some.inj h).symm⟩

theorem Sized.word_each (hs : Sized store calcLength) (h : storeEach store vec = some stored) :
    4 * vec.length ≤ stored.length ∧ stored.length % 4 = 0 := by
  induction vec generalizing stored with
  | nil =>
    cases h
    exact ⟨le_rfl, rfl⟩
  | cons val vec ih =>
    obtain ⟨first, rest, hfirst, hrest, rfl⟩ := storeEach_cons h
    have hone := hs.word val first hfirst
    have hmany := ih hrest
    rw [length_append, length_cons]
    omega

theorem Sized.length_each (hs : Sized store calcLength) (h : storeEach store vec = some stored)
    {length : Nat} (hlength : length < 0x10000000000000000) :
    vec.foldl calcLength length = (length + stored.length) % 0x10000000000000000 := by
  induction vec generalizing stored length with
  | nil =>
    cases h
    exact (Nat.mod_eq_of_lt hlength).symm
  | cons val vec ih =>
    obtain ⟨first, rest, hfirst, hrest, rfl⟩ := storeEach_cons h
    rw [foldl_cons, hs.length val first hfirst, ih hrest (Nat.mod_lt _ (by decide)),
      Nat.mod_add_mod, length_append, add_assoc]

theorem Sound.back_each (hs : Sound store calcLength parse) (h : storeEach store vec = some stored)
    (n : Nat) (rest : Bytes) :
    parseEach parse vec.length (.ok n (stored ++ rest)) = (vec, .ok n rest) := by
  induction vec generalizing stored with
  | nil =>
    cases h
    rfl
  | cons val vec ih =>
    obtain ⟨first, others, hfirst, hothers, rfl⟩ := storeEach_cons h
    rw [length_cons]
    unfold parseEach
    rw [append_assoc, hs.back val first hfirst]
    dsimp only
    rw [ih hothers]

theorem toNat_size {n : Nat} (h : n < 0x80000000) : (Int32.ofNat n).toUInt32.toNat = n := by
  exact Nat.mod_eq_of_lt (by omega)

/-- A vector of such values is such a value. -/
theorem Sound.vector (hs : Sound store calcLength parse) :
    Sound (storeVector store)
      (fun length vec => vec.foldl calcLength ((length + 4) % 0x10000000000000000))
      (parseVector parse) := by
  have hcases : ∀ vec stored, storeVector store vec = some stored →
      vec.length < 0x80000000 ∧ ∃ rest, storeEach store vec = some rest ∧
        stored = storeInt (Int32.ofNat vec.length) ++ rest := by
    intro vec stored h
    unfold storeVector at h
    split at h
    · rename_i hsize
      obtain ⟨rest, hrest, rfl⟩ := Option.map_eq_some_iff.mp h
      exact ⟨hsize, rest, hrest, rfl⟩
    · cases h
  refine ⟨⟨?_, ?_⟩, ?_⟩
  · intro vec stored h
    obtain ⟨-, rest, hrest, rfl⟩ := hcases vec stored h
    have := hs.toSized.word_each hrest
    rw [length_append, length_storeInt]
    omega
  · intro vec stored h length
    obtain ⟨-, rest, hrest, rfl⟩ := hcases vec stored h
    rw [hs.toSized.length_each hrest (Nat.mod_lt _ (by decide)), Nat.mod_add_mod, length_append,
      length_storeInt, add_assoc]
  intro vec stored h n rest
  obtain ⟨hsize, others, hothers, rfl⟩ := hcases vec stored h
  unfold parseVector
  rw [append_assoc, TlParser.fetchInt_ok]
  dsimp only
  rw [toNat_size hsize, if_neg, hs.back_each hothers]
  -- every element takes at least one byte
  have := (hs.toSized.word_each hothers).1
  show ¬(others ++ rest).length < vec.length
  rw [length_append]
  omega

end Vector

theorem sound_int : Sound (fun x : Int32 => some (storeInt x))
    (fun length _ => (length + 4) % 0x10000000000000000) TlParser.fetchInt := by
  refine ⟨⟨?_, ?_⟩, ?_⟩
  · intro x stored h
    cases h
    rw [length_storeInt]
    decide
  · intro x stored h length
    cases h
    rw [length_storeInt]
  · intro x stored h n rest
    cases h
    exact TlParser.fetchInt_ok n x rest

theorem sound_long : Sound (fun x : Int64 => some (storeLong x))
    (fun length _ => (length + 8) % 0x10000000000000000) TlParser.fetchLong := by
  refine ⟨⟨?_, ?_⟩, ?_⟩
  · intro x stored h
    cases h
    rw [length_storeLong]
    decide
  · intro x stored h length
    cases h
    rw [length_storeLong]
  · intro x stored h n rest
    cases h
    exact TlParser.fetchLong_ok n x rest

theorem storeString_ne_nil (h : storeString str = some stored) : stored ≠ [] := by
  rintro rfl
  unfold storeString at h
  dsimp only at h
  split at h
  · cases h
  · split at h
    · cases h
    · split at h <;> cases h

theorem sound_string : Sound storeString
    (fun length x => (length + calcString x) % 0x10000000000000000) TlParser.fetchString := by
  refine ⟨⟨?_, ?_⟩, ?_⟩
  · intro x stored h
    have hmod := length_storeString_mod h
    have hpos := length_pos_iff.mpr (storeString_ne_nil h)
    omega
  · intro x stored h length
    rw [length_storeString h]
  · intro x stored h n rest
    exact TlParser.fetchString_ok n h rest

/-- **Every type is sound.** -/
theorem sound (ty : Ty) : Sound (store ty) (calcLength ty) (parse ty) := by
  induction ty with
  | int => exact sound_int
  | long => exact sound_long
  | string => exact sound_string
  | vector element ih => exact ih.vector

/-! ## A sequence of values -/

/-- A vector of fewer than 2^31 elements, of which each one can be stored. -/
def StorableVector {α : Type} (storable : α → Prop) (vec : List α) : Prop :=
  vec.length < 0x80000000 ∧ ∀ x ∈ vec, storable x

/-- Strings have fewer than 2^32 bytes. -/
def Storable : (ty : Ty) → ty.Value → Prop
  | .int, _ => True
  | .long, _ => True
  | .string, x => length x < 0x100000000
  | .vector element, vec => StorableVector (Storable element) vec

theorem storeEach_isSome {α : Type} {store : α → Option Bytes} {vec : List α}
    (h : ∀ x ∈ vec, ∃ stored, store x = some stored) :
    ∃ stored, storeEach store vec = some stored := by
  induction vec with
  | nil => exact ⟨[], rfl⟩
  | cons x vec ih =>
    obtain ⟨first, hfirst⟩ := h x mem_cons_self
    obtain ⟨rest, hrest⟩ := ih (forall_mem_cons.1 h).2
    refine ⟨first ++ rest, ?_⟩
    unfold storeEach
    rw [hfirst, hrest]
    rfl

theorem storeString_isSome (h : str.length < 0x100000000) :
    ∃ stored, storeString str = some stored := by
  unfold storeString
  dsimp only
  split
  · exact ⟨_, rfl⟩
  · split
    · exact ⟨_, rfl⟩
    · exact ⟨_, if_pos h⟩

theorem store_isSome {ty : Ty} {x : ty.Value} (h : Storable ty x) :
    ∃ stored, store ty x = some stored := by
  induction ty with
  | int | long => exact ⟨_, rfl⟩
  | string => exact storeString_isSome h
  | vector element ih =>
    obtain ⟨hsize, hall⟩ := h
    obtain ⟨rest, hrest⟩ := storeEach_isSome fun y hy => ih (hall y hy)
    refine ⟨storeInt (Int32.ofNat (length x)) ++ rest, ?_⟩
    show storeVector (store element) x = _
    unfold storeVector
    rw [if_pos hsize, hrest]
    rfl

theorem parseAll_ok {values : List Value} (h : storeAll values = some stored) (n : Nat)
    (rest : Bytes) :
    parseAll (values.map Sigma.fst) (.ok n (stored ++ rest)) = (values, .ok n rest) := by
  induction values generalizing stored with
  | nil =>
    cases h
    rfl
  | cons v values ih =>
    obtain ⟨first, others, hfirst, hothers, rfl⟩ := storeEach_cons h
    rw [map_cons]
    unfold parseAll
    rw [append_assoc, (sound v.1).back v.2 first hfirst]
    dsimp only
    rw [ih hothers]

theorem sized_value : Sized (fun v : Value => store v.1 v.2)
    (fun length v => calcLength v.1 length v.2) where
  word v stored h := (sound v.1).word v.2 stored h
  length v stored h := (sound v.1).length v.2 stored h

/-- **Values are stored in as many bytes as computed, and read back.** The length is computed in 64
bits. -/
theorem values_read_back {values : List Value} (hstorable : ∀ v ∈ values, Storable v.1 v.2) :
    ∃ stored, storeAll values = some stored ∧ stored.length % 4 = 0 ∧
      calcAll values = stored.length % 0x10000000000000000 ∧
      ∃ p, parseAll (values.map Sigma.fst) (.ofSlice stored) = (values, p) ∧
        p.data = [] ∧ p.leftLen = 0 ∧ p.fetchEnd.getStatus = none := by
  obtain ⟨stored, h⟩ := storeEach_isSome fun v hv => store_isSome (hstorable v hv)
  have hback := parseAll_ok h stored.length []
  rw [append_nil] at hback
  refine ⟨stored, h, (sized_value.word_each h).2, ?_, .ok stored.length [], hback, rfl, rfl, rfl⟩
  have hlength := sized_value.length_each h (show 0 < _ by decide)
  rwa [zero_add] at hlength

/-- A vector of two strings and a number. -/
theorem values_read_back_three :
    ∃ stored, storeAll [⟨.vector .string, [[1, 2], [3]]⟩, ⟨.int, (-5 : Int32)⟩] = some stored ∧
      (parseAll [.vector .string, .int] (.ofSlice stored)).1 =
        [⟨.vector .string, [[1, 2], [3]]⟩, ⟨.int, (-5 : Int32)⟩] := by
  have hstorable : ∀ v ∈ ([⟨.vector .string, [[1, 2], [3]]⟩, ⟨.int, (-5 : Int32)⟩] : List Value),
      Storable v.1 v.2 := by
    intro v hv
    rcases mem_cons.mp hv with rfl | hv
    · refine ⟨by decide, ?_⟩
      intro x hx
      rcases mem_cons.mp hx with rfl | hx
      · show length _ < _
        decide
      · rw [mem_singleton.mp hx]
        show length _ < _
        decide
    · rw [mem_singleton.mp hv]
      trivial
  obtain ⟨stored, h, -, -, p, hparse, -⟩ := values_read_back hstorable
  exact ⟨stored, h, congrArg Prod.fst hparse⟩

/-- A vector with 2^31 elements is not stored. -/
theorem long_vector_not_stored :
    storeAll [⟨.vector .int, replicate 0x80000000 (0 : Int32)⟩] = none := by
  have hlong : ∀ vec : List Int32, vec.length = 0x80000000 →
      storeAll [⟨.vector .int, vec⟩] = none := by
    intro vec hlength
    have hvec : store (.vector .int) vec = none :=
      if_neg (show ¬vec.length < _ by omega)
    show (store (.vector .int) vec).bind _ = none
    rw [hvec]
    rfl
  exact hlong _ length_replicate

end Tdlib.Tl
