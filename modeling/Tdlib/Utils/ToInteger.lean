import Mathlib

/-!
# Integers in decimal

`to_integer` reads as many digits as there are and computes modulo the size of the type, so it says
nothing about what it was given. `to_integer_safe` prints the result and compares. Since a number is
printed in one way only, and is read back from what was printed, **exactly the canonical forms of
the numbers of the type are accepted**.
-/

namespace Tdlib.Utils

open List

abbrev Text := List UInt8

/-! ## The model -/

inductive IntegerType where
  | int32
  | int64
deriving DecidableEq

def IntegerType.max : IntegerType → Nat
  | .int32 => 0x7fffffff
  | .int64 => 0x7fffffffffffffff

/-- The size of `unsigned_T`. -/
def IntegerType.modulus (type : IntegerType) : Nat := 2 * (type.max + 1)

def isDigit (c : UInt8) : Bool := 48 ≤ c.toNat && c.toNat ≤ 57

def accumulate (type : IntegerType) (value : Nat) (c : UInt8) : Nat :=
  (value * 10 + (c.toNat - 48)) % type.modulus

def toInteger (type : IntegerType) (str : Text) : Int :=
  let isNegative : Bool := str.head? = some 45
  let digits := if isNegative then str.tail else str
  let value := (digits.takeWhile isDigit).foldl (accumulate type) 0
  if type.max < value then
    let value := (type.modulus - value) % type.modulus
    if type.max < value then -(type.max + 1) else if !isNegative then -value else value
  else if isNegative then -value else value

/-- A number below ten is one digit, and any other one ends with its last digit. -/
def printUint (n : Nat) : Text :=
  if n < 10 then [UInt8.ofNat (48 + n)] else printUint (n / 10) ++ [UInt8.ofNat (48 + n % 10)]

/-- The least number of the type is printed as the next one with a greater last digit. -/
def printInt (type : IntegerType) (x : Int) : Text :=
  if x < 0 then
    if x = -(type.max + 1) then (45 :: printUint type.max).modifyLast (· + 1)
    else 45 :: printUint (-x).toNat
  else printUint x.toNat

def toIntegerSafe (type : IntegerType) (str : Text) : Except Text Int :=
  let res := toInteger type str
  if printInt type res ≠ str then
    .error ("Can't parse \"".toUTF8.toList ++ str ++ "\" as an integer".toUTF8.toList)
  else .ok res

/-! ## What is printed -/

/-- The digits of a number as they are usually written: the first one is not zero, unless it is the
only one. -/
def digits (n : Nat) : Text := (Nat.toDigits 10 n).map fun c => UInt8.ofNat c.toNat

/-- The canonical form: no leading zeros, and a sign only before a number below zero. -/
def decimal (x : Int) : Text :=
  if x < 0 then 45 :: digits x.natAbs else digits x.natAbs

theorem digits_eq (n : Nat) : digits n = printUint n := by
  have hdigit : ∀ d < 10, UInt8.ofNat (Nat.digitChar d).toNat = UInt8.ofNat (48 + d) := by decide
  unfold digits
  fun_induction printUint n with
  | case1 n h => rw [Nat.toDigits_of_lt_base h, map_singleton, hdigit n h]
  | case2 n h ih =>
    rw [Nat.toDigits_of_base_le (by decide) (not_lt.mp h), map_append, ih, map_singleton,
      hdigit _ (Nat.mod_lt n (by decide))]

/-- The numbers of the type. -/
def IntegerType.Contains (type : IntegerType) (x : Int) : Prop := -(type.max + 1) ≤ x ∧ x ≤ type.max

variable {type : IntegerType} {x : Int} {str : Text}

theorem printInt_eq (h : type.Contains x) : printInt type x = decimal x := by
  unfold printInt decimal
  rw [digits_eq]
  by_cases hneg : x < 0
  · rw [if_pos hneg, if_pos hneg]
    by_cases hmin : x = -(type.max + 1)
    · -- the last digit of the greatest number is not nine
      have hprint : ∀ n, n = type.max ∨ n = type.max + 1 →
          printUint n = printUint (type.max / 10) ++ [UInt8.ofNat (48 + n % 10)] := by
        intro n hn
        have htens : ¬n < 10 ∧ n / 10 = type.max / 10 := by
          cases type <;> simp only [IntegerType.max] at hn ⊢ <;> omega
        rw [printUint, if_neg htens.1, htens.2]
      have habs : x.natAbs = type.max + 1 := by omega
      rw [if_pos hmin, habs, hprint _ (.inl rfl), hprint _ (.inr rfl), ← cons_append,
        modifyLast_concat]
      cases type <;> rfl
    · rw [if_neg hmin]
      congr 2
      omega
  · rw [if_neg hneg, if_neg hneg]
    congr 1
    omega

/-! ## What is read -/

theorem printUint_digits (n : Nat) : ∀ c ∈ printUint n, isDigit c = true := by
  have hdigit : ∀ d < 10, isDigit (UInt8.ofNat (48 + d)) = true := by decide
  fun_induction printUint n with
  | case1 n h =>
    intro c hc
    rw [mem_singleton.mp hc]
    exact hdigit n h
  | case2 n h ih =>
    intro c hc
    rcases mem_append.mp hc with hc | hc
    · exact ih c hc
    · rw [mem_singleton.mp hc]
      exact hdigit (n % 10) (Nat.mod_lt n (by decide))

/-- The digits of a number give the number, modulo the size of the type. -/
theorem foldl_printUint (type : IntegerType) (n : Nat) :
    (printUint n).foldl (accumulate type) 0 = n % type.modulus := by
  have hvalue : ∀ d < 10, (UInt8.ofNat (48 + d)).toNat - 48 = d := by decide
  fun_induction printUint n with
  | case1 n h => rw [foldl_cons, foldl_nil, accumulate, hvalue n h, Nat.zero_add]
  | case2 n h ih =>
    rw [foldl_append, ih, foldl_cons, foldl_nil, accumulate, hvalue _ (Nat.mod_lt n (by decide)),
      Nat.add_mod, Nat.mul_mod, Nat.mod_mod, ← Nat.mul_mod, ← Nat.add_mod, Nat.div_add_mod']

theorem contains_toInteger (type : IntegerType) (str : Text) :
    type.Contains (toInteger type str) := by
  unfold toInteger IntegerType.Contains
  dsimp only
  split_ifs <;> omega

theorem toInteger_decimal (h : type.Contains x) : toInteger type (decimal x) = x := by
  obtain ⟨hlow, hhigh⟩ := h
  have hvalue : (takeWhile isDigit (printUint x.natAbs)).foldl (accumulate type) 0 = x.natAbs := by
    rw [takeWhile_eq_self_iff.mpr (printUint_digits _), foldl_printUint]
    exact Nat.mod_eq_of_lt (by unfold IntegerType.modulus; omega)
  unfold toInteger decimal
  rw [digits_eq]
  dsimp only
  by_cases hneg : x < 0
  · rw [if_pos hneg, head?_cons, decide_eq_true rfl, if_pos rfl, tail_cons, hvalue]
    by_cases hmin : type.max < x.natAbs
    · have hfold : (type.modulus - x.natAbs) % type.modulus = type.max + 1 := by
        unfold IntegerType.modulus
        rw [Nat.mod_eq_of_lt (by omega)]
        omega
      rw [if_pos hmin, hfold, if_pos (Nat.lt_succ_self _)]
      omega
    · rw [if_neg hmin, if_pos rfl]
      omega
  · have hhead : (printUint x.natAbs).head? ≠ some 45 := by
      intro hhead
      have := printUint_digits _ 45 (mem_of_head? hhead)
      cases this
    rw [if_neg hneg, decide_eq_false hhead, if_neg Bool.false_ne_true, hvalue, if_neg (by omega)]
    exact Int.natAbs_of_nonneg (by omega)

/-- **Exactly the canonical forms of the numbers of the type are accepted.** -/
theorem to_integer_safe_iff (type : IntegerType) (str : Text) (v : Int) :
    toIntegerSafe type str = .ok v ↔ type.Contains v ∧ str = decimal v := by
  unfold toIntegerSafe
  constructor
  · intro h
    dsimp only at h
    split at h
    · cases h
    rename_i hprint
    cases h
    rw [not_not, printInt_eq (contains_toInteger type str)] at hprint
    exact ⟨contains_toInteger type str, hprint.symm⟩
  · rintro ⟨hv, rfl⟩
    dsimp only
    rw [toInteger_decimal hv, printInt_eq hv, if_neg (not_not.mpr rfl)]

end Tdlib.Utils
