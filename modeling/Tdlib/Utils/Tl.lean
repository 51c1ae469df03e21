import Tdlib.Lib.LittleEndian

/-!
# The TL codec

`TlStorerUnsafe` appends little-endian words and length-prefixed strings to a
buffer; `TlParser` reads them back. A storer is modelled by the bytes it appends
(`none` where it aborts the process).

The parser keeps going after an error: it remembers the first one, continues on
a buffer of zeros, and leaves it to the caller to ask for the status at the end.
`TlParser.ok` is the parser in its healthy state in front of some bytes, and each
`fetch` function has one lemma that takes a healthy parser past what the matching
`store` function wrote.
-/

namespace Tdlib

open Lib List

abbrev Bytes := List UInt8

namespace Tl

/-! ## Storing -/

def storeInt (x : Int32) : Bytes := leBytes 4 x.toUInt32.toNat

def storeLong (x : Int64) : Bytes := leBytes 8 x.toUInt64.toNat

/-- The zeros that bring `len` bytes to a multiple of four. -/
def padding (len : Nat) : Bytes := replicate ((4 - len % 4) % 4) 0

def storeString (str : Bytes) : Option Bytes :=
  let len := str.length
  if len < 254 then some (UInt8.ofNat len :: (str ++ padding (len + 1)))
  else if len < 1 <<< 24 then some (254 :: (leBytes 3 len ++ (str ++ padding len)))
  else if len < 1 <<< 32 then some (255 :: (leBytes 4 len ++ ([0, 0, 0] ++ (str ++ padding len))))
  else none

theorem length_padding (len : Nat) : (padding len).length = (4 - len % 4) % 4 :=
  length_replicate

/-- A stored string takes a whole number of words. -/
theorem length_storeString_mod {str stored : Bytes} (h : storeString str = some stored) :
    stored.length % 4 = 0 := by
  unfold storeString at h
  dsimp only at h
  split at h
  · cases h
    rw [length_cons, length_append, length_padding]
    omega
  split at h
  · cases h
    rw [length_cons, length_append, length_append, length_padding, length_leBytes]
    omega
  split at h
  · cases h
    simp only [length_cons, length_append, length_nil, length_padding, length_leBytes]
    omega
  · cases h

@[simp] theorem length_storeInt (x : Int32) : (storeInt x).length = 4 := length_leBytes _ _

@[simp] theorem length_storeLong (x : Int64) : (storeLong x).length = 8 := length_leBytes _ _

/-! ## Parsing -/

/-- What the parser reads from once it has failed. -/
def emptyData : Bytes := replicate 32 0

structure TlParser where
  data : Bytes
  leftLen : Nat
  dataLen : Nat
  /-- The first error, and where it happened. -/
  error : Option (String × Nat)
deriving DecidableEq

namespace TlParser

def ofSlice (slice : Bytes) : TlParser := ⟨slice, slice.length, slice.length, none⟩

def setError (p : TlParser) (message : String) : TlParser :=
  match p.error with
  | none => ⟨emptyData, 0, 0, some (message, p.dataLen - p.leftLen)⟩
  | some _ => { p with data := emptyData }

def checkLen (p : TlParser) (len : Nat) : TlParser :=
  if p.leftLen < len then p.setError "Not enough data to read"
  else { p with leftLen := p.leftLen - len }

def fetchInt (p : TlParser) : Int32 × TlParser :=
  let p := p.checkLen 4
  ((UInt32.ofNat (leNat (p.data.take 4))).toInt32, { p with data := p.data.drop 4 })

def fetchLong (p : TlParser) : Int64 × TlParser :=
  let p := p.checkLen 8
  ((UInt64.ofNat (leNat (p.data.take 8))).toInt64, { p with data := p.data.drop 8 })

/-- The common end of `fetchString`: the result starts `start` bytes on, after `header` bytes. -/
def fetchBody (p : TlParser) (start header resultLen resultAlignedLen : Nat) : Bytes × TlParser :=
  let result := (p.data.drop start).take resultLen
  let p := ({ p with data := p.data.drop header } : TlParser).checkLen resultAlignedLen
  if p.error.isSome then ([], p) else (result, { p with data := p.data.drop resultAlignedLen })

def fetchString (p : TlParser) : Bytes × TlParser :=
  let p := p.checkLen 4
  let resultLen := leNat (p.data.take 1)
  if resultLen < 254 then p.fetchBody 1 4 resultLen (resultLen / 4 * 4)
  else if resultLen = 254 then
    let resultLen := leNat ((p.data.drop 1).take 3)
    p.fetchBody 4 4 resultLen ((resultLen + 3) / 4 * 4)
  else
    let p := p.checkLen 4
    let resultLen := leNat ((p.data.drop 1).take 7)
    if resultLen > 0xffffffffffffffff - 3 then ([], p.setError "Too big string found")
    else p.fetchBody 8 8 resultLen ((resultLen + 3) / 4 * 4)

def fetchStringRaw (p : TlParser) (size : Nat) : Bytes × TlParser :=
  let p := p.checkLen size
  if p.error.isSome then ([], p) else (p.data.take size, { p with data := p.data.drop size })

def fetchEnd (p : TlParser) : TlParser :=
  if p.leftLen ≠ 0 then p.setError "Too much data to fetch" else p

/-! ## Reading back what was stored -/

/-- A parser that has not failed, in front of `rest`. -/
def ok (dataLen : Nat) (rest : Bytes) : TlParser := ⟨rest, rest.length, dataLen, none⟩

theorem ofSlice_eq (slice : Bytes) : ofSlice slice = ok slice.length slice := rfl

theorem checkLen_ok {n len : Nat} {rest : Bytes} (h : len ≤ rest.length) :
    (ok n rest).checkLen len = ⟨rest, rest.length - len, n, none⟩ := by
  rw [checkLen, if_neg (by show ¬ rest.length < len; omega)]
  rfl

theorem fetchInt_ok (n : Nat) (x : Int32) (rest : Bytes) :
    (ok n (storeInt x ++ rest)).fetchInt = (x, ok n rest) := by
  have hlen : (storeInt x ++ rest).length = rest.length + 4 := by
    rw [length_append, length_storeInt, add_comm]
  have hnat : leNat (storeInt x) = x.toUInt32.toNat := leNat_leBytes_of_lt x.toUInt32.toNat_lt
  rw [fetchInt, checkLen_ok (by omega)]
  rw [take_left' (length_storeInt x), hnat,
    UInt32.ofNat_toNat]
  rfl

theorem fetchLong_ok (n : Nat) (x : Int64) (rest : Bytes) :
    (ok n (storeLong x ++ rest)).fetchLong = (x, ok n rest) := by
  have hlen : (storeLong x ++ rest).length = rest.length + 8 := by
    rw [length_append, length_storeLong, add_comm]
  have hnat : leNat (storeLong x) = x.toUInt64.toNat := leNat_leBytes_of_lt x.toUInt64.toNat_lt
  rw [fetchLong, checkLen_ok (by omega)]
  rw [take_left' (length_storeLong x), hnat,
    UInt64.ofNat_toNat]
  rfl

theorem fetchStringRaw_ok (n : Nat) (str rest : Bytes) :
    (ok n (str ++ rest)).fetchStringRaw str.length = (str, ok n rest) := by
  have hlen : (str ++ rest).length = rest.length + str.length := by
    rw [length_append, add_comm]
  rw [fetchStringRaw, checkLen_ok (by omega)]
  rw [take_left' rfl, drop_left' rfl, hlen, Nat.add_sub_cancel]
  rfl

/-- `fetchBody` past a string whose header, body and padding are as `storeString` writes them. -/
theorem fetchBody_ok {n start header aligned left : Nat} {p str pad rest : Bytes}
    (hstart : p.length = start) (htotal : start + str.length + pad.length = header + aligned)
    (hleft : left = rest.length + aligned) :
    fetchBody ⟨p ++ (str ++ (pad ++ rest)), left, n, none⟩ start header str.length aligned
      = (str, ok n rest) := by
  have hdrop : (p ++ (str ++ (pad ++ rest))).drop (header + aligned) = rest := by
    rw [← htotal, ← hstart, ← append_assoc, ← append_assoc]
    exact drop_left' (by simp [add_assoc])
  have hcheck : ¬ left < aligned := by omega
  simp only [fetchBody, checkLen, if_neg hcheck]
  rw [drop_left' hstart, take_left' rfl, drop_drop, hdrop, hleft, Nat.add_sub_cancel]
  rfl

theorem fetchString_ok (n : Nat) {str stored : Bytes} (h : storeString str = some stored)
    (rest : Bytes) : (ok n (stored ++ rest)).fetchString = (str, ok n rest) := by
  unfold storeString at h
  dsimp only at h
  split at h
  · rename_i hlen
    cases h
    have hb : (UInt8.ofNat str.length).toNat = str.length := by
      rw [UInt8.toNat_ofNat']; exact Nat.mod_eq_of_lt (by omega)
    have hpad := length_padding (str.length + 1)
    have htot : (UInt8.ofNat str.length :: (str ++ padding (str.length + 1)) ++ rest).length
        = rest.length + (4 + str.length / 4 * 4) := by
      simp only [length_cons, length_append]; omega
    rw [fetchString, checkLen_ok (by omega), htot]
    simp only [cons_append, take_succ_cons, take_zero, leNat, hb, Nat.mul_zero,
      add_zero, if_pos hlen, append_assoc]
    exact fetchBody_ok (p := [UInt8.ofNat str.length]) rfl (by rw [hpad]; omega) (by omega)
  split at h
  · cases h
    have hpad := length_padding str.length
    have hnat : leNat (leBytes 3 str.length) = str.length := leNat_leBytes_of_lt (by omega)
    have htot : (254 :: (leBytes 3 str.length ++ (str ++ padding str.length)) ++ rest).length
        = rest.length + (4 + (str.length + 3) / 4 * 4) := by
      simp only [length_cons, length_append, length_leBytes]
      omega
    rw [fetchString, checkLen_ok (by omega), htot]
    simp only [cons_append, take_succ_cons, take_zero, append_assoc,
      drop_succ_cons, drop_zero, take_left' (length_leBytes 3 str.length), hnat]
    exact fetchBody_ok (p := 254 :: leBytes 3 str.length) (by simp) (by rw [hpad]; omega)
      (by omega)
  split at h
  · cases h
    have hpad := length_padding str.length
    have hseven : leBytes 4 str.length ++ [0, 0, 0] = leBytes 7 str.length := by
      have h4 : str.length / 256 / 256 / 256 / 256 = 0 := by omega
      simp [leBytes, h4]
    have hnat : leNat (leBytes 7 str.length) = str.length := leNat_leBytes_of_lt (by omega)
    have hstored : 255 :: (leBytes 4 str.length ++ ([0, 0, 0] ++ (str ++ padding str.length)))
        ++ rest = 255 :: (leBytes 7 str.length ++ (str ++ (padding str.length ++ rest))) := by
      simp only [← hseven, cons_append, append_assoc]
    have htot : (255 :: (leBytes 7 str.length ++ (str ++ (padding str.length ++ rest)))).length
        = rest.length + (8 + (str.length + 3) / 4 * 4) := by
      simp only [length_cons, length_append, length_leBytes]
      omega
    rw [hstored, fetchString, checkLen_ok (by omega), htot]
    have hcheck : ¬ rest.length + (8 + (str.length + 3) / 4 * 4) - 4 < 4 := by omega
    have hsmall : ¬ str.length > 0xffffffffffffffff - 3 := by omega
    simp only [take_succ_cons, take_zero, checkLen, if_neg hcheck,
      drop_succ_cons, drop_zero, take_left' (length_leBytes 7 str.length), hnat,
      if_neg hsmall]
    exact fetchBody_ok (p := 255 :: leBytes 7 str.length) (by simp) (by rw [hpad]; omega)
      (by omega)
  · cases h

end TlParser

end Tl

end Tdlib
