import Tdlib.Mtproto.Transport
import Tdlib.Net.HttpByteFlow

/-!
# Secrets of a proxy

A secret is written in one of two ways: one that emulates TLS in base64url, any other one in
hexadecimal. The reader is not told which, and tries hexadecimal first. It is not misled: the first
byte of a secret that emulates TLS is `0xee`, so the second character of its text is one of `g` to
`v`, and none of them is a hexadecimal digit.
-/

namespace Tdlib.Mtproto

open Http List

/-- `Status::Error`: the code and the message. -/
abbrev Status := Nat × String

def ascii (s : String) : Bytes := s.toList.map fun c => c.toNat.toUInt8

/-! ## Hexadecimal -/

def hexCharacter (n : Nat) : UInt8 := (ascii "0123456789abcdef").getD n 0

def hexEncode (data : Bytes) : Bytes :=
  data.flatMap fun c => [hexCharacter (c.toNat >>> 4), hexCharacter (c.toNat &&& 15)]

/-- The loop of `hex_decode`. -/
def hexDecodeLoop : Bytes → Except Status Bytes
  | high :: low :: hex =>
    if hexToInt high = 16 ∨ hexToInt low = 16 then .error (0, "Wrong hex string")
    else (hexDecodeLoop hex).map (UInt8.ofNat (hexToInt high * 16 + hexToInt low) :: ·)
  | _ => .ok []

def hexDecode (hex : Bytes) : Except Status Bytes :=
  if hex.length % 2 ≠ 0 then .error (0, "Wrong hex string length") else hexDecodeLoop hex

theorem hexToInt_hexCharacter : ∀ n < 16, hexToInt (hexCharacter n) = n := by decide

theorem hexDecodeLoop_hexEncode (data : Bytes) : hexDecodeLoop (hexEncode data) = .ok data := by
  induction data with
  | nil => rfl
  | cons c data ih =>
    have hc := c.toNat_lt
    have hhigh := hexToInt_hexCharacter (c.toNat >>> 4) (by rw [Nat.shiftRight_eq_div_pow]; omega)
    have hlow := hexToInt_hexCharacter (c.toNat &&& 15) (Nat.and_lt_two_pow _ (n := 4) (by decide))
    have hsplit : (c.toNat >>> 4) * 16 + (c.toNat &&& 15) = c.toNat := by
      rw [Nat.and_two_pow_sub_one_eq_mod _ 4]
      omega
    show hexDecodeLoop (_ :: _ :: hexEncode data) = _
    rw [hexDecodeLoop, hhigh, hlow, if_neg (by omega), ih, hsplit, UInt8.ofNat_toNat]
    rfl

theorem hexDecode_hexEncode (data : Bytes) : hexDecode (hexEncode data) = .ok data := by
  have hlength : (hexEncode data).length = data.length * 2 := by simp [hexEncode]
  rw [hexDecode, if_neg (by omega), hexDecodeLoop_hexEncode]

/-! ## Base64

The templates are taken with `is_url`: the text is not padded. -/

def characters : Bytes := ascii "ABCDEFGHIJKLMNOPQRSTUVWXYZabcdefghijklmnopqrstuvwxyz0123456789-_"

def character (n : Nat) : UInt8 := characters.getD n 0

/-- What is not a character has the value 64. -/
def charToValue (c : UInt8) : Nat := characters.idxOf c

/-- The characters of three bytes. -/
def quad (c : Nat) : Bytes :=
  [character (c >>> 18), character (c >>> 12 &&& 63), character (c >>> 6 &&& 63),
    character (c &&& 63)]

/-- Up to three bytes. -/
def three (x y z : UInt8) : Nat := x.toNat <<< 16 ||| y.toNat <<< 8 ||| z.toNat

/-- A group of one byte takes two characters, and one of two takes three. -/
def base64urlEncode : Bytes → Bytes
  | [] => []
  | [x] => (quad (three x 0 0)).take 2
  | [x, y] => (quad (three x y 0)).take 3
  | x :: y :: z :: input => quad (three x y z) ++ base64urlEncode input

def base64DropPadding (base64 : Bytes) : Except Status Bytes :=
  let rest := base64.rdropWhile (· = 61)
  let paddingLength := base64.length - rest.length
  if paddingLength ≥ 3 then .error (0, "Wrong string padding")
  else if paddingLength > 0 ∧ (rest.length + paddingLength) % 4 ≠ 0 then
    .error (0, "Wrong padding length")
  else if rest.length % 4 = 1 then .error (0, "Wrong string length")
  else .ok rest

/-- Up to four characters, six bits each. -/
def groupValue (group : Bytes) : Except Status Nat :=
  group.zipIdx.foldlM (fun c (x, t) =>
    let value := charToValue x
    if value = 64 then .error (0, "Wrong character in the string")
    else .ok (c ||| value <<< ((3 - t) * 6))) 0

/-- The bytes of a group of `left` characters. -/
def groupBytes (c left : Nat) : Except Status Bytes :=
  if left = 2 then
    if c &&& 0xffff ≠ 0 then .error (0, "Wrong padding in the string")
    else .ok [UInt8.ofNat (c >>> 16)]
  else if left = 3 then
    if c &&& 0xff ≠ 0 then .error (0, "Wrong padding in the string")
    else .ok [UInt8.ofNat (c >>> 16), UInt8.ofNat (c >>> 8)]
  else .ok [UInt8.ofNat (c >>> 16), UInt8.ofNat (c >>> 8), UInt8.ofNat c]

def doBase64DecodeImpl (base64 : Bytes) : Except Status Bytes :=
  if _ : base64 = [] then .ok []
  else do
    let left := min base64.length 4
    let c ← groupValue (base64.take left)
    let bytes ← groupBytes c left
    let rest ← doBase64DecodeImpl (base64.drop left)
    return bytes ++ rest
termination_by base64.length
decreasing_by
  have := length_pos_iff.mpr ‹_›
  rw [length_drop]
  omega

def base64urlDecode (base64 : Bytes) : Except Status Bytes :=
  base64DropPadding base64 >>= doBase64DecodeImpl

/-! ### The reader undoes the writer -/

theorem charToValue_character : ∀ n < 64, charToValue (character n) = n := by
  decide +kernel

/-- Six more bits of `c`. -/
theorem or_six_bits (c k : Nat) :
    c >>> (k + 6) <<< (k + 6) ||| (c >>> k &&& 63) <<< k = c >>> k <<< k := by
  rw [Nat.shiftRight_add, add_comm k 6, Nat.shiftLeft_add, ← Nat.shiftLeft_or_distrib,
    Nat.and_two_pow_sub_one_eq_mod _ 6, ← Nat.shiftLeft_add_eq_or_of_lt (Nat.mod_lt _ (by decide)),
    Nat.shiftLeft_eq _ 6, Nat.shiftRight_eq_div_pow _ 6, Nat.div_add_mod']

variable {c n : Nat}

/-- The first characters give the first bits. -/
theorem groupValue_quad (hc : c < 0x1000000) (hn : n = 2 ∨ n = 3 ∨ n = 4) :
    groupValue ((quad c).take n) = .ok (c >>> (24 - 6 * n) <<< (24 - 6 * n)) := by
  have hsmall : c >>> 18 < 64 := by rw [Nat.shiftRight_eq_div_pow]; omega
  have hmask (m : Nat) : m &&& 63 < 64 := Nat.and_lt_two_pow _ (n := 6) (by decide)
  have hvalue (m : Nat) := charToValue_character (m &&& 63) (hmask m)
  have hsix := or_six_bits c
  have hlast := hsix 0
  simp only [Nat.shiftRight_zero, Nat.shiftLeft_zero] at hlast
  rcases hn with rfl | rfl | rfl
  all_goals
    simp [groupValue, quad, charToValue_character _ hsmall, hvalue, ne_of_lt (hmask _),
      ne_of_lt hsmall, pure, Except.pure, bind, Except.bind, hsix 12, hsix 6, hlast]

theorem three_eq (x y z : UInt8) : three x y z = x.toNat * 65536 + y.toNat * 256 + z.toNat := by
  have hz : z.toNat < 2 ^ 8 := z.toNat_lt
  have hyz : y.toNat <<< 8 + z.toNat < 2 ^ 16 := by
    have := y.toNat_lt
    omega
  rw [three, Nat.or_assoc, ← Nat.shiftLeft_add_eq_or_of_lt hz, ← Nat.shiftLeft_add_eq_or_of_lt hyz,
    Nat.shiftLeft_eq, Nat.shiftLeft_eq, add_assoc]

/-- The bytes that `n` characters stand for: those behind them are zero. -/
theorem groupBytes_three {x y z : UInt8} (hn : n = 2 ∧ y = 0 ∧ z = 0 ∨ n = 3 ∧ z = 0 ∨ n = 4) :
    groupBytes (three x y z >>> (24 - 6 * n) <<< (24 - 6 * n)) n = .ok
      ([x, y, z].take (n - 1)) := by
  have hx : x.toNat < 256 := x.toNat_lt
  have hy : y.toNat < 256 := y.toNat_lt
  have hz : z.toNat < 256 := z.toNat_lt
  have hof {m : Nat} {b : UInt8} (h : m % 256 = b.toNat) : UInt8.ofNat m = b := by
    rw [← UInt8.toNat_inj, UInt8.toNat_ofNat', h]
  rw [three_eq]
  simp only [groupBytes]
  rcases hn with ⟨rfl, rfl, rfl⟩ | ⟨rfl, rfl⟩ | rfl
  · rw [if_pos rfl, Nat.and_two_pow_sub_one_eq_mod _ 16, if_neg (by simp; omega),
      hof (b := x) (by simp; omega)]
    rfl
  · rw [if_neg (by decide), if_pos rfl, Nat.and_two_pow_sub_one_eq_mod _ 8, if_neg (by simp; omega),
      hof (b := x) (by simp; omega), hof (b := y) (by simp; omega)]
    rfl
  · rw [hof (b := x) (by simp; omega),
      hof (b := y) (by simp; omega), hof (b := z) (by simp; omega)]
    rfl

/-- The first `n` characters of a group are read, and then the rest. -/
theorem doBase64DecodeImpl_quad {x y z : UInt8} (rest : Bytes)
    (hn : n = 2 ∧ y = 0 ∧ z = 0 ∨ n = 3 ∧ z = 0 ∨ n = 4) (hrest : n ≠ 4 → rest = []) :
    doBase64DecodeImpl ((quad (three x y z)).take n ++ rest)
      = (doBase64DecodeImpl rest).map ([x, y, z].take (n - 1) ++ ·) := by
  have hbytes := groupBytes_three (x := x) hn
  have hsmall : three x y z < 0x1000000 := by
    have hx : x.toNat < 256 := x.toNat_lt
    have hy : y.toNat < 256 := y.toNat_lt
    have hz : z.toNat < 256 := z.toNat_lt
    rw [three_eq]
    omega
  have hvalue := groupValue_quad (n := n) hsmall (by omega)
  have hlength : ((quad (three x y z)).take n).length = n := by
    rw [length_take]
    exact min_eq_left (by show n ≤ 4; omega)
  have hleft : min ((quad (three x y z)).take n ++ rest).length 4 = n := by
    rw [length_append]
    by_cases h4 : n = 4
    · omega
    · rw [hrest h4, length_nil]
      omega
  have hne : (quad (three x y z)).take n ++ rest ≠ [] := by
    rw [← length_pos_iff]
    omega
  rw [doBase64DecodeImpl, dif_neg hne]
  dsimp only
  rw [hleft, take_left' hlength, drop_left' hlength, hvalue]
  show (groupBytes _ n >>= fun bytes => _) = _
  rw [hbytes]
  cases doBase64DecodeImpl rest <;> rfl

theorem doBase64DecodeImpl_encode (data : Bytes) :
    doBase64DecodeImpl (base64urlEncode data) = .ok data := by
  have hnil : doBase64DecodeImpl [] = .ok [] := by rw [doBase64DecodeImpl, dif_pos rfl]
  induction data using base64urlEncode.induct with
  | case1 => exact hnil
  | case2 x =>
    have h := doBase64DecodeImpl_quad (x := x) [] (.inl ⟨rfl, rfl, rfl⟩) fun _ => rfl
    rwa [hnil] at h
  | case3 x y =>
    have h := doBase64DecodeImpl_quad (x := x) (y := y) [] (.inr (.inl ⟨rfl, rfl⟩)) fun _ => rfl
    rwa [hnil] at h
  | case4 x y z data ih =>
    have h := doBase64DecodeImpl_quad (x := x) (y := y) (z := z) (base64urlEncode data)
      (.inr (.inr rfl)) (absurd rfl)
    rwa [ih] at h

/-- The padding would be `=`. -/
theorem character_ne_padding (n : Nat) : character n ≠ 61 := by
  by_cases hn : n < 64
  · have hall : ∀ n < 64, character n ≠ 61 := by decide +kernel
    exact hall n hn
  · have hnone : characters[n]? = none := getElem?_eq_none (not_lt.mp hn)
    rw [character, getD_eq_getElem?_getD, hnone]
    decide

theorem base64urlEncode_plain (data : Bytes) :
    (∀ x ∈ base64urlEncode data, x ≠ 61) ∧ (base64urlEncode data).length % 4 ≠ 1 := by
  induction data using base64urlEncode.induct with
  | case1 => simp [base64urlEncode]
  | case2 x => simp [base64urlEncode, quad, character_ne_padding]
  | case3 x y => simp [base64urlEncode, quad, character_ne_padding]
  | case4 x y z data ih =>
    refine ⟨?_, ?_⟩
    · rw [base64urlEncode, forall_mem_append]
      exact ⟨by simp [quad, character_ne_padding], ih.1⟩
    · rw [base64urlEncode, length_append, quad]
      simp only [length_cons, length_nil]
      omega

theorem base64urlDecode_encode (data : Bytes) : base64urlDecode (base64urlEncode data)
    = .ok data := by
  obtain ⟨hplain, hlength⟩ := base64urlEncode_plain data
  have hdrop : (base64urlEncode data).rdropWhile (· = 61) = base64urlEncode data :=
    rdropWhile_eq_self_iff.mpr fun hne => by simpa using hplain _ (getLast_mem hne)
  have hpadding : base64DropPadding (base64urlEncode data)
      = .ok (base64urlEncode data) := by
    simp [base64DropPadding, hdrop, hlength]
  rw [base64urlDecode, hpadding]
  exact doBase64DecodeImpl_encode data

theorem hexDecode_bad {a b : UInt8} (hex : Bytes) (hb : hexToInt b = 16) :
    ∃ e, hexDecode (a :: b :: hex) = .error e := by
  unfold hexDecode
  split
  · exact ⟨_, rfl⟩
  · exact ⟨_, by rw [hexDecodeLoop, if_pos (.inr hb)]⟩

/-- **The text of a secret that emulates TLS is not hexadecimal.** -/
theorem hexDecode_base64urlEncode (y : UInt8) (data : Bytes) :
    ∃ e, hexDecode (base64urlEncode (0xee :: y :: data)) = .error e := by
  have hbad : ∀ m < 16, hexToInt (character (32 + m)) = 16 := by decide +kernel
  have hsecond (z : UInt8) : hexToInt (character (three 0xee y z >>> 12 &&& 63)) = 16 := by
    have hy : y.toNat < 256 := y.toNat_lt
    have hz : z.toNat < 256 := z.toNat_lt
    have hee : (0xee : UInt8).toNat = 238 := rfl
    -- the last two bits of `0xee` and the first four of the next byte
    have hbits : (238 * 65536 + y.toNat * 256 + z.toNat) / 2 ^ 12 % 2 ^ 6 = 32 + y.toNat / 16 := by
      omega
    rw [three_eq, Nat.and_two_pow_sub_one_eq_mod _ 6, Nat.shiftRight_eq_div_pow, hee, hbits]
    exact hbad _ (by omega)
  cases data with
  | nil => exact hexDecode_bad _ (hsecond 0)
  | cons z data => exact hexDecode_bad _ (hsecond z)

/-! ## The secret -/

structure ProxySecret where
  secret : Bytes
deriving DecidableEq

namespace ProxySecret

def maxDomainLength : Nat := 182

def fromBinary (rawUncheckedSecret : Bytes) (truncateIfNeeded : Bool) : Except Status ProxySecret :=
  if rawUncheckedSecret.length > 17 + maxDomainLength ∧ !truncateIfNeeded then
    .error (400, "Too long secret")
  else
    let rawSecret := rawUncheckedSecret.take (17 + maxDomainLength)
    if rawSecret.length = 16 ∨ rawSecret.length = 17 ∧ rawSecret.head? = some 0xdd ∨
        rawSecret.length ≥ 18 ∧ rawSecret.head? = some 0xee then .ok ⟨rawSecret⟩
    else if rawSecret.length < 16 then .error (400, "Wrong proxy secret")
    else .error (400, "Unsupported proxy secret")

def fromLink (encodedSecret : Bytes) (truncateIfNeeded : Bool) : Except Status ProxySecret :=
  match hexDecode encodedSecret with
  | .ok decoded => fromBinary decoded truncateIfNeeded
  | .error _ =>
    match base64urlDecode encodedSecret with
    | .ok decoded => fromBinary decoded truncateIfNeeded
    | .error _ => .error (400, "Wrong proxy secret")

variable (s : ProxySecret)

def emulateTls : Bool := s.secret.length ≥ 17 && s.secret.head? = some 0xee

def getEncodedSecret : Bytes :=
  if s.emulateTls then base64urlEncode s.secret else hexEncode s.secret

/-- The text gives the bytes back, whatever they are. -/
theorem fromLink_getEncodedSecret (truncateIfNeeded : Bool) :
    fromLink s.getEncodedSecret truncateIfNeeded = fromBinary s.secret truncateIfNeeded := by
  rw [fromLink, getEncodedSecret]
  split_ifs with htls
  · obtain ⟨hlength, hhead⟩ : 17 ≤ s.secret.length ∧ s.secret.head? = some 0xee := by
      simpa [emulateTls] using htls
    match h : s.secret, hlength, hhead with
    | _ :: y :: data, _, rfl =>
      obtain ⟨e, he⟩ := hexDecode_base64urlEncode y data
      rw [he, base64urlDecode_encode]
  · rw [hexDecode_hexEncode]

/-- What was accepted once is accepted again. -/
theorem fromBinary_secret {raw : Bytes} {truncate : Bool} {s : ProxySecret}
    (hs : fromBinary raw truncate = .ok s) (truncateIfNeeded : Bool) :
    fromBinary s.secret truncateIfNeeded = .ok s := by
  rw [fromBinary] at hs
  dsimp only at hs
  split_ifs at hs with hlong hok
  cases hs
  have hlength : (raw.take (17 + maxDomainLength)).length ≤ 17 + maxDomainLength :=
    length_take_le _ _
  rw [fromBinary, if_neg (fun h => absurd h.1 (not_lt.mpr hlength))]
  rw [take_of_length_le hlength, if_pos hok]

/-- **A secret survives its encoding.** -/
theorem from_link_get_encoded_secret {raw : Bytes} {truncate : Bool} {s : ProxySecret}
    (hs : fromBinary raw truncate = .ok s) (truncateIfNeeded : Bool) :
    fromLink s.getEncodedSecret truncateIfNeeded = .ok s := by
  rw [fromLink_getEncodedSecret]
  exact fromBinary_secret hs truncateIfNeeded

theorem from_link_get_encoded_secret_tls :
    fromBinary (0xee :: replicate 17 1) false = .ok ⟨0xee :: replicate 17 1⟩ ∧
      fromLink (getEncodedSecret ⟨0xee :: replicate 17 1⟩) false = .ok
        ⟨0xee :: replicate 17 1⟩ := by
  have hs : fromBinary (0xee :: replicate 17 1) false = .ok ⟨0xee :: replicate 17 1⟩ := by decide
  exact ⟨hs, from_link_get_encoded_secret hs false⟩

end ProxySecret

end Tdlib.Mtproto
