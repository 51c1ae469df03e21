import Tdlib.Mtproto.TransportProof

/-!
# What the message key protects

In version 2 the message key is a hash of everything that is decrypted. Only whole
blocks are decrypted: up to 15 bytes at the end of a packet are left as they are.
The length is checked against the size of the packet, and not against the part
that was decrypted.

So the last bytes of a packet are not protected. They can be added and removed, as
long as the padding does not get too long; and if the length need not be divisible
by four, up to three of them can be taken for data.
-/

namespace Tdlib.Mtproto

open Lib List

variable {c : Crypto} {h : Header} {x : Nat} {message extra : Bytes} {authKey : AuthKey}
  {info : PacketInfo} {opened : Opened}

/-! ## What is accepted -/

theorem isKeyBad_iff {real found : Bytes} (hlen : real.length = found.length) :
    isKeyBad real found = 0 ↔ real = found := by
  have hfold : ∀ (l : List (UInt8 × UInt8)) bad,
      l.foldl (fun bad p => bad ||| (p.1 ^^^ p.2)) bad = 0 ↔ bad = 0 ∧ ∀ p ∈ l, p.1 = p.2 := by
    intro l
    induction l with
    | nil => simp
    | cons p l ih =>
      intro bad
      rw [foldl_cons, ih]
      simp only [UInt8.or_eq_zero_iff, UInt8.xor_eq_zero_iff, mem_cons, forall_eq_or_imp, and_assoc]
  refine (hfold (real.zip found) 0).trans ⟨?_, ?_⟩
  · rintro ⟨-, heq⟩
    refine ext_getElem hlen fun i hi hi' => ?_
    have hmem : (real[i], found[i]) ∈ real.zip found := by
      rw [← getElem_zip (h := by rw [length_zip]; omega)]
      exact getElem_mem _
    exact heq _ hmem
  · rintro rfl
    refine ⟨rfl, fun p hp => ?_⟩
    obtain ⟨i, hi, rfl⟩ := getElem_of_mem hp
    rw [getElem_zip]

/-- `message_data_length` as the reader finds it. -/
def lengthOf (c : Crypto) (h : Header) (x : Nat) (message : Bytes) (authKey : AuthKey) : Nat :=
  messageDataLength h (decryptInPlace c h x message authKey 2)

/-- The message key is the hash of what is decrypted. -/
def KeyMatches (c : Crypto) (h : Header) (x : Nat) (message : Bytes) (authKey : AuthKey) : Prop :=
  (calcMessageKey2 c authKey x (decryptedPart c h x message authKey 2)).2 = messageKeyOf message

/-- The length leaves a padding that is allowed. -/
structure LengthRight (h : Header) (checkMod4 : Bool) (size length : Nat) : Prop where
  mod4 : checkMod4 = true → length % 4 = 0
  least : h.size + h.prefixSize + length + 12 ≤ size
  most : size ≤ h.size + h.prefixSize + length + 1024

theorem checkLength_eq_none (hversion : info.version = 2) {size length : Nat}
    (hsize : h.size + h.prefixSize ≤ size) :
    checkLength h info size length = none ↔ LengthRight h info.checkMod4 size length := by
  unfold checkLength
  rw [if_pos hversion]
  dsimp only
  constructor
  · intro hnone
    split at hnone
    · cases hnone
    rename_i hmod
    split at hnone
    · cases hnone
    · split at hnone
      · cases hnone
      · exact ⟨fun hcheck => Decidable.byContradiction fun hne => hmod ⟨hcheck, hne⟩, by omega,
          by omega⟩
  · rintro ⟨hmod, hleast, hmost⟩
    rw [if_neg (fun hbad => hbad.2 (hmod hbad.1)), if_neg (by omega), if_neg (by omega)]

/-- **When a packet is accepted**, in version 2. -/
structure Accepted (c : Crypto) (h : Header) (x : Nat) (message : Bytes) (authKey : AuthKey)
    (checkMod4 : Bool) : Prop where
  id_eq : leNat (message.take 8) = authKey.id.toNat
  key : KeyMatches c h x message authKey
  length : LengthRight h checkMod4 message.length (lengthOf c h x message authKey)

theorem length_messageKeyOf (hsize : 24 ≤ message.length) : (messageKeyOf message).length = 16 := by
  rw [messageKeyOf, substr, length_take, length_drop]
  omega

theorem length_decryptInPlace (hsize : 24 ≤ message.length) (version : Int) :
    (decryptInPlace c h x message authKey version).length = message.length := by
  simp only [decryptInPlace, decryptedPart, toDecrypt, length_append, c.length_decrypt,
    rawSize_eq, length_take, length_drop]
  omega

theorem not_exists_ok {ε α : Type} {e : ε} : ¬∃ a : α, Except.error e = .ok a := by
  rintro ⟨_, h⟩
  cases h

theorem readCryptoImpl_ok (hversion : info.version = 2) :
    (∃ opened, readCryptoImpl c h x message authKey info = .ok opened) ↔
      Accepted c h x message authKey info.checkMod4 := by
  have hheader := size_eq h
  have hreal : realMessageKey c h x message (decryptInPlace c h x message authKey info.version)
      authKey info = calcMessageKey2 c authKey x (decryptedPart c h x message authKey 2) := by
    rw [realMessageKey, if_neg (by omega), hversion]
  unfold readCryptoImpl
  rw [hversion] at hreal ⊢
  by_cases hsmall : message.length < h.size
  · rw [if_pos hsmall]
    refine iff_of_false not_exists_ok fun haccepted => ?_
    have := haccepted.length.least
    omega
  rw [if_neg hsmall]
  by_cases hid : leNat (message.take 8) ≠ authKey.id.toNat
  · rw [if_pos hid]
    exact iff_of_false not_exists_ok fun haccepted => hid haccepted.id_eq
  rw [if_neg hid]
  by_cases htail : message.length - h.size < h.prefixSize
  · rw [if_pos htail]
    refine iff_of_false not_exists_ok fun haccepted => ?_
    have := haccepted.length.least
    omega
  rw [if_neg htail]
  dsimp only
  rw [hreal]
  have hkey : isKeyBad (calcMessageKey2 c authKey x (decryptedPart c h x message authKey 2)).2
      (messageKeyOf message) = 0 ↔ KeyMatches c h x message authKey :=
    isKeyBad_iff (by rw [length_messageKey2, length_messageKeyOf (by omega)])
  by_cases hbad : isKeyBad (calcMessageKey2 c authKey x (decryptedPart c h x message authKey 2)).2
      (messageKeyOf message) ≠ 0
  · rw [if_pos hbad]
    exact iff_of_false not_exists_ok fun haccepted => hbad (hkey.mpr haccepted.key)
  rw [if_neg hbad]
  have hcheck : checkLength h info message.length (lengthOf c h x message authKey) = none ↔
      LengthRight h info.checkMod4 message.length (lengthOf c h x message authKey) :=
    checkLength_eq_none hversion (by omega)
  rw [lengthOf] at hcheck
  split
  · rename_i e he
    refine iff_of_false not_exists_ok fun haccepted => ?_
    rw [hcheck.mpr haccepted.length] at he
    cases he
  · rename_i hnone
    exact ⟨fun _ =>
      ⟨not_not.mp hid, hkey.mp (not_not.mp hbad), hcheck.mp hnone⟩,
      fun _ => ⟨_, rfl⟩⟩

/-- The data that an accepted packet gives. -/
theorem opened_data (hversion : info.version = 2)
    (hread : readCryptoImpl c h x message authKey info = .ok opened) :
    opened.data.length = lengthOf c h x message authKey + h.prefixSize := by
  have haccepted := (readCryptoImpl_ok hversion).mp ⟨opened, hread⟩
  have hleast := haccepted.length.least
  have hheader := size_eq h
  have hdata : opened.data = substr (decryptInPlace c h x message authKey 2) h.size
      (lengthOf c h x message authKey + h.prefixSize) := by
    unfold readCryptoImpl at hread
    rw [if_neg (by omega), if_neg (fun hne => hne haccepted.id_eq), if_neg (by omega),
      hversion] at hread
    dsimp only at hread
    split at hread
    · cases hread
    · split at hread
      · cases hread
      · cases hread
        rfl
  rw [hdata, substr, length_take, length_drop, length_decryptInPlace (by omega)]
  omega

/-! ## Bytes at the end -/

section

variable (hsize : 24 ≤ message.length)
  (hsame : (message.length - 24) % 16 + extra.length < 16)

include hsize

theorem messageKeyOf_append : messageKeyOf (message ++ extra) = messageKeyOf message := by
  rw [messageKeyOf, messageKeyOf, substr, substr, drop_append_of_le_length (by omega),
    take_append_of_le_length (by rw [length_drop]; omega)]

include hsame

/-- Bytes that do not complete a block are not decrypted. -/
theorem toDecrypt_append : toDecrypt h (message ++ extra) = toDecrypt h message := by
  rw [toDecrypt, toDecrypt, rawSize_eq, drop_append_of_le_length hsize, length_append, length_drop,
    take_append_of_le_length (by rw [length_drop]; omega)]
  congr 1
  omega

theorem decryptedPart_append (version : Int) :
    decryptedPart c h x (message ++ extra) authKey version
      = decryptedPart c h x message authKey version := by
  rw [decryptedPart, decryptedPart, messageKeyOf_append hsize, toDecrypt_append hsize hsame]

theorem decryptInPlace_append (version : Int) :
    decryptInPlace c h x (message ++ extra) authKey version
      = decryptInPlace c h x message authKey version ++ extra := by
  have hdecrypt : (toDecrypt h message).length ≤ message.length - 24 := by
    rw [toDecrypt, rawSize_eq, length_take, length_drop]
    omega
  rw [decryptInPlace, decryptInPlace, decryptedPart_append hsize hsame,
    toDecrypt_append hsize hsame,
    rawSize_eq, take_append_of_le_length hsize, drop_append_of_le_length (by omega),
    append_assoc, append_assoc, append_assoc]

omit hsize in
theorem lengthOf_append (hfits : h.size + h.prefixSize ≤ message.length) :
    lengthOf c h x (message ++ extra) authKey = lengthOf c h x message authKey := by
  have hheader := size_eq h
  have hoffset := lengthOffset_le h
  have hlen : (decryptInPlace c h x message authKey 2).length = message.length :=
    length_decryptInPlace (by omega) 2
  rw [lengthOf, lengthOf, decryptInPlace_append (by omega) hsame, messageDataLength,
    messageDataLength, substr, substr, drop_append_of_le_length (by omega),
    take_append_of_le_length (by rw [length_drop]; omega)]

end

/-- **Bytes that do not complete a block only count as padding.** -/
theorem accepted_append {checkMod4 : Bool} (haccepted : Accepted c h x message authKey checkMod4)
    (hsame : (message.length - 24) % 16 + extra.length < 16) :
    Accepted c h x (message ++ extra) authKey checkMod4 ↔
      message.length + extra.length ≤ h.size + h.prefixSize + lengthOf c h x message authKey +
        1024 := by
  obtain ⟨hid, hkey, hmod, hleast, hmost⟩ := haccepted
  have hheader := size_eq h
  have hlength : lengthOf c h x (message ++ extra) authKey = lengthOf c h x message authKey :=
    lengthOf_append hsame (by omega)
  constructor
  · rintro ⟨-, -, -, -, hmost'⟩
    rwa [hlength, length_append] at hmost'
  intro hfits
  refine ⟨?_, ?_, ?_, ?_, ?_⟩
  · rw [take_append_of_le_length (by omega), hid]
  · rw [KeyMatches, decryptedPart_append (by omega) hsame, messageKeyOf_append (by omega)]
    exact hkey
  · rwa [hlength]
  · rw [length_append]
    omega
  · rwa [hlength, length_append]

/-! ## What is protected -/

/-- Every byte of the data was decrypted and hashed. -/
def Authenticated (h : Header) (message : Bytes) (opened : Opened) : Prop :=
  ∀ i, h.size ≤ i → i < h.size + opened.data.length →
    h.rawSize ≤ i ∧ i < h.rawSize + (toDecrypt h message).length

/-- The bytes behind the data, by the length field. -/
def paddingSize (c : Crypto) (h : Header) (x : Nat) (message : Bytes) (authKey : AuthKey) : Nat :=
  message.length - (h.size + h.prefixSize + lengthOf c h x message authKey)

theorem prefixSize_pos (h : Header) : 0 < h.prefixSize := by cases h <;> decide

theorem data_authenticated_iff (hversion : info.version = 2)
    (hread : readCryptoImpl c h x message authKey info = .ok opened) :
    Authenticated h message opened ↔
      (message.length - 24) % 16 ≤ paddingSize c h x message authKey := by
  obtain ⟨-, -, -, hleast, -⟩ := (readCryptoImpl_ok hversion).mp ⟨opened, hread⟩
  have hdata := opened_data hversion hread
  have hheader := size_eq h
  have hpos := prefixSize_pos h
  have hpart : (toDecrypt h message).length
      = (message.length - 24) - (message.length - 24) % 16 := by
    rw [toDecrypt, rawSize_eq, length_take, length_drop]
    omega
  rw [Authenticated, paddingSize, rawSize_eq, hpart]
  constructor
  · intro hall
    have := hall (h.size + opened.data.length - 1) (by omega) (by omega)
    omega
  · omega

/-- If the length has to be divisible by four, the data is protected. -/
theorem data_authenticated (hversion : info.version = 2) (hmod4 : info.checkMod4 = true)
    (hread : readCryptoImpl c h x message authKey info = .ok opened) :
    Authenticated h message opened := by
  obtain ⟨-, -, hmod, hleast, -⟩ := (readCryptoImpl_ok hversion).mp ⟨opened, hread⟩
  have hdata := opened_data hversion hread
  have hmod := hmod hmod4
  rw [data_authenticated_iff hversion hread, paddingSize]
  cases h with
  | crypto | endToEnd =>
    simp only [Header.size, Header.prefixSize] at *
    omega

/-- If bytes at the end complete a block, the message key is no longer the hash of what is
decrypted. -/
def KeyDiffers (c : Crypto) (h : Header) (x : Nat) (message : Bytes) (authKey : AuthKey)
    (extra : Bytes) : Prop :=
  16 ≤ (message.length - 24) % 16 + extra.length → ¬ KeyMatches c h x (message ++ extra) authKey

/-- **What the message key protects.** Let a packet be accepted. Its data was hashed, and it is not
accepted with more bytes at the end unless they give the same message key, exactly if the padding is
at least as long as the part that is not decrypted, and no byte fits into this part or behind the
padding. -/
theorem protected_iff (hversion : info.version = 2)
    (hread : readCryptoImpl c h x message authKey info = .ok opened) :
    (Authenticated h message opened ∧ ∀ extra ≠ [], KeyDiffers c h x message authKey extra →
      ¬ ∃ opened', readCryptoImpl c h x (message ++ extra) authKey info = .ok opened') ↔
    (message.length - 24) % 16 ≤ paddingSize c h x message authKey ∧
      ((message.length - 24) % 16 = 15 ∨ paddingSize c h x message authKey = 1024) := by
  have haccepted := (readCryptoImpl_ok hversion).mp ⟨opened, hread⟩
  obtain ⟨-, hleast, hmost⟩ := haccepted.length
  simp only [data_authenticated_iff hversion hread, readCryptoImpl_ok hversion]
  refine and_congr_right fun _ => ⟨fun hall => or_iff_not_imp_left.mpr fun hpart => ?_, ?_⟩
  · -- one byte does not complete a block, so only the padding can be wrong
    have hone := hall [0] (by simp) fun hblock => absurd hblock (by rw [length_singleton]; omega)
    rw [accepted_append haccepted (by rw [length_singleton]; omega), length_singleton] at hone
    unfold paddingSize
    omega
  · intro hfull extra hextra hkey hlonger
    have hpos := length_pos_iff.mpr hextra
    by_cases hsame : (message.length - 24) % 16 + extra.length < 16
    · have := (accepted_append haccepted hsame).mp hlonger
      unfold paddingSize at hfull
      omega
    · exact hkey (by omega) hlonger.key

/-- A hash that tells how much was hashed, to compute with. -/
def lengthCrypto : Crypto :=
  { identityCrypto with
    sha256 := fun b => replicate 32 (UInt8.ofNat (min b.length 255))
    length_sha256 := fun _ => length_replicate }

/-- A packet with four bytes of payload. With a part of the key, 48 bytes are hashed, and the last
15 bytes of the padding are not. -/
def fourBytes : Bytes :=
  leBytes 8 7 ++ replicate 16 48 ++ leBytes 4 4 ++ [1, 2, 3, 4] ++ replicate 23 0

theorem fourBytes_accepted : ∃ opened, readCryptoImpl lengthCrypto .endToEnd 0 fourBytes zeroKey
    (.new .endToEnd 2 false) = .ok opened ∧ opened.data = [4, 0, 0, 0, 1, 2, 3, 4] :=
  ⟨_, rfl, rfl⟩

theorem fourBytes_authenticated : ∃ opened,
    readCryptoImpl lengthCrypto .endToEnd 0 fourBytes zeroKey
    (.new .endToEnd 2 false) = .ok opened ∧ opened.data = [4, 0, 0, 0, 1, 2, 3, 4] ∧
      Authenticated .endToEnd fourBytes opened := by
  obtain ⟨opened, hread, hdata⟩ := fourBytes_accepted
  exact ⟨opened, hread, hdata, data_authenticated rfl rfl hread⟩

/-- Another block is noticed: more than 48 bytes are hashed. -/
theorem fourBytes_keyDiffers (extra : Bytes) :
    KeyDiffers lengthCrypto .endToEnd 0 fourBytes zeroKey extra := by
  intro hblock hkey
  have hpart : 32 ≤
    (decryptedPart lengthCrypto .endToEnd 0 (fourBytes ++ extra) zeroKey 2).length := by
    have hlen : fourBytes.length = 55 := rfl
    rw [hlen] at hblock
    simp only [decryptedPart, toDecrypt, lengthCrypto.length_decrypt, rawSize_eq, length_take,
      length_drop, length_append, hlen]
    omega
  rw [KeyMatches, messageKeyOf_append (by decide)] at hkey
  have hbyte : min
      ((decryptedPart lengthCrypto .endToEnd 0 (fourBytes ++ extra) zeroKey 2).length + 32)
      255 % 256 = 48 := congrArg (fun key : Bytes => (key.headD 0).toNat) hkey
  omega

/-- Nothing can be added to this packet. -/
theorem protected_iff_fourBytes : ∃ opened,
    readCryptoImpl lengthCrypto .endToEnd 0 fourBytes zeroKey (.new .endToEnd 2 false)
      = .ok opened ∧ Authenticated .endToEnd fourBytes opened ∧ ∀ extra ≠ [], ¬ ∃ opened',
        readCryptoImpl lengthCrypto .endToEnd 0 (fourBytes ++ extra) zeroKey
          (.new .endToEnd 2 false) = .ok opened' := by
  obtain ⟨opened, hread, -⟩ := fourBytes_accepted
  obtain ⟨hdata, hlonger⟩ := (protected_iff rfl hread).mpr ⟨by decide, .inl rfl⟩
  exact ⟨opened, hread, hdata, fun extra hne => hlonger extra hne (fourBytes_keyDiffers extra)⟩

/-- A packet without a payload: the length, and twelve bytes of padding. -/
def emptyPacket : Bytes := leBytes 8 7 ++ replicate 16 48 ++ replicate 16 0

/-- A byte can be added to a packet, and three bytes that were not hashed can be taken for data. -/
theorem suffix_not_protected :
    ((∃ opened, readCryptoImpl lengthCrypto .endToEnd 0 emptyPacket zeroKey
        (.new .endToEnd 2 false) = .ok opened) ∧
      ∃ opened, readCryptoImpl lengthCrypto .endToEnd 0 (emptyPacket ++ [1]) zeroKey
        (.new .endToEnd 2 false) = .ok opened) ∧
    ∃ opened, readCryptoImpl lengthCrypto .endToEnd 0
        (leBytes 8 7 ++ replicate 16 48 ++ leBytes 4 15 ++ replicate 27 0) zeroKey
        { PacketInfo.new .endToEnd 2 true with checkMod4 := false } = .ok opened ∧
      ¬ Authenticated .endToEnd
        (leBytes 8 7 ++ replicate 16 48 ++ leBytes 4 15 ++ replicate 27 0) opened := by
  refine ⟨⟨⟨_, rfl⟩, _, rfl⟩, _, rfl, fun hall => ?_⟩
  exact absurd (hall 42 (by decide) (by decide)).2 (by decide)

end Tdlib.Mtproto
