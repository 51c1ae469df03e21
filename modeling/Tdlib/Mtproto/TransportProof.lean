import Tdlib.Mtproto.Transport

/-!
# What was written can be read

The writer rounds the size of a packet up, in one of three ways. The reader gets
only the size, cuts the packet at the same places, and accepts it if the length in
the prefix leaves a padding it allows. Whether both agree is a matter of sizes
only; that the message key agrees follows, since both hash the same bytes.
-/

namespace Tdlib.Mtproto

open Lib List

/-! ## Sizes -/

theorem roundUp16_spec (n : Nat) : n ≤ roundUp16 n ∧ roundUp16 n < n + 16 ∧
    roundUp16 n % 16 = 0 := by
  unfold roundUp16
  omega

variable {c : Crypto} {h : Header} {x n size : Nat} {random : UInt32} {randomBytes : Nat → UInt8}
  {stored payload encryptedHeader : Bytes} {authKey : AuthKey} {info info' : PacketInfo}

@[simp] theorem rawSize_eq (h : Header) : h.rawSize = 24 := by cases h <;> rfl

theorem size_eq (h : Header) : h.size = 24 + h.encryptedHeaderSize := by cases h <;> rfl

variable {e length : Nat}

theorem find_padded (hpos : 0 < e) (hfind : paddedSizes.find? (e ≤ ·) = some size) :
    size % 16 = 0 ∧ e ≤ size ∧ (size = 64 ∨ size ≤ e + 255) := by
  simp only [paddedSizes, find?_cons, find?_nil] at hfind
  repeat' split at hfind
  all_goals
    simp only [decide_eq_true_eq, decide_eq_false_iff_not, Option.some.injEq, reduceCtorEq] at *
    try omega

theorem find_padded_none (hfind : paddedSizes.find? (e ≤ ·) = none) : 1280 < e := by
  have := find?_eq_none.mp hfind 1280 (by decide)
  simpa using this

/-- What the writer may add to `n` bytes: whole blocks, and a padding that the reader allows. -/
structure Padded (n encrypted : Nat) : Prop where
  blocks : encrypted % 16 = 0
  least : n + 12 ≤ encrypted
  most : encrypted ≤ n + 1024

theorem doCalcCryptoSize2Basic_spec (dataSize encSize rawSize : Nat) :
    ∃ encrypted, doCalcCryptoSize2Basic dataSize encSize rawSize = rawSize + encrypted ∧
      Padded (encSize + dataSize) encrypted := by
  obtain ⟨hle, hlt, hmod⟩ := roundUp16_spec (encSize + dataSize + 12)
  unfold doCalcCryptoSize2Basic
  dsimp only
  split
  · rename_i size hfind
    obtain ⟨hblocks, hfits, hclose⟩ := find_padded (by omega) hfind
    exact ⟨size, rfl, hblocks, by omega, by omega⟩
  · rename_i hfind
    have := find_padded_none hfind
    exact ⟨_, rfl, by omega, by omega, by omega⟩

theorem doCalcCryptoSize2Rand_spec (random : UInt32) (dataSize encSize rawSize : Nat) :
    ∃ encrypted, doCalcCryptoSize2Rand random dataSize encSize rawSize = rawSize + encrypted ∧
      Padded (encSize + dataSize) encrypted := by
  obtain ⟨hle, hlt, hmod⟩ := roundUp16_spec (encSize + dataSize + random.toNat % 256 + 12)
  exact ⟨_, rfl, hmod, by omega, by omega⟩

theorem doCalcCryptoSize2_spec (h : Header) (random : UInt32) (n : Nat) (info : PacketInfo) :
    ∃ encrypted, doCalcCryptoSize2 h random n info = 24 + encrypted ∧
      Padded (h.encryptedHeaderSize + n) encrypted := by
  rw [doCalcCryptoSize2, rawSize_eq]
  split
  · exact doCalcCryptoSize2Rand_spec ..
  · exact doCalcCryptoSize2Basic_spec ..

/-- What the writer computes before it writes. -/
structure Sized (h : Header) (n : Nat) (info : PacketInfo) (size : Nat) (info' : PacketInfo) :
    Prop where
  header : size = 24 + (size - 24)
  blocks : (size - 24) % 16 = 0
  room : h.encryptedHeaderSize + n ≤ size - 24
  version_eq : info'.version = info.version
  isCreator_eq : info'.isCreator = info.isCreator
  first : info.version = 1 → size = calcCryptoSize h n
  second : info.version ≠ 1 → Padded (h.encryptedHeaderSize + n) (size - 24)
  /-- The size does not change any more. -/
  again : ∀ random, packetSize h random n info' = some (size, info')

theorem packetSize_spec (hnew : info.size = 0)
    (hsize : packetSize h random n info = some (size, info')) : Sized h n info size info' := by
  unfold packetSize at hsize
  split at hsize
  · rename_i hversion
    cases hsize
    obtain ⟨hle, hlt, hmod⟩ := roundUp16_spec (h.encryptedHeaderSize + n)
    have hcalc : calcCryptoSize h n = 24 + roundUp16 (h.encryptedHeaderSize + n) := by
      rw [calcCryptoSize, rawSize_eq]
    exact {
      header := by omega
      blocks := by omega
      room := by omega
      version_eq := rfl
      isCreator_eq := rfl
      first := fun _ => rfl
      second := fun hne => absurd hversion hne
      again := fun _ => by rw [packetSize, if_pos hversion] }
  rename_i hversion
  rw [calcCryptoSize2, if_neg (by simp [hnew])] at hsize
  dsimp only at hsize
  obtain ⟨encrypted, heq, hpadded⟩ := doCalcCryptoSize2_spec h random n info
  have hleast := hpadded.least
  have hblocks := hpadded.blocks
  split at hsize
  · cases hsize
    rw [heq]
    exact {
      header := by omega
      blocks := by omega
      room := by omega
      version_eq := rfl
      isCreator_eq := rfl
      first := fun heq => absurd heq hversion
      second := fun _ => by rwa [Nat.add_sub_cancel_left]
      again := fun _ => by
        rw [packetSize, if_neg hversion, calcCryptoSize2, if_pos (by dsimp only; omega)] }
  · cases hsize

/-! ## The parts of a packet -/

theorem substr_append {front b : Bytes} (rest : Bytes) {start : Nat}
    (hfits : start + size ≤ b.length) :
    substr (front ++ (b ++ rest)) (front.length + start) size = substr b start size := by
  rw [substr, substr, ← drop_drop, drop_left, drop_append_of_le_length (by omega),
    take_append_of_le_length (by rw [length_drop]; omega)]

theorem substr_all (b rest : Bytes) : substr (b ++ rest) 0 b.length = b := by
  rw [substr, drop_zero, take_left]

/-- Equal keys are not bad. -/
theorem isKeyBad_self (key : Bytes) : isKeyBad key key = 0 := by
  unfold isKeyBad
  induction key with
  | nil => rfl
  | cons b key ih => simpa using ih

theorem length_messageKey2 (c : Crypto) (authKey : AuthKey) (x : Nat) (text : Bytes) :
    (calcMessageKey2 c authKey x text).2.length = 16 := by
  simp [calcMessageKey2, substr, c.length_sha256]

theorem length_messageKey (c : Crypto) (part : Bytes) :
    (calcMessageAckAndKey c part).2.length = 16 := by
  simp [calcMessageAckAndKey, substr, c.length_sha1]

section

variable {id key e : Bytes}

section

variable (hid : id.length = 8) (hkey : key.length = 16)
include hid hkey

theorem toDecrypt_packet (he : e.length % 16 = 0) : toDecrypt h (id ++ key ++ e) = e := by
  have hlen : (id ++ key).length = 24 := by rw [length_append, hid, hkey]
  rw [toDecrypt, rawSize_eq, ← hlen, drop_left, he, Nat.sub_zero, take_length]

theorem messageKeyOf_packet : messageKeyOf (id ++ key ++ e) = key := by
  rw [messageKeyOf, append_assoc, substr, ← hid, drop_left, ← hkey, take_left]

/-- A packet is decrypted. -/
theorem decryptInPlace_packet (he : e.length % 16 = 0) (version : Int) :
    decryptInPlace c h x (id ++ key ++ e) authKey version
      = id ++ key ++ decryptedPart c h x (id ++ key ++ e) authKey version := by
  have hlen : (id ++ key).length = 24 := by rw [length_append, hid, hkey]
  rw [decryptInPlace, toDecrypt_packet hid hkey he, rawSize_eq]
  have htake : (id ++ key ++ e).take 24 = id ++ key := by rw [← hlen, take_left]
  have hdrop : (id ++ key ++ e).drop (24 + e.length) = [] :=
    drop_eq_nil_iff.mpr (Nat.le_of_eq (by rw [length_append, hlen]))
  rw [htake, hdrop, append_nil]

end

end

/-- The prefix tells how long the data is. -/
structure Stored (h : Header) (stored : Bytes) (length : Nat) : Prop where
  length_eq : stored.length = length + h.prefixSize
  field_eq : leNat (substr stored h.lengthOffset 4) = length
  mod4 : length % 4 = 0

theorem lengthOffset_le (h : Header) : h.lengthOffset + 4 ≤ h.prefixSize := by
  cases h <;> simp [Header.lengthOffset, Header.prefixSize]

/-- What is decrypted has the data where the reader looks for it. -/
theorem Stored.read {id key pad : Bytes} (hs : Stored h stored length) (hid : id.length = 8)
    (hkey : key.length = 16) (hheader : encryptedHeader.length = h.encryptedHeaderSize) :
    messageDataLength h (id ++ key ++ (encryptedHeader ++ stored ++ pad)) = length ∧
      substr (id ++ key ++ (encryptedHeader ++ stored ++ pad)) h.size (length + h.prefixSize)
        = stored ∧
      substr (id ++ key ++ (encryptedHeader ++ stored ++ pad)) h.rawSize
        (h.encryptedHeaderSize + (length + h.prefixSize)) = encryptedHeader ++ stored := by
  have hlen : (id ++ key ++ encryptedHeader).length = h.size := by
    rw [length_append, length_append, hid, hkey, hheader, size_eq]
  have hsplit : id ++ key ++ (encryptedHeader ++ stored ++ pad)
      = (id ++ key ++ encryptedHeader) ++ (stored ++ pad) := by simp [append_assoc]
  have hfits := lengthOffset_le h
  have hlength := hs.length_eq
  refine ⟨?_, ?_, ?_⟩
  · rw [hsplit, messageDataLength, ← hlen, substr_append pad (by omega), hs.field_eq]
  · rw [hsplit, substr, ← hlen, drop_left, ← hlength, take_left]
  have hraw : (id ++ key).length = 24 := by rw [length_append, hid, hkey]
  have hpart : (encryptedHeader ++ stored).length
      = h.encryptedHeaderSize + (length + h.prefixSize) := by
    rw [length_append, hheader, hlength]
  rw [substr, rawSize_eq, ← hraw, drop_left, ← hpart, take_left]

/-- A packet is written where there is room for it. -/
theorem writeCryptoTo_eq (hsize : packetSize h random stored.length info = some (size, info)) :
    ∃ info', writeCryptoTo c random randomBytes h x stored authKey info encryptedHeader size
      = some ⟨size, info',
        some (written c randomBytes h x stored encryptedHeader authKey info.version size)⟩ := by
  rw [writeCryptoTo, hsize, Option.bind_some]
  dsimp only
  rw [if_neg (lt_irrefl size), writeCryptoImpl, hsize]
  exact ⟨_, rfl⟩

section

variable {version : Int}

theorem length_writtenKey :
    (writtenKey c randomBytes h x stored encryptedHeader authKey version size).2.length = 16 := by
  rw [writtenKey]
  split
  · exact length_messageKey ..
  · exact length_messageKey2 ..

theorem length_toEncrypt (hheader : encryptedHeader.length = h.encryptedHeaderSize)
    (hroom : h.encryptedHeaderSize + stored.length ≤ size - 24) (hsize : size = 24 + (size - 24)) :
    (toEncrypt randomBytes h stored encryptedHeader size).length = size - 24 := by
  have := size_eq h
  simp only [toEncrypt, length_append, length_map, length_range]
  omega

theorem length_written (hheader : encryptedHeader.length = h.encryptedHeaderSize)
    (hsized : Sized h stored.length info size info') :
    (written c randomBytes h x stored encryptedHeader authKey version size).length = size := by
  have hlen : (toEncrypt randomBytes h stored encryptedHeader size).length = size - 24 :=
    length_toEncrypt hheader hsized.room hsized.header
  have := hsized.header
  rw [written]
  simp only [length_append, length_leBytes, length_writtenKey, c.length_encrypt]
  omega

end

/-- AES decrypts what it has encrypted. -/
def Crypto.Inverse (c : Crypto) : Prop :=
  ∀ key iv text, text.length % 16 = 0 → c.aesIgeDecrypt key iv (c.aesIgeEncrypt key iv text) = text

section

variable {length : Nat} {reader : PacketInfo}

/-- The length is the one that version 1 expects. -/
theorem isLengthBad_written (hstored : Stored h stored length)
    (hsized : Sized h stored.length info size info') (hversion : info.version = 1) :
    isLengthBad h reader size length = false := by
  have hcalc := hsized.first hversion
  rw [hstored.length_eq] at hcalc
  simp [isLengthBad, hstored.mod4, ← hcalc]

/-- The length and the padding are right. -/
theorem checkLength_written (hversion : info.version = 1 ∨ info.version = 2)
    (hstored : Stored h stored length) (hsized : Sized h stored.length info size info')
    (hreader : reader.version = info.version) : checkLength h reader size length = none := by
  have hlength := hstored.length_eq
  have hheader := size_eq h
  have hsize := hsized.header
  unfold checkLength
  rw [hreader]
  rcases hversion with hversion | hversion
  · rw [if_neg (by omega), isLengthBad_written hstored hsized hversion, if_neg (by simp)]
  · obtain ⟨hblocks, hleast, hmost⟩ := hsized.second (by omega)
    rw [if_pos hversion, if_neg (by simp [hstored.mod4]), if_neg (by omega)]
    rw [if_neg (by omega)]

theorem messageKeyOf_written (version : Int) :
    messageKeyOf (written c randomBytes h x stored encryptedHeader authKey version size)
      = (writtenKey c randomBytes h x stored encryptedHeader authKey version size).2 :=
  messageKeyOf_packet (length_leBytes ..) length_writtenKey

theorem authKeyId_written (version : Int) :
    leNat ((written c randomBytes h x stored encryptedHeader authKey version size).take 8)
      = authKey.id.toNat := by
  have hid : (leBytes 8 authKey.id.toNat).length = 8 := length_leBytes ..
  rw [written]
  dsimp only
  rw [append_assoc, take_append_of_le_length (Nat.le_of_eq hid.symm),
    take_of_length_le (Nat.le_of_eq hid), leNat_leBytes_of_lt authKey.id.toNat_lt]

variable (authKey randomBytes x) in
/-- The reader decrypts what the writer has encrypted. -/
theorem decryptedPart_written (hinv : c.Inverse)
    (hheader : encryptedHeader.length = h.encryptedHeaderSize)
    (hsized : Sized h stored.length info size info') (version : Int) :
    decryptedPart c h x
      (written c randomBytes h x stored encryptedHeader authKey version size) authKey
      version = toEncrypt randomBytes h stored encryptedHeader size ∧
    decryptInPlace c h x (written c randomBytes h x stored encryptedHeader authKey version size)
      authKey version = leBytes 8 authKey.id.toNat ++
        (writtenKey c randomBytes h x stored encryptedHeader authKey version size).2 ++
        toEncrypt randomBytes h stored encryptedHeader size := by
  have htext : (toEncrypt randomBytes h stored encryptedHeader size).length % 16 = 0 := by
    rw [length_toEncrypt hheader hsized.room hsized.header]
    exact hsized.blocks
  have hblocks : ∀ aesKey aesIv, (c.aesIgeEncrypt aesKey aesIv
      (toEncrypt randomBytes h stored encryptedHeader size)).length % 16 = 0 :=
        fun aesKey aesIv => by
    rw [c.length_encrypt, htext]
  have hpart : decryptedPart c h x (written c randomBytes h x stored encryptedHeader authKey version
      size) authKey version = toEncrypt randomBytes h stored encryptedHeader size := by
    rw [decryptedPart, messageKeyOf_written, written]
    rw [toDecrypt_packet (length_leBytes ..) length_writtenKey (hblocks _ _)]
    exact hinv _ _ _ htext
  refine ⟨hpart, ?_⟩
  rw [← hpart]
  exact decryptInPlace_packet (length_leBytes ..) length_writtenKey (hblocks _ _) version

/-- **A packet that was written is accepted**, by a reader with the same key, direction and version,
and the reader gets what was stored. -/
theorem read_written (hinv : c.Inverse) (hversion : info.version = 1 ∨ info.version = 2)
    (hstored : Stored h stored length)
    (hheader : encryptedHeader.length = h.encryptedHeaderSize)
    (hsized : Sized h stored.length info size info') (hreader : reader.version = info.version) :
    ∃ opened, readCryptoImpl c h x
        (written c randomBytes h x stored encryptedHeader authKey info.version size) authKey reader
        = .ok opened ∧ opened.data = stored := by
  have hsize : (written c randomBytes h x stored encryptedHeader authKey info.version size).length
      = size := length_written hheader hsized
  have hroom := hsized.room
  have hsum := hsized.header
  have hheader_size := size_eq h
  have hlength := hstored.length_eq
  obtain ⟨hpart, hplain⟩ :=
    decryptedPart_written x randomBytes authKey hinv hheader hsized info.version
  have htext : toEncrypt randomBytes h stored encryptedHeader size = encryptedHeader ++
    stored ++ _ := rfl
  have hkey : (writtenKey c randomBytes h x stored encryptedHeader authKey info.version
    size).2.length = 16 := length_writtenKey
  obtain ⟨hfield, hdata, hhashed⟩ := hstored.read (length_leBytes 8 authKey.id.toNat) hkey hheader
  rw [← htext, ← hplain] at hfield hdata hhashed
  have hreal : realMessageKey c h x
      (written c randomBytes h x stored encryptedHeader authKey info.version size)
      (decryptInPlace c h x (written c randomBytes h x stored encryptedHeader authKey info.version
        size) authKey info.version) authKey reader
      = writtenKey c randomBytes h x stored encryptedHeader authKey info.version size := by
    rw [realMessageKey, writtenKey, hreader]
    rcases hversion with hversion | hversion
    · rw [if_pos hversion, if_pos hversion, hfield, hsize]
      dsimp only
      rw [isLengthBad_written hstored hsized hversion, if_neg (by simp), hhashed]
    · rw [if_neg (by omega), if_neg (by omega), hpart]
  unfold readCryptoImpl
  rw [if_neg (by omega), if_neg (by simp [authKeyId_written]), if_neg (by omega), hreader]
  dsimp only
  rw [hreal, hfield, messageKeyOf_written, isKeyBad_self, hsize,
    checkLength_written hversion hstored hsized hreader]
  exact ⟨_, rfl, hdata⟩

end

/-! ## Between two users -/

/-- The size of the packet before anything is said about its limits. -/
def e2ePacketSize (random : UInt32) (payload : Bytes) (info : PacketInfo) : Nat :=
  if info.version = 1 then calcCryptoSize .endToEnd (storeSecret payload).length
  else doCalcCryptoSize2 .endToEnd random (storeSecret payload).length info

theorem length_storeSecret (payload : Bytes) :
    (storeSecret payload).length = payload.length + 4 := by
  rw [storeSecret, length_append, length_leBytes, add_comm]

theorem storeSecret_stored (hsmall : payload.length < 0x100000000) (hmod : payload.length % 4 = 0) :
    Stored .endToEnd (storeSecret payload) payload.length where
  length_eq := length_storeSecret payload
  field_eq := by
    have hfield : substr (storeSecret payload) 0 4 = leBytes 4 payload.length := by
      have := substr_all (leBytes 4 payload.length) payload
      rwa [length_leBytes] at this
    show leNat (substr (storeSecret payload) 0 4) = _
    rw [hfield, leNat_leBytes_of_lt hsmall]
  mod4 := hmod

/-- The size is found if it fits in 32 bits. -/
theorem packetSize_e2e (hnew : info.size = 0)
    (hfits : e2ePacketSize random payload info < 0x100000000) :
    ∃ info', packetSize .endToEnd random (storeSecret payload).length info
      = some (e2ePacketSize random payload info, info') := by
  unfold e2ePacketSize at *
  unfold packetSize
  split at hfits
  · rename_i hversion
    exact ⟨info, by rw [if_pos hversion, if_pos hversion]⟩
  · rename_i hversion
    rw [if_neg hversion, if_neg hversion, calcCryptoSize2, if_neg (by simp [hnew])]
    exact ⟨_, if_pos hfits⟩

/-- Both calls of the writer agree on the size, and the second one writes. -/
theorem writePacket_eq (hnew : info.size = 0)
    (hfits : e2ePacketSize random payload info < 0x100000000) :
    writePacket c random randomBytes payload authKey info
      = some (written c randomBytes .endToEnd (if info.isCreator ∨ info.version = 1 then 0 else 8)
        (storeSecret payload) [] authKey info.version (e2ePacketSize random payload info)) := by
  obtain ⟨info', hsize⟩ := packetSize_e2e hnew hfits
  have hsized := packetSize_spec hnew hsize
  have hpos : e2ePacketSize random payload info > 0 := by
    have := hsized.header
    omega
  have hfirst : writeE2eCrypto c random randomBytes (storeSecret payload) authKey info 0
      = some ⟨e2ePacketSize random payload info, info', none⟩ := by
    rw [writeE2eCrypto, writeCryptoTo, hsize]
    exact if_pos hpos
  obtain ⟨info'', hsecond⟩ : ∃ info'', writeE2eCrypto c random randomBytes (storeSecret payload)
      authKey info' (e2ePacketSize random payload info) = some ⟨e2ePacketSize random payload info,
        info'', some (written c randomBytes .endToEnd
          (if info.isCreator ∨ info.version = 1 then 0 else 8)
          (storeSecret payload) [] authKey info.version (e2ePacketSize random payload info))⟩ := by
    rw [← hsized.version_eq, ← hsized.isCreator_eq]
    exact writeCryptoTo_eq (hsized.again random)
  rw [writePacket, hfirst, Option.bind_some, hsecond, Option.bind_some]

variable (authKey) in
/-- The other side reads with the direction of the writer. -/
theorem readE2eCrypto_written (hinv : c.Inverse) (hversion : info.version = 1 ∨ info.version = 2)
    (hstored : Stored .endToEnd stored length)
    (hsized : Sized .endToEnd stored.length info size info') {reader : PacketInfo}
    (hreader : reader.version = info.version) (hother : reader.isCreator = !info.isCreator) :
    ∃ reader', readE2eCrypto c (written c randomBytes .endToEnd
      (if info.isCreator ∨ info.version = 1 then 0 else 8) stored [] authKey info.version size)
        authKey
      reader = .ok (reader', stored) := by
  have hx : (if reader.isCreator ∧ reader.version ≠ 1 then 8 else 0)
      = if info.isCreator ∨ info.version = 1 then 0 else 8 := by
    rw [hother, hreader]
    cases info.isCreator <;> simp
  have hheader : ([] : Bytes).length = Header.endToEnd.encryptedHeaderSize := rfl
  obtain ⟨opened, hopen, hdata⟩ := read_written hinv hversion hstored hheader hsized hreader
  rw [readE2eCrypto, hx, hopen]
  exact ⟨_, by rw [← hdata]; rfl⟩

/-- **What one user has sealed, the other one opens.** The reader is the other side: one of them is
the creator. The packet consists of whole blocks, and in version 2 the padding has a size that the
protocol allows. -/
theorem sealed_opens (hinv : c.Inverse) (hversion : info.version = 1 ∨ info.version = 2)
    (hnew : info.size = 0) (hmod : payload.length % 4 = 0)
    (hfits : e2ePacketSize random payload info < 0x100000000) {reader : PacketInfo}
    (htype : reader.type = .endToEnd) (hreader : reader.version = info.version)
    (hother : reader.isCreator = !info.isCreator) :
    ∃ packet reader', writePacket c random randomBytes payload authKey info = some packet ∧
      read c packet authKey reader = .ok (reader', .packet (storeSecret payload)) ∧
      (packet.length - 24) % 16 = 0 ∧
      (info.version = 2 → 12 ≤ packet.length - 24 - (storeSecret payload).length ∧
        packet.length - 24 - (storeSecret payload).length ≤ 1024) := by
  obtain ⟨info', hsize⟩ := packetSize_e2e hnew hfits
  have hsized := packetSize_spec hnew hsize
  have hroom : 0 + (storeSecret payload).length ≤ _ := hsized.room
  have hlength := length_storeSecret payload
  have hstored := storeSecret_stored (show payload.length < 0x100000000 by omega) hmod
  have hlen : (written c randomBytes .endToEnd (if info.isCreator ∨ info.version = 1 then 0 else 8)
      (storeSecret payload) [] authKey info.version (e2ePacketSize random payload info)).length
      = e2ePacketSize random payload info := length_written rfl hsized
  obtain ⟨reader', hread⟩ : ∃ reader', read c (written c randomBytes .endToEnd
      (if info.isCreator ∨ info.version = 1 then 0 else 8) (storeSecret payload) [] authKey
      info.version (e2ePacketSize random payload info)) authKey reader
      = .ok (reader', .packet (storeSecret payload)) := by
    rw [read, if_neg (by omega)]
    rw [if_pos htype]
    generalize hnoted : ({ reader with authKeyId := _, noCryptoFlag := _ } : PacketInfo) = noted
    have hreader : noted.version = info.version := by rw [← hnoted]; exact hreader
    have hother : noted.isCreator = !info.isCreator := by rw [← hnoted]; exact hother
    obtain ⟨reader', hread⟩ :=
      readE2eCrypto_written authKey hinv hversion hstored hsized hreader hother
    rw [hread]
    exact ⟨reader', rfl⟩
  refine ⟨_, reader', writePacket_eq hnew hfits, hread, ?_, fun htwo => ?_⟩
  · rw [hlen]
    exact hsized.blocks
  · obtain ⟨-, hleast, hmost⟩ := hsized.second (by omega)
    have henc : Header.endToEnd.encryptedHeaderSize = 0 := rfl
    omega

/-- Functions that do nothing, to compute with. -/
def identityCrypto : Crypto where
  sha1 _ := replicate 20 0
  sha256 _ := replicate 32 0
  aesIgeEncrypt _ _ text := text
  aesIgeDecrypt _ _ text := text
  length_sha1 _ := rfl
  length_sha256 _ := rfl
  length_encrypt _ _ _ := rfl
  length_decrypt _ _ _ := rfl

def zeroKey : AuthKey := ⟨7, replicate 256 0, length_replicate⟩

theorem sealed_opens_eight :
    identityCrypto.Inverse ∧ e2ePacketSize 0 [1, 2, 3, 4, 5, 6, 7, 8] (.new .endToEnd 2 true) = 88 ∧
    ∃ packet reader', writePacket identityCrypto 0 (fun _ => 0) [1, 2, 3, 4, 5, 6, 7, 8] zeroKey
        (.new .endToEnd 2 true) = some packet ∧
      read identityCrypto packet zeroKey (.new .endToEnd 2 false)
        = .ok (reader', .packet (storeSecret [1, 2, 3, 4, 5, 6, 7, 8])) := by
  have hinv : identityCrypto.Inverse := fun _ _ _ _ => rfl
  have hsize : e2ePacketSize 0 [1, 2, 3, 4, 5, 6, 7, 8] (.new .endToEnd 2 true) = 88 := by decide
  have hversion : (PacketInfo.new .endToEnd 2 true).version = 2 := rfl
  have htype : (PacketInfo.new .endToEnd 2 false).type = .endToEnd := rfl
  refine ⟨hinv, hsize, ?_⟩
  exact (sealed_opens hinv (.inr hversion) rfl rfl (by rw [hsize]; decide) htype rfl rfl).imp
    fun packet h => h.imp fun reader' h => ⟨h.1, h.2.1⟩

/-- A payload of `2^32` bytes cannot be sent: the size of its packet does not fit in 32 bits. -/
theorem huge_not_sent :
    (replicate 0x100000000 (0 : UInt8)).length % 4 = 0 ∧
    ∀ c random randomBytes authKey, writePacket c random randomBytes
      (replicate 0x100000000 0) authKey (.new .endToEnd 2 true) = none := by
  refine ⟨by rw [length_replicate], fun c random randomBytes authKey => ?_⟩
  obtain ⟨encrypted, heq, hpadded⟩ := doCalcCryptoSize2_spec .endToEnd random
    (storeSecret (replicate 0x100000000 0)).length (.new .endToEnd 2 true)
  have hlarge := hpadded.least
  rw [length_storeSecret, length_replicate] at hlarge
  have hnone : packetSize .endToEnd random (storeSecret (replicate 0x100000000 0)).length
      (.new .endToEnd 2 true) = none := by
    rw [packetSize, if_neg (by decide), calcCryptoSize2, if_neg (by decide)]
    exact if_neg (by omega)
  rw [writePacket, writeE2eCrypto, writeCryptoTo, hnone]
  rfl

end Tdlib.Mtproto
