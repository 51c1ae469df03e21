import Tdlib.Lib.LittleEndian

/-!
# Encrypted packets

A packet begins with the identifier of the key and the message key. The rest is
encrypted: a header (empty between two users), the data, and padding. The data
begins with a prefix that holds its length.

In version 1 of the protocol the message key is a hash of the data; in version 2
it is a hash of everything that is encrypted, padding included. The receiver
decrypts in place, computes the message key again and compares.

Hash functions and AES are parameters. Random values are parameters too. `none`
stands for a failed `CHECK`.
-/

namespace Tdlib.Mtproto

open Lib

abbrev Bytes := List UInt8

/-- `substr` of a slice. -/
def substr (b : Bytes) (start size : Nat) : Bytes := (b.drop start).take size

/-- What comes from a library. AES is used in IGE mode, with a key and an initial vector. -/
structure Crypto where
  sha1 : Bytes → Bytes
  sha256 : Bytes → Bytes
  aesIgeEncrypt (key iv text : Bytes) : Bytes
  aesIgeDecrypt (key iv text : Bytes) : Bytes
  length_sha1 : ∀ b, (sha1 b).length = 20
  length_sha256 : ∀ b, (sha256 b).length = 32
  length_encrypt : ∀ key iv text, (aesIgeEncrypt key iv text).length = text.length
  length_decrypt : ∀ key iv text, (aesIgeDecrypt key iv text).length = text.length

structure AuthKey where
  id : UInt64
  key : Bytes
  length_key : key.length = 256

/-- `CryptoHeader` with `CryptoPrefix`, or `EndToEndHeader` with `EndToEndPrefix`. -/
inductive Header where
  | crypto
  | endToEnd
deriving DecidableEq

namespace Header

/-- The salt and the session identifier. -/
def encryptedHeaderSize : Header → Nat
  | crypto => 16
  | endToEnd => 0

/-- `sizeof(HeaderT)`. -/
def size : Header → Nat
  | crypto => 40
  | endToEnd => 24

/-- `sizeof(PrefixT)`. -/
def prefixSize : Header → Nat
  | crypto => 16
  | endToEnd => 4

/-- Where `message_data_length` is in the data. -/
def lengthOffset : Header → Nat
  | crypto => 12
  | endToEnd => 0

def rawSize (h : Header) : Nat := h.size - h.encryptedHeaderSize

end Header

inductive PacketType where
  | common
  | endToEnd
deriving DecidableEq

structure PacketInfo where
  type : PacketType
  authKeyId : Nat
  messageAck : Nat
  messageKey : Bytes
  salt : Nat
  sessionId : Nat
  messageId : Nat
  seqNo : Nat
  version : Int
  noCryptoFlag : Bool
  isCreator : Bool
  checkMod4 : Bool
  useRandomPadding : Bool
  size : Nat
deriving DecidableEq

/-- The defaults. -/
def PacketInfo.new (type : PacketType) (version : Int) (isCreator : Bool) : PacketInfo :=
  ⟨type, 0, 0, [], 0, 0, 0, 0, version, false, isCreator, true, false, 0⟩

/-! ## Keys -/

section

variable (c : Crypto)

/-- The key and the initial vector of version 1. -/
def kdf (authKey msgKey : Bytes) (x : Nat) : Bytes × Bytes :=
  let sha1A := c.sha1 (msgKey ++ substr authKey x 32)
  let sha1B := c.sha1 (substr authKey (x + 32) 16 ++ msgKey ++ substr authKey (x + 48) 16)
  let sha1C := c.sha1 (substr authKey (64 + x) 32 ++ msgKey)
  let sha1D := c.sha1 (msgKey ++ substr authKey (96 + x) 32)
  (substr sha1A 0 8 ++ substr sha1B 8 12 ++ substr sha1C 4 12,
    substr sha1A 8 12 ++ substr sha1B 0 8 ++ substr sha1C 16 4 ++ substr sha1D 0 8)

/-- The key and the initial vector of version 2. -/
def kdf2 (authKey msgKey : Bytes) (x : Nat) : Bytes × Bytes :=
  let sha256A := c.sha256 (msgKey ++ substr authKey x 36)
  let sha256B := c.sha256 (substr authKey (40 + x) 36 ++ msgKey)
  (substr sha256A 0 8 ++ substr sha256B 8 16 ++ substr sha256A 24 8,
    substr sha256B 0 8 ++ substr sha256A 8 16 ++ substr sha256B 24 8)

def keyAndIv (version : Int) (authKey msgKey : Bytes) (x : Nat) : Bytes × Bytes :=
  if version = 1 then kdf c authKey msgKey x else kdf2 c authKey msgKey x

/-- The acknowledgement and the message key of version 1, from the header and the data. -/
def calcMessageAckAndKey (part : Bytes) : Nat × Bytes :=
  let messageSha1 := c.sha1 part
  (leNat (messageSha1.take 4) ||| 0x80000000, substr messageSha1 4 16)

/-- The acknowledgement and the message key of version 2, from everything that is encrypted. -/
def calcMessageKey2 (authKey : AuthKey) (x : Nat) (toEncrypt : Bytes) : Nat × Bytes :=
  let msgKeyLarge := c.sha256 (substr authKey.key (88 + x) 32 ++ toEncrypt)
  (leNat (msgKeyLarge.take 4) ||| 0x80000000, substr msgKeyLarge 8 16)

end

/-! ## Sizes -/

/-- `(n + 15) & ~15`. -/
def roundUp16 (n : Nat) : Nat := (n + 15) / 16 * 16

def calcCryptoSize (h : Header) (dataSize : Nat) : Nat :=
  h.rawSize + roundUp16 (h.encryptedHeaderSize + dataSize)

/-- The array has ten elements, and the last one is 0. -/
def paddedSizes : List Nat := [64, 128, 192, 256, 384, 512, 768, 1024, 1280, 0]

def doCalcCryptoSize2Basic (dataSize encSize rawSize : Nat) : Nat :=
  let encryptedSize := roundUp16 (encSize + dataSize + 12)
  match paddedSizes.find? (encryptedSize ≤ ·) with
  | some size => rawSize + size
  | none => rawSize + ((encryptedSize - 1280 + 447) / 448 * 448 + 1280)

def doCalcCryptoSize2Rand (random : UInt32) (dataSize encSize rawSize : Nat) : Nat :=
  rawSize + roundUp16 (encSize + dataSize + random.toNat % 256 + 12)

def doCalcCryptoSize2 (h : Header) (random : UInt32) (dataSize : Nat) (info : PacketInfo) : Nat :=
  if info.useRandomPadding then
    doCalcCryptoSize2Rand random dataSize h.encryptedHeaderSize h.rawSize
  else doCalcCryptoSize2Basic dataSize h.encryptedHeaderSize h.rawSize

/-- The size is computed once. It has to fit in 32 bits. -/
def calcCryptoSize2 (h : Header) (random : UInt32) (dataSize : Nat) (info : PacketInfo) :
    Option (Nat × PacketInfo) :=
  if info.size ≠ 0 then some (info.size, info)
  else
    let size := doCalcCryptoSize2 h random dataSize info
    if size < 0x100000000 then some (size, { info with size }) else none

/-- The size of the packet, by version. -/
def packetSize (h : Header) (random : UInt32) (dataSize : Nat) (info : PacketInfo) :
    Option (Nat × PacketInfo) :=
  if info.version = 1 then some (calcCryptoSize h dataSize, info)
  else calcCryptoSize2 h random dataSize info

/-! ## Reading -/

inductive ReadError where
  | smallerThan4 (size : Nat)
  | tooSmall (size headerSize : Nat)
  | authKeyIdMismatch (found expected : Nat)
  | tooSmallEncryptedPart
  | messageKeyMismatch (found expected : Bytes)
  | notDivisibleByFour (totalSize length : Nat)
  | lengthTooBig (totalSize length : Nat)
  | invalidPadding (paddingSize totalSize length : Nat)
  | invalidLength (totalSize length : Nat)
deriving DecidableEq

/-- The loop that compares message keys. -/
def isKeyBad (real found : Bytes) : UInt8 :=
  (real.zip found).foldl (fun bad (a, b) => bad ||| (a ^^^ b)) 0

def readNoCrypto (message : Bytes) : Except ReadError Bytes :=
  if message.length < 8 then .error (.tooSmall message.length 8) else .ok (message.drop 8)

section

variable (c : Crypto) (h : Header) (x : Nat)

def messageKeyOf (message : Bytes) : Bytes := substr message 8 16

/-- Whole blocks are decrypted, and the rest is left as it is. -/
def toDecrypt (message : Bytes) : Bytes :=
  let encrypted := message.drop h.rawSize
  encrypted.take (encrypted.length - encrypted.length % 16)

/-- What is decrypted, and hashed in version 2. -/
def decryptedPart (message : Bytes) (authKey : AuthKey) (version : Int) : Bytes :=
  let (aesKey, aesIv) := keyAndIv c version authKey.key (messageKeyOf message) x
  c.aesIgeDecrypt aesKey aesIv (toDecrypt h message)

/-- The message after it was decrypted in place. -/
def decryptInPlace (message : Bytes) (authKey : AuthKey) (version : Int) : Bytes :=
  message.take h.rawSize ++ decryptedPart c h x message authKey version ++
    message.drop (h.rawSize + (toDecrypt h message).length)

/-- `message_data_length`. -/
def messageDataLength (plain : Bytes) : Nat := leNat (substr plain (h.size + h.lengthOffset) 4)

/-- The length that version 1 expects is not there. -/
def isLengthBad (info : PacketInfo) (messageSize length : Nat) : Bool :=
  info.checkMod4 && length % 4 != 0 || calcCryptoSize h (length + h.prefixSize) != messageSize

/-- The message key is computed again. `plain` is the decrypted message. -/
def realMessageKey (message plain : Bytes) (authKey : AuthKey) (info : PacketInfo) : Nat × Bytes :=
  if info.version = 1 then
    let length := messageDataLength h plain
    let checkSize :=
      if isLengthBad h info message.length length then message.length - h.size
      else length + h.prefixSize
    calcMessageAckAndKey c (substr plain h.rawSize (h.encryptedHeaderSize + checkSize))
  else calcMessageKey2 c authKey x (decryptedPart c h x message authKey info.version)

/-- The length and the padding. -/
def checkLength (info : PacketInfo) (messageSize length : Nat) : Option ReadError :=
  let tailSize := messageSize - h.size
  if info.version = 2 then
    if info.checkMod4 ∧ length % 4 ≠ 0 then some (.notDivisibleByFour messageSize length)
    else if tailSize - h.prefixSize < length then some (.lengthTooBig messageSize length)
    else
      let padSize := tailSize - (length + h.prefixSize)
      if padSize < 12 ∨ padSize > 1024 then some (.invalidPadding padSize messageSize length)
      else none
  else if info.version = 1 ∧ isLengthBad h info messageSize length then
    some (.invalidLength messageSize length)
  else none

/-- What `read_crypto_impl` leaves behind: the decrypted message and the data in it. -/
structure Opened where
  info : PacketInfo
  plain : Bytes
  data : Bytes
deriving DecidableEq

def readCryptoImpl (message : Bytes) (authKey : AuthKey) (info : PacketInfo) :
    Except ReadError Opened :=
  if message.length < h.size then .error (.tooSmall message.length h.size)
  else if leNat (message.take 8) ≠ authKey.id.toNat then
    .error (.authKeyIdMismatch (leNat (message.take 8)) authKey.id.toNat)
  else if message.length - h.size < h.prefixSize then .error .tooSmallEncryptedPart
  else
    let plain := decryptInPlace c h x message authKey info.version
    let length := messageDataLength h plain
    let (messageAck, realKey) := realMessageKey c h x message plain authKey info
    if isKeyBad realKey (messageKeyOf message) ≠ 0 then
      .error (.messageKeyMismatch (messageKeyOf message) realKey)
    else
      match checkLength h info message.length length with
      | some e => .error e
      | none =>
        .ok ⟨{ info with messageAck }, plain, substr plain h.size (length + h.prefixSize)⟩

end

section

variable (c : Crypto)

def readCrypto (message : Bytes) (authKey : AuthKey) (info : PacketInfo) :
    Except ReadError (PacketInfo × Bytes) :=
  (readCryptoImpl c .crypto 8 message authKey info).map fun opened =>
    ({ opened.info with
        type := .common
        salt := leNat (substr opened.plain 24 8)
        sessionId := leNat (substr opened.plain 32 8)
        messageId := leNat (substr opened.plain 40 8)
        seqNo := leNat (substr opened.plain 48 4) }, opened.data)

def readE2eCrypto (message : Bytes) (authKey : AuthKey) (info : PacketInfo) :
    Except ReadError (PacketInfo × Bytes) :=
  let x := if info.isCreator ∧ info.version ≠ 1 then 8 else 0
  (readCryptoImpl c .endToEnd x message authKey info).map fun opened =>
    ({ opened.info with type := .endToEnd }, opened.data)

inductive ReadResult where
  | nop
  | quickAck (ack : Nat)
  | error (code : Nat)
  | packet (data : Bytes)
deriving DecidableEq

/-- A code is read as an unsigned number: `-1` is `2^32 - 1`. -/
def read (message : Bytes) (authKey : AuthKey) (info : PacketInfo) :
    Except ReadError (PacketInfo × ReadResult) :=
  if message.length < 12 then
    if message.length < 4 then .error (.smallerThan4 message.length)
    else
      let code := leNat (message.take 4)
      if code = 0 then .ok (info, .nop)
      else if code = 0xffffffff ∧ message.length ≥ 8 then
        .ok (info, .quickAck (leNat (substr message 4 4)))
      else .ok (info, .error code)
  else
    let authKeyId := leNat (message.take 8)
    let info := { info with authKeyId, noCryptoFlag := authKeyId == 0 }
    if info.type = .endToEnd then
      (readE2eCrypto c message authKey info).map fun (info, data) => (info, .packet data)
    else if info.noCryptoFlag then (readNoCrypto message).map fun data => (info, .packet data)
    else (readCrypto c message authKey info).map fun (info, data) => (info, .packet data)

end

/-! ## Writing -/

/-- The size of the packet. It is written if there is room for it. -/
structure Written where
  size : Nat
  info : PacketInfo
  packet : Option Bytes
deriving DecidableEq

section

variable (c : Crypto) (random : UInt32) (randomBytes : Nat → UInt8)

/-- What is encrypted: the header, the data with its prefix, and the padding. -/
def toEncrypt (h : Header) (stored encryptedHeader : Bytes) (size : Nat) : Bytes :=
  encryptedHeader ++ stored ++ (List.range (size - (h.size + stored.length))).map randomBytes

/-- The acknowledgement and the message key of a packet. -/
def writtenKey (h : Header) (x : Nat) (stored encryptedHeader : Bytes) (authKey : AuthKey)
    (version : Int) (size : Nat) : Nat × Bytes :=
  if version = 1 then calcMessageAckAndKey c (encryptedHeader ++ stored)
  else calcMessageKey2 c authKey x (toEncrypt randomBytes h stored encryptedHeader size)

/-- The packet. -/
def written (h : Header) (x : Nat) (stored encryptedHeader : Bytes) (authKey : AuthKey)
    (version : Int) (size : Nat) : Bytes :=
  let messageKey := (writtenKey c randomBytes h x stored encryptedHeader authKey version size).2
  let (aesKey, aesIv) := keyAndIv c version authKey.key messageKey x
  leBytes 8 authKey.id.toNat ++ messageKey ++
    c.aesIgeEncrypt aesKey aesIv (toEncrypt randomBytes h stored encryptedHeader size)

def writeCryptoImpl (h : Header) (x : Nat) (stored : Bytes) (authKey : AuthKey) (info : PacketInfo)
    (encryptedHeader : Bytes) : Option (PacketInfo × Bytes) :=
  (packetSize h random stored.length info).map fun (size, info) =>
    let (messageAck, messageKey) :=
      writtenKey c randomBytes h x stored encryptedHeader authKey info.version size
    ({ info with messageAck, messageKey },
      written c randomBytes h x stored encryptedHeader authKey info.version size)

/-- The size is returned if the packet does not fit. -/
def writeCryptoTo (h : Header) (x : Nat) (stored : Bytes) (authKey : AuthKey) (info : PacketInfo)
    (encryptedHeader : Bytes) (destSize : Nat) : Option Written :=
  (packetSize h random stored.length info).bind fun (size, info) =>
    if size > destSize then some ⟨size, info, none⟩
    else (writeCryptoImpl c random randomBytes h x stored authKey info encryptedHeader).map
      fun (info, packet) => ⟨size, info, some packet⟩

def writeE2eCrypto (stored : Bytes) (authKey : AuthKey) (info : PacketInfo) (destSize : Nat) :
    Option Written :=
  let x := if info.isCreator ∨ info.version = 1 then 0 else 8
  writeCryptoTo c random randomBytes .endToEnd x stored authKey info [] destSize

/-- `SecretImpl`: the length and the payload. -/
def storeSecret (payload : Bytes) : Bytes := leBytes 4 payload.length ++ payload

/-- `create_encrypted_message`: the first call gives the size, and the second one writes. -/
def writePacket (payload : Bytes) (authKey : AuthKey) (info : PacketInfo) : Option Bytes :=
  (writeE2eCrypto c random randomBytes (storeSecret payload) authKey info 0).bind fun first =>
    (writeE2eCrypto c random randomBytes (storeSecret payload) authKey first.info first.size).bind
      fun second => second.packet

end

end Tdlib.Mtproto
