import Mathlib

/-!
# AES in IGE mode

`AesIgeStateImpl` encrypts in batches of 31 blocks. OpenSSL has CBC but not IGE, so each batch is
rewritten: the blocks are xored with those two places before them, the batch goes through CBC at
once, and the results are xored with the blocks one place before them. **What comes out is IGE**,
and the vectors that are kept after a batch are those from which IGE goes on.

AES itself is any permutation of the blocks. Data are lists of blocks, since the code takes no
others.
-/

namespace Tdlib.Crypto

open List

/-- Sixteen bytes, as two words. -/
@[ext]
structure AesBlock where
  hi : UInt64
  lo : UInt64
deriving DecidableEq

namespace AesBlock

instance : XorOp AesBlock := ⟨fun a b => ⟨a.hi ^^^ b.hi, a.lo ^^^ b.lo⟩⟩

variable (a b c : AesBlock)

theorem xor_comm : a ^^^ b = b ^^^ a := AesBlock.ext (UInt64.xor_comm ..) (UInt64.xor_comm ..)

theorem xor_assoc : a ^^^ b ^^^ c = a ^^^ (b ^^^ c) :=
  AesBlock.ext (UInt64.xor_assoc ..) (UInt64.xor_assoc ..)

@[simp] theorem xor_xor_cancel : a ^^^ b ^^^ b = a := by
  have word (x y : UInt64) : x ^^^ y ^^^ y = x :=
    by rw [UInt64.xor_assoc, UInt64.xor_self, UInt64.xor_zero]
  exact AesBlock.ext (word ..) (word ..)

end AesBlock

/-- Textbook CBC over the block permutation: what `EVP_EncryptUpdate` does after `init_iv`. -/
def cbcEncrypt (encryptBlock : AesBlock → AesBlock) (iv : AesBlock) : List AesBlock → List AesBlock
  | [] => []
  | block :: blocks =>
    let encrypted := encryptBlock (block ^^^ iv)
    encrypted :: cbcEncrypt encryptBlock encrypted blocks

@[ext]
structure AesIgeState where
  encryptedIv : AesBlock
  plaintextIv : AesBlock
deriving DecidableEq

namespace AesIgeState

/-- One round of `encrypt`. -/
def encryptBatch (encryptBlock : AesBlock → AesBlock) (s : AesIgeState) (data : List AesBlock) :
    List AesBlock × AesIgeState :=
  -- the first block is left alone, the second one is xored with `plaintext_iv_`
  let dataXored := data.take 1 ++ zipWith (· ^^^ ·) (s.plaintextIv :: data) (data.drop 1)
  let dataXored := cbcEncrypt encryptBlock s.encryptedIv dataXored
  let dataXored := zipWith (· ^^^ ·) dataXored (s.plaintextIv :: data)
  (dataXored, ⟨dataXored.getLastD s.encryptedIv, data.getLastD s.plaintextIv⟩)

def blockCount : Nat := 31

def encrypt (encryptBlock : AesBlock → AesBlock) (s : AesIgeState) (data : List AesBlock) :
    List AesBlock × AesIgeState :=
  if _ : data = [] then ([], s)
  else
    let (out, s) := s.encryptBatch encryptBlock (data.take blockCount)
    let (rest, s) := s.encrypt encryptBlock (data.drop blockCount)
    (out ++ rest, s)
termination_by data.length
decreasing_by
  have := length_pos_iff.mpr ‹_›
  rw [length_drop, blockCount]
  omega

def decrypt (decryptBlock : AesBlock → AesBlock) (s : AesIgeState) :
    List AesBlock → List AesBlock × AesIgeState
  | [] => ([], s)
  | encrypted :: data =>
    let plaintext := decryptBlock (s.plaintextIv ^^^ encrypted) ^^^ s.encryptedIv
    let (rest, s) := decrypt decryptBlock ⟨encrypted, plaintext⟩ data
    (plaintext :: rest, s)

/-- A call, and what follows on the state that it leaves. -/
def andThen (first : List AesBlock × AesIgeState)
    (next : AesIgeState → List AesBlock × AesIgeState) : List AesBlock × AesIgeState :=
  (first.1 ++ (next first.2).1, (next first.2).2)

/-- Calls one after the other on the same state. -/
def calls (call : AesIgeState → List AesBlock → List AesBlock × AesIgeState) (s : AesIgeState) :
    List (List AesBlock) → List AesBlock × AesIgeState
  | [] => ([], s)
  | data :: pieces => andThen (call s data) fun s => calls call s pieces

/-- IGE as it is defined: a block is xored with the encrypted block before it, encrypted, and xored
with the block before it. -/
def ige (encryptBlock : AesBlock → AesBlock) (s : AesIgeState) :
    List AesBlock → List AesBlock × AesIgeState
  | [] => ([], s)
  | block :: data =>
    let encrypted := encryptBlock (block ^^^ s.encryptedIv) ^^^ s.plaintextIv
    let (rest, s) := ige encryptBlock ⟨encrypted, block⟩ data
    (encrypted :: rest, s)

variable {E D : AesBlock → AesBlock}

/-! ## Pieces -/

theorem ige_append (s : AesIgeState) (a b : List AesBlock) :
    ige E s (a ++ b) = andThen (ige E s a) fun s => ige E s b := by
  induction a generalizing s with
  | nil => rfl
  | cons block a ih => rw [cons_append, ige, ih, ige, andThen, andThen, cons_append]

theorem decrypt_append (s : AesIgeState) (a b : List AesBlock) :
    s.decrypt D (a ++ b) = andThen (s.decrypt D a) fun s => s.decrypt D b := by
  induction a generalizing s with
  | nil => rfl
  | cons block a ih => rw [cons_append, decrypt, ih, decrypt, andThen, andThen, cons_append]

/-- What can be cut in two can be cut into any pieces. -/
theorem calls_eq {call : AesIgeState → List AesBlock → List AesBlock × AesIgeState}
    (hnil : ∀ s, call s [] = ([], s))
    (happend : ∀ s a b, call s (a ++ b) = andThen (call s a) fun s => call s b) (s : AesIgeState)
    (pieces : List (List AesBlock)) : s.calls call pieces = call s pieces.flatten := by
  induction pieces generalizing s with
  | nil => exact (hnil s).symm
  | cons data pieces ih =>
    simp only [calls, ih]
    exact (happend s data pieces.flatten).symm

/-! ## A batch -/

/-- From the second block on. CBC has `y` from the block before, whose own predecessors are `q`
and `p`; IGE has `y ^^^ q`. -/
theorem ige_of_cbc (y q p : AesBlock) (data : List AesBlock) :
    zipWith (· ^^^ ·) (cbcEncrypt E y (zipWith (· ^^^ ·) (q :: p :: data) data)) (p :: data) =
      (ige E ⟨y ^^^ q, p⟩ data).1 := by
  induction data generalizing y q p with
  | nil => rfl
  | cons d data ih =>
    have hinput : q ^^^ d ^^^ y = d ^^^ (y ^^^ q) := by
      rw [AesBlock.xor_comm q d, AesBlock.xor_assoc, AesBlock.xor_comm q y]
    rw [zipWith_cons_cons, cbcEncrypt, zipWith_cons_cons, ih, hinput, ige]

section

variable (s : AesIgeState) (data : List AesBlock)
include s data

theorem ige_state :
    (ige E s data).2 = ⟨(ige E s data).1.getLastD s.encryptedIv, data.getLastD s.plaintextIv⟩ := by
  induction data generalizing s with
  | nil => rfl
  | cons d data ih => rw [ige, ih, getLastD_cons, getLastD_cons]

theorem encryptBatch_eq : s.encryptBatch E data = ige E s data := by
  have hout : (s.encryptBatch E data).1 = (ige E s data).1 := by
    cases data with
    | nil => rfl
    | cons d data => exact congrArg (_ :: ·) (ige_of_cbc _ _ _ data)
  refine Prod.ext hout ?_
  rw [ige_state, ← hout]
  rfl

theorem encrypt_eq : s.encrypt E data = ige E s data := by
  fun_induction encrypt E s data with
  | case1 s => rfl
  | case2 s data h out s1 hbatch rest s2 hrest ih =>
    rw [encryptBatch_eq] at hbatch
    rw [hrest] at ih
    rw [← take_append_drop blockCount data, ige_append, hbatch, andThen, ← ih]

end

/-! ## There and back -/

theorem decrypt_ige (hinverse : ∀ b, D (E b) = b) (s : AesIgeState)
    (data : List AesBlock) : s.decrypt D (ige E s data).1 = (data, (ige E s data).2) := by
  induction data generalizing s with
  | nil => rfl
  | cons block data ih =>
    have hblock : D (s.plaintextIv ^^^ (E (block ^^^ s.encryptedIv) ^^^ s.plaintextIv)) ^^^
        s.encryptedIv = block := by
      rw [AesBlock.xor_comm s.plaintextIv, AesBlock.xor_xor_cancel, hinverse,
        AesBlock.xor_xor_cancel]
    rw [ige, decrypt, hblock, ih]

/-- **The batches give textbook IGE**, decryption inverts it, and successive calls on one state give
what one call gives. -/
theorem encrypt_is_ige (aes : Equiv.Perm AesBlock) (s : AesIgeState) (data : List AesBlock)
    (pieces : List (List AesBlock)) :
    s.encrypt aes data = ige aes s data ∧
      s.decrypt aes.symm (s.encrypt aes data).1 = (data, (s.encrypt aes data).2) ∧
      s.calls (encrypt aes) pieces = s.encrypt aes pieces.flatten ∧
      s.calls (decrypt aes.symm) pieces = s.decrypt aes.symm pieces.flatten := by
  refine ⟨s.encrypt_eq data, ?_, ?_, ?_⟩
  · rw [s.encrypt_eq]
    exact s.decrypt_ige aes.symm_apply_apply data
  · refine calls_eq (fun s => s.encrypt_eq []) (fun s a b => ?_) s pieces
    simp only [encrypt_eq]
    exact s.ige_append a b
  · exact calls_eq (fun _ => rfl) decrypt_append s pieces

end AesIgeState

end Tdlib.Crypto
