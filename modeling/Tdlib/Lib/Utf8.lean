import Mathlib

/-!
# UTF-8

A text is the list of its characters, and `encode` gives its bytes. The byte sequences that encode
one character are told by the ranges their bytes lie in, which is what a program that reads bytes
tests.
-/

namespace Tdlib.Lib

open List
open String (utf8EncodeChar)

def encode (text : List Char) : List UInt8 := text.flatMap utf8EncodeChar

theorem encode_cons (c : Char) (text : List Char) :
    encode (c :: text) = utf8EncodeChar c ++ encode text := flatMap_cons

/-- A byte that goes on with a character. -/
def IsTail (b : UInt8) : Prop := 0x80 ≤ b.toNat ∧ b.toNat < 0xc0

/-- A sequence that encodes one character: no longer than it need be, not a surrogate, and not past
the last character. -/
inductive Sequence : List UInt8 → Prop
  | one {a} : a.toNat < 0x80 → Sequence [a]
  | two {a b} : 0xc2 ≤ a.toNat → a.toNat < 0xe0 → IsTail b → Sequence [a, b]
  | three {a b c} : 0xe0 ≤ a.toNat → a.toNat < 0xf0 → IsTail b → IsTail c →
      (a.toNat = 0xe0 → 0xa0 ≤ b.toNat) → (a.toNat = 0xed → b.toNat < 0xa0) → Sequence [a, b, c]
  | four {a b c d} : 0xf0 ≤ a.toNat → a.toNat < 0xf5 → IsTail b → IsTail c → IsTail d →
      (a.toNat = 0xf0 → 0x90 ≤ b.toNat) → (a.toNat = 0xf4 → b.toNat < 0x90) → Sequence [a, b, c, d]

theorem sequence_utf8EncodeChar (c : Char) : Sequence (utf8EncodeChar c) := by
  have hvalid : c.val.toNat < 0xd800 ∨ 0xdfff < c.val.toNat ∧ c.val.toNat < 0x110000 := c.valid
  unfold utf8EncodeChar
  dsimp only
  split_ifs
  · refine .one ?_
    rw [UInt8.toNat_ofNat']
    omega
  · refine .two ?_ ?_ ⟨?_, ?_⟩ <;> simp only [UInt8.toNat_ofNat'] <;> omega
  · refine .three ?_ ?_ ⟨?_, ?_⟩ ⟨?_, ?_⟩ ?_ ?_ <;> simp only [UInt8.toNat_ofNat'] <;> omega
  · refine .four ?_ ?_ ⟨?_, ?_⟩ ⟨?_, ?_⟩ ⟨?_, ?_⟩ ?_ ?_ <;> simp only [UInt8.toNat_ofNat'] <;> omega

/-- Only the first byte of a character is not a tail. -/
theorem Sequence.lead {a : UInt8} {ts : List UInt8} (h : Sequence (a :: ts)) :
    ¬ IsTail a ∧ ∀ t ∈ ts, IsTail t := by
  rcases h with h | ⟨h, h', hb⟩ | ⟨h, h', hb, hc⟩ | ⟨h, h', hb, hc, hd⟩ <;>
    exact ⟨fun ⟨_, _⟩ => by omega, by simp [*]⟩

/-- **A sequence encodes a character**, whose code is put together from the bits of the bytes. -/
theorem Sequence.exists_char {e : List UInt8} (h : Sequence e) : ∃ c, e = utf8EncodeChar c := by
  have of_code (v : Nat) (hv : v < 0xd800 ∨ 0xdfff < v ∧ v < 0x110000)
      (he : ∀ x : Char, x.val.toNat = v → e = utf8EncodeChar x) : ∃ c, e = utf8EncodeChar c :=
    ⟨Char.ofNatAux v hv, he _ rfl⟩
  rcases h with @⟨a, _⟩ | @⟨a, b, _, _, _, _⟩ | @⟨a, b, c, _, _, ⟨_, _⟩, ⟨_, _⟩, _, _⟩ |
    @⟨a, b, c, d, _, _, ⟨_, _⟩, ⟨_, _⟩, ⟨_, _⟩, _, _⟩
  on_goal 1 => refine of_code a.toNat (by omega) ?_
  on_goal 2 => refine of_code (a.toNat % 32 * 64 + b.toNat % 64) (by omega) ?_
  on_goal 3 => refine of_code (a.toNat % 16 * 4096 + b.toNat % 64 * 64 + c.toNat % 64) (by omega) ?_
  on_goal 4 =>
    refine of_code
      (a.toNat % 8 * 262144 + b.toNat % 64 * 4096 + c.toNat % 64 * 64 + d.toNat % 64) (by omega) ?_
  all_goals
    intro x hx
    unfold utf8EncodeChar
    dsimp only
    split_ifs <;> simp only [cons.injEq, and_true, ← UInt8.toNat_inj, UInt8.toNat_ofNat'] <;> omega

end Tdlib.Lib
