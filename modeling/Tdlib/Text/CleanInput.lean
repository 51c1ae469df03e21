import Tdlib.Lib.Utf8

/-!
# Cleaning of texts

A text the user enters is cleaned in place, byte by byte: control characters become spaces,
characters that could break the layout are left out, and the text is cut where it gets too long for
the server. The bytes of a character stay together all the same: what is left out is left out whole,
and the text is cut before a character that begins at byte 34996 or later.

`cleaned` and `separate` say what happens to the characters. A text that has come out of both is
`Settled`, so a second cleaning changes nothing.
-/

namespace Tdlib.Text

open Tdlib.Lib List
open String (utf8EncodeChar)

/-! ## The model -/

/-- The loop of `check_utf8`, at what is left of the string and the zero byte behind it. -/
def checkUtf8.loop : List UInt8 → Bool
  | [] => false
  | a :: s =>
    if a.toNat &&& 0x80 = 0 then s.isEmpty || loop s
    else if a.toNat &&& 0x40 = 0 then false
    else match s with
      | [] => false
      | b :: s =>
        if b.toNat &&& 0xc0 ≠ 0x80 then false
        else if a.toNat &&& 0x20 = 0 then 0 < a.toNat &&& 0x1e && loop s
        else match s with
          | [] => false
          | c :: s =>
            if c.toNat &&& 0xc0 ≠ 0x80 then false
            else if a.toNat &&& 0x10 = 0 then
              let x := (a.toNat &&& 0x0f) <<< 6 ||| (b.toNat &&& 0x20)
              (x ≠ 0 && x ≠ 0x360) && loop s
            else match s with
              | [] => false
              | d :: s =>
                if d.toNat &&& 0xc0 ≠ 0x80 then false
                else if a.toNat &&& 0x08 = 0 then
                  let t := (a.toNat &&& 0x07) <<< 6 ||| (b.toNat &&& 0x30)
                  (0 < t && t < 0x110) && loop s
                else false

def checkUtf8 (str : List UInt8) : Bool := checkUtf8.loop (str ++ [0])

def isUtf8CharacterFirstCodeUnit (c : UInt8) : Bool := c.toNat &&& 0xc0 ≠ 0x80

/-- `U+200E` or `U+200F` at the start. -/
def startsWithMark (s : List UInt8) : Bool :=
  s[0]?.any (·.toNat = 0xe2) && s[1]?.any (·.toNat = 0x80) &&
    s[2]?.any fun c => c.toNat = 0x8e || c.toNat = 0x8f

/-- In a row of marks all but the last are replaced. The inner loop of the source moves to the next
mark of the row, as the outer one does. -/
def replaceOffendingCharacters : List UInt8 → List UInt8
  | a :: b :: c :: s =>
    if startsWithMark (a :: b :: c :: s) then
      a :: b :: (if startsWithMark s then 0x8c else c) :: replaceOffendingCharacters s
    else a :: replaceOffendingCharacters (b :: c :: s)
  | s => s

def lengthLimit : Nat := 35000

/-- The bytes that become spaces, and the space. -/
def isControl (c : UInt8) : Bool :=
  c.toNat ≤ 9 || c.toNat = 11 || c.toNat = 12 || 14 ≤ c.toNat && c.toNat ≤ 32

/-- The last byte of one of `U+2028` to `U+202E`. -/
def isSeparator (c : UInt8) : Bool := 0xa8 ≤ c.toNat && c.toNat ≤ 0xae

/-- The last byte of one of the vertical lines. -/
def isLine (c : UInt8) : Bool := c.toNat = 0xb3 || c.toNat = 0xbf || c.toNat = 0x8a

/-- What is written for the byte `c` with `s` behind it, and how many bytes of `s` are passed
over. -/
def cleanByte (c : UInt8) (s : List UInt8) : List UInt8 × Nat :=
  if isControl c then ([32], 0)
  else if c.toNat = 13 then ([], 0)
  else if c.toNat = 0xe2 && s[0]?.any (·.toNat = 0x80) && s[1]?.any isSeparator then ([], 2)
  else if c.toNat = 0xcc && s[0]?.any isLine then ([], 1)
  else ([c], 0)

/-- A character that may be too long for the limit has just begun. -/
def isFull (str : List UInt8) : Bool :=
  lengthLimit - 3 ≤ str.length && str.getLast?.any isUtf8CharacterFirstCodeUnit

/-- The loop of `clean_input_string`. The first `skip` bytes of what is left are passed over, and
`str` has been written. -/
def cleanLoop : Nat → List UInt8 → List UInt8 → List UInt8
  | _, str, [] => str
  | skip + 1, str, _ :: s => cleanLoop skip str s
  | 0, str, c :: s =>
    let str := str ++ (cleanByte c s).1
    if isFull str then str.dropLast else cleanLoop (cleanByte c s).2 str s

def cleanInputString (str : List UInt8) : Option (List UInt8) :=
  if checkUtf8 str then some (replaceOffendingCharacters (cleanLoop 0 [] str)) else none

/-! ## The check -/

variable {a b : UInt8} {e s str ts : List UInt8} {c : Char} {text : List Char} {n : Nat}

section Masks

set_option synthInstance.maxSize 1000

/-- The masks of `check_utf8` test which range a byte lies in. -/
theorem masks : ∀ a < 256, (a &&& 0x80 = 0 ↔ a < 0x80) ∧ (a &&& 0xc0 = 0x80 ↔ 0x80 ≤ a ∧ a < 0xc0) ∧
    (0x80 ≤ a → (a &&& 0x40 = 0 ↔ a < 0xc0)) ∧ (0xc0 ≤ a → (a &&& 0x20 = 0 ↔ a < 0xe0)) ∧
    (0xc0 ≤ a → a < 0xe0 → (0 < a &&& 0x1e ↔ 0xc2 ≤ a)) ∧
    (0xe0 ≤ a → (a &&& 0x10 = 0 ↔ a < 0xf0)) ∧ (0xf0 ≤ a → (a &&& 0x08 = 0 ↔ a < 0xf8)) := by
  decide +kernel

theorem masks_three : ∀ a < 0xf0, 0xe0 ≤ a → ∀ b < 0xc0, 0x80 ≤ b →
    ((a &&& 0x0f) <<< 6 ||| (b &&& 0x20) ≠ 0 ∧ (a &&& 0x0f) <<< 6 ||| (b &&& 0x20) ≠ 0x360 ↔
      (a = 0xe0 → 0xa0 ≤ b) ∧ (a = 0xed → b < 0xa0)) := by
  decide +kernel

theorem masks_four : ∀ a < 0xf8, 0xf0 ≤ a → ∀ b < 0xc0, 0x80 ≤ b →
    (0 < (a &&& 0x07) <<< 6 ||| (b &&& 0x30) ∧ (a &&& 0x07) <<< 6 ||| (b &&& 0x30) < 0x110 ↔
      a < 0xf5 ∧ (a = 0xf0 → 0x90 ≤ b) ∧ (a = 0xf4 → b < 0x90)) := by
  decide +kernel

end Masks

theorem mask_tail : ¬ b.toNat &&& 0xc0 ≠ 0x80 ↔ IsTail b :=
  not_not.trans (masks b.toNat b.toNat_lt).2.1

theorem loop_sequence (h : Sequence e) (hs : s ≠ []) :
    checkUtf8.loop (e ++ s) = checkUtf8.loop s := by
  rcases h with @⟨a, h⟩ | @⟨a, b, h, h', hb⟩ | @⟨a, b, c, h, h', hb, hc, hlow, hhigh⟩ |
    @⟨a, b, c, d, h, h', hb, hc, hd, hlow, hhigh⟩ <;>
    have ha := masks a.toNat a.toNat_lt <;> rw [checkUtf8.loop.eq_def] <;>
    dsimp only [cons_append, nil_append]
  · rw [if_pos (by omega), isEmpty_eq_false_iff.2 hs, Bool.false_or]
  · rw [if_neg (by omega), if_neg (by omega), if_neg (mask_tail.2 hb), if_pos (by omega),
      decide_eq_true (by omega), Bool.true_and]
  · have hx := (masks_three a.toNat h' h b.toNat hb.2 hb.1).2 ⟨hlow, hhigh⟩
    rw [if_neg (by omega), if_neg (by omega), if_neg (mask_tail.2 hb), if_neg (by omega),
      if_neg (mask_tail.2 hc), if_pos (by omega), decide_eq_true hx.1, decide_eq_true hx.2]
    rfl
  · have ht := (masks_four a.toNat (by omega) h b.toNat hb.2 hb.1).2 ⟨h', hlow, hhigh⟩
    rw [if_neg (by omega), if_neg (by omega), if_neg (mask_tail.2 hb), if_neg (by omega),
      if_neg (mask_tail.2 hc), if_neg (by omega), if_neg (mask_tail.2 hd), if_pos (by omega),
      decide_eq_true ht.1, decide_eq_true ht.2]
    rfl

/-- A sequence before what has been read back. -/
theorem read_sequence (h : Sequence e) : (∃ text, ∃ a : UInt8, s = encode text ++ [a]) →
    ∃ text, ∃ a : UInt8, e ++ s = encode text ++ [a] := by
  rintro ⟨text, a, rfl⟩
  obtain ⟨c, rfl⟩ := h.exists_char
  exact ⟨c :: text, a, by rw [encode_cons, append_assoc]⟩

theorem loop_encode (h : checkUtf8.loop s) : ∃ text, ∃ a : UInt8, s = encode text ++ [a] := by
  fun_induction checkUtf8.loop s with
  | case2 a s ha ih =>
    rcases Bool.or_eq_true_iff.1 h with hs | hs
    · exact ⟨[], a, by rw [isEmpty_iff.1 hs]; rfl⟩
    · exact read_sequence (.one ((masks a.toNat a.toNat_lt).1.1 ha)) (ih hs)
  | case6 a ha ha' b s hb h6 ih =>
    have hm := masks a.toNat a.toNat_lt
    rw [Bool.and_eq_true, decide_eq_true_eq] at h
    exact read_sequence (.two (by omega) (by omega) (mask_tail.1 hb)) (ih h.2)
  | case9 a ha ha' b hb h6 c s hc h9 x ih =>
    have hm := masks a.toNat a.toNat_lt
    simp only [Bool.and_eq_true, decide_eq_true_eq] at h
    have hb := mask_tail.1 hb
    have hlow : 0xe0 ≤ a.toNat := by omega
    have hhigh : a.toNat < 0xf0 := by omega
    have hx := (masks_three a.toNat hhigh hlow b.toNat hb.2 hb.1).1 h.1
    exact read_sequence (.three hlow hhigh hb (mask_tail.1 hc) hx.1 hx.2) (ih h.2)
  | case12 a ha ha' b hb h6 c hc h9 d s hd h12 t ih =>
    have hm := masks a.toNat a.toNat_lt
    simp only [Bool.and_eq_true, decide_eq_true_eq] at h
    have hb := mask_tail.1 hb
    have hlow : 0xf0 ≤ a.toNat := by omega
    have hhigh : a.toNat < 0xf8 := by omega
    obtain ⟨hlast, hx⟩ := (masks_four a.toNat hhigh hlow b.toNat hb.2 hb.1).1 h.1
    exact read_sequence (.four hlow hlast hb (mask_tail.1 hc) (mask_tail.1 hd) hx.1 hx.2) (ih h.2)
  | _ => cases h

/-- **`check_utf8` accepts what encodes a text.** -/
theorem checkUtf8_iff : checkUtf8 str ↔ ∃ text, str = encode text := by
  constructor
  · intro h
    obtain ⟨text, a, h⟩ := loop_encode h
    exact ⟨text, (append_inj' h rfl).1⟩
  rintro ⟨text, rfl⟩
  unfold checkUtf8
  induction text with
  | nil => rfl
  | cons c text ih =>
    rw [encode_cons, append_assoc, loop_sequence (sequence_utf8EncodeChar c) (by simp), ih]

/-! ## The loop, by characters -/

def isRemoved (c : Char) : Bool :=
  match utf8EncodeChar c with
  | [a] => a.toNat = 13
  | [a, b] => a.toNat = 0xcc && isLine b
  | [a, b, c] => a.toNat = 0xe2 && b.toNat = 0x80 && isSeparator c
  | _ => false

/-- What is written for a character that is not removed. -/
def written (c : Char) : Char := if (utf8EncodeChar c).all isControl then ' ' else c

/-- What is left of a text, with `n` bytes before it. -/
def cleaned : Nat → List Char → List Char
  | _, [] => []
  | n, c :: text =>
    if isRemoved c then cleaned n text
    else if lengthLimit - 4 ≤ n then []
    else written c :: cleaned (n + (utf8EncodeChar (written c)).length) text

theorem isControl_of_le (h : 0x80 ≤ a.toNat) : isControl a = false := by
  simp only [isControl, Bool.or_eq_false_iff, Bool.and_eq_false_iff, decide_eq_false_iff_not]
  omega

/-- A byte of a longer character is written as it is, unless the character is removed. -/
theorem cleanByte_of_le (h : 0x80 ≤ a.toNat) (s : List UInt8) : cleanByte a s =
    if a.toNat = 0xe2 && s[0]?.any (·.toNat = 0x80) && s[1]?.any isSeparator then ([], 2)
    else if a.toNat = 0xcc && s[0]?.any isLine then ([], 1)
    else ([a], 0) := by
  rw [cleanByte, isControl_of_le h, if_neg nofun, if_neg (by omega)]

theorem cleanByte_copy (h : 0x80 ≤ a.toNat) (he2 : a.toNat ≠ 0xe2) (hcc : a.toNat ≠ 0xcc) :
    cleanByte a s = ([a], 0) := by
  rw [cleanByte_of_le h, decide_eq_false he2, decide_eq_false hcc]
  rfl

theorem written_of_le (hc : utf8EncodeChar c = a :: ts) (h : 0x80 ≤ a.toNat) :
    utf8EncodeChar (written c) = a :: ts := by
  rw [written, hc, all_cons, isControl_of_le h, Bool.false_and, if_neg nofun, hc]

/-- How the loop meets a character: at its first byte it is removed or written, and the bytes that
are left of it stay. -/
theorem cleanByte_char (x : Char) : ∃ a b ts, utf8EncodeChar x = a :: ts ∧
    utf8EncodeChar (written x) = b :: ts ∧
    ∀ s, cleanByte a (ts ++ s) = if isRemoved x then ([], ts.length) else ([b], 0) := by
  have hsequence := sequence_utf8EncodeChar x
  generalize hx : utf8EncodeChar x = e at hsequence
  unfold isRemoved
  simp only [hx]
  rcases hsequence with @⟨a, h⟩ | @⟨a, b, h, h', -⟩ | @⟨a, b, c, h, h', -⟩ | @⟨a, b, c, d, h, h', -⟩
  · refine ⟨a, if isControl a then 32 else a, [], rfl, ?_, fun s => ?_⟩
    · rw [written, hx, all_cons, all_nil, Bool.and_true]
      split_ifs
      · rfl
      · exact hx
    · unfold cleanByte
      simp [show a.toNat ≠ 0xe2 by omega, show a.toNat ≠ 0xcc by omega]
      split_ifs <;> simp_all [isControl]
  all_goals
    have ha : 0x80 ≤ a.toNat := by omega
    refine ⟨a, a, _, rfl, written_of_le hx ha, fun s => ?_⟩
  · rw [cleanByte_of_le ha, decide_eq_false (show a.toNat ≠ 0xe2 by omega)]
    rfl
  · rw [cleanByte_of_le ha, decide_eq_false (show a.toNat ≠ 0xcc by omega)]
    rfl
  · exact cleanByte_copy ha (by omega) (by omega)

theorem isFull_append :
    isFull (str ++ [b]) ↔ lengthLimit - 4 ≤ str.length ∧ ¬ IsTail b := by
  rw [isFull, getLast?_concat, Bool.and_eq_true, decide_eq_true_eq, length_append, ← mask_tail]
  simp only [Option.any_some, isUtf8CharacterFirstCodeUnit, decide_eq_true_eq, lengthLimit,
    length_singleton]
  omega

theorem cleanLoop_skip (str ts s : List UInt8) :
    cleanLoop ts.length str (ts ++ s) = cleanLoop 0 str s := by
  induction ts with
  | nil => rfl
  | cons t ts ih => exact ih

theorem cleanLoop_tails (hts : ∀ t ∈ ts, IsTail t) (str s : List UInt8) :
    cleanLoop 0 str (ts ++ s) = cleanLoop 0 (str ++ ts) s := by
  induction ts generalizing str with
  | nil => rw [append_nil, nil_append]
  | cons t ts ih =>
    have ht := hts t mem_cons_self
    rw [cons_append, cleanLoop, cleanByte_copy ht.1 (by have := ht.2; omega)
      (by have := ht.2; omega)]
    rw [if_neg fun h => (isFull_append.1 h).2 ht, ih (forall_mem_cons.1 hts).2,
      append_assoc, singleton_append]

/-- **The loop, at a character.** -/
theorem cleanLoop_char (hstr : ¬ isFull str) (x : Char) (s : List UInt8) :
    cleanLoop 0 str (utf8EncodeChar x ++ s) =
      if isRemoved x then cleanLoop 0 str s
      else if lengthLimit - 4 ≤ str.length then str
      else cleanLoop 0 (str ++ utf8EncodeChar (written x)) s := by
  obtain ⟨a, b, ts, hx, hwritten, hbyte⟩ := cleanByte_char x
  obtain ⟨hb, hts⟩ := (hwritten ▸ sequence_utf8EncodeChar (written x)).lead
  rw [hx, hwritten, cons_append, cleanLoop, hbyte]
  by_cases hremoved : isRemoved x
  · rw [if_pos hremoved, if_pos hremoved]
    rw [append_nil, if_neg hstr, cleanLoop_skip]
  rw [if_neg hremoved, if_neg hremoved]
  by_cases hfull : lengthLimit - 4 ≤ str.length
  · rw [if_pos (isFull_append.2 ⟨hfull, hb⟩), if_pos hfull, dropLast_concat]
  · rw [if_neg fun h => hfull (isFull_append.1 h).1, if_neg hfull, cleanLoop_tails hts,
      append_assoc, singleton_append]

theorem isFull_char (h : ¬ lengthLimit - 4 ≤ str.length) : ¬ isFull (str ++ utf8EncodeChar c) := by
  have hsequence := sequence_utf8EncodeChar c
  generalize utf8EncodeChar c = e at *
  rcases e.eq_nil_or_concat with rfl | ⟨ts, t, rfl⟩
  · cases hsequence
  rw [concat_eq_append, ← append_assoc, isFull_append, length_append]
  rintro ⟨hlength, ht⟩
  cases ts with
  | nil => exact h hlength
  | cons a ts => exact ht (hsequence.lead.2 t (by simp))

theorem cleanLoop_encode (hstr : ¬ isFull str) (text : List Char) :
    cleanLoop 0 str (encode text) = str ++ encode (cleaned str.length text) := by
  induction text generalizing str with
  | nil => exact (append_nil str).symm
  | cons c text ih =>
    rw [encode_cons, cleanLoop_char hstr, cleaned]
    split_ifs with hremoved hfull
    · exact ih hstr
    · exact (append_nil str).symm
    rw [ih (isFull_char hfull), encode_cons, length_append, append_assoc]

/-! ## The marks, by characters -/

def isMark (c : Char) : Bool := startsWithMark (utf8EncodeChar c)

/-- A text after the second pass. -/
def separate : List Char → List Char
  | [] => []
  | c :: text => (if isMark c && text.head?.any isMark then '\u200c' else c) :: separate text

theorem startsWithMark_of_ne (h : a.toNat ≠ 0xe2) (s : List UInt8) :
    startsWithMark (a :: s) = false := by
  simp [startsWithMark, h]

theorem startsWithMark_char (x : Char) :
    (∀ s, startsWithMark (utf8EncodeChar x ++ s) = isMark x) ∧
    (isMark x → ∃ c, utf8EncodeChar x = [0xe2, 0x80, c]) := by
  have hsequence := sequence_utf8EncodeChar x
  unfold isMark
  generalize utf8EncodeChar x = e at *
  have hne {a ts} (h : a.toNat ≠ 0xe2) :
      (∀ s, startsWithMark (a :: ts ++ s) = startsWithMark (a :: ts)) ∧
      (startsWithMark (a :: ts) → ∃ c, a :: ts = [0xe2, 0x80, c]) := by
    simp [startsWithMark_of_ne h]
  rcases hsequence with h | ⟨h, h', -⟩ | @⟨a, b, c, -⟩ | ⟨h, -⟩
  · exact hne (by omega)
  · exact hne (by omega)
  · refine ⟨fun s => rfl, fun h => ⟨c, ?_⟩⟩
    simpa [← UInt8.toNat_inj] using (Bool.and_eq_true_iff.1 h).1
  · exact hne (by omega)

theorem replace_cons (h : ¬ startsWithMark (a :: s)) :
    replaceOffendingCharacters (a :: s) = a :: replaceOffendingCharacters s := by
  match s with
  | [] | [_] => rfl
  | b :: c :: s => rw [replaceOffendingCharacters, if_neg h]

theorem replace_tails (hts : ∀ t ∈ ts, IsTail t) (s : List UInt8) :
    replaceOffendingCharacters (ts ++ s) = ts ++ replaceOffendingCharacters s := by
  induction ts with
  | nil => rfl
  | cons t ts ih =>
    obtain ⟨ht, ht'⟩ := hts t mem_cons_self
    rw [cons_append, replace_cons (Bool.eq_false_iff.1 (startsWithMark_of_ne (by omega) _)),
      ih (forall_mem_cons.1 hts).2, cons_append]

theorem replace_encode (text : List Char) :
    replaceOffendingCharacters (encode text) = encode (separate text) := by
  induction text with
  | nil => rfl
  | cons c text ih =>
    have hnext : text.head?.any isMark = startsWithMark (encode text) := by
      cases text with
      | nil => rfl
      | cons d text => exact ((startsWithMark_char d).1 (encode text)).symm
    have hstart := (startsWithMark_char c).1 (encode text)
    rw [separate, encode_cons, encode_cons, ← ih, hnext]
    by_cases hc : isMark c
    · obtain ⟨x, hx⟩ := (startsWithMark_char c).2 hc
      rw [hx, hc] at hstart
      rw [hx, hc, Bool.true_and]
      refine (if_pos hstart).trans ?_
      dsimp only [append_eq, nil_append]
      split_ifs
      · rfl
      · rw [hx]
        rfl
    · obtain ⟨a, -, ts, hx, -⟩ := cleanByte_char c
      rw [hx, cons_append] at hstart
      rw [Bool.eq_false_iff.2 hc, Bool.false_and, if_neg nofun, hx, cons_append,
        replace_cons fun h => hc (hstart.symm.trans h),
          replace_tails (hx ▸ sequence_utf8EncodeChar c).lead.2,
        cons_append]

/-! ## A text that is clean -/

/-- A text with `n` bytes before it that cleaning leaves as it is. -/
inductive Settled : Nat → List Char → Prop
  | nil {n : Nat} : Settled n []
  | cons {n : Nat} {c : Char} {text : List Char} : ¬ isRemoved c → written c = c →
      n < lengthLimit - 4 → ¬ (isMark c && text.head?.any isMark) →
      Settled (n + (utf8EncodeChar c).length) text → Settled n (c :: text)

theorem written_fixed (h : ¬ isRemoved c) :
    ¬ isRemoved (written c) ∧ written (written c) = written c := by
  by_cases hc : (utf8EncodeChar c).all isControl
  · rw [written, if_pos hc]
    decide
  · rw [written, if_neg hc, written, if_neg hc]
    exact ⟨h, rfl⟩

theorem head_separate (h : (separate text).head?.any isMark) :
    text.head?.any isMark := by
  cases text with
  | nil => exact h
  | cons c text =>
    rw [separate] at h
    split_ifs at h with hmark
    · exact (Bool.and_eq_true_iff.1 hmark).1
    · exact h

/-- **A text that has been cleaned is settled.** -/
theorem settled (n : Nat) (text : List Char) : Settled n (separate (cleaned n text)) := by
  induction text generalizing n with
  | nil => exact .nil
  | cons c text ih =>
    rw [cleaned]
    split_ifs with hremoved hfull
    · exact ih n
    · exact .nil
    obtain ⟨hkept, hwritten⟩ := written_fixed hremoved
    have ih := ih (n + (utf8EncodeChar (written c)).length)
    rw [separate]
    split_ifs with hmark
    · obtain ⟨x, hx⟩ := (startsWithMark_char _).2 (Bool.and_eq_true_iff.1 hmark).1
      rw [hx] at ih ⊢
      exact .cons (by decide) (by decide) (by omega) nofun ih
    · refine .cons hkept hwritten (by omega) (fun h => hmark ?_) ih
      rw [Bool.and_eq_true] at h ⊢
      exact ⟨h.1, head_separate h.2⟩

theorem Settled.fixed (h : Settled n text) :
    cleaned n text = text ∧ separate text = text := by
  induction h with
  | nil => exact ⟨rfl, rfl⟩
  | cons hremoved hwritten hn hmark _ ih =>
    rw [cleaned, if_neg hremoved, if_neg (by omega), hwritten, ih.1, separate, if_neg hmark, ih.2]
    exact ⟨rfl, rfl⟩

theorem Settled.length_lt (h : Settled n text) (hn : n < lengthLimit) :
    n + (encode text).length < lengthLimit := by
  induction h with
  | nil => exact hn
  | @cons n c text _ _ hfull _ _ ih =>
    have hlength : (utf8EncodeChar c).length ≤ 4 := by
      rw [String.length_utf8EncodeChar]
      exact c.utf8Size_le_four
    rw [encode_cons, length_append, ← add_assoc]
    exact ih (by omega)

theorem Settled.apart (h : Settled n text) :
    (∀ c ∈ text, ¬ isRemoved c ∧ written c = c) ∧ text.IsChain fun c d =>
    ¬ (isMark c ∧ isMark d) := by
  induction h with
  | nil => exact ⟨nofun, .nil⟩
  | cons hremoved hwritten _ hmark _ ih =>
    refine ⟨forall_mem_cons.2 ⟨⟨hremoved, hwritten⟩, ih.1⟩, isChain_cons.2 ⟨?_, ih.2⟩⟩
    rintro d hd ⟨hc, hd'⟩
    exact hmark (by rw [hc, Option.mem_def.1 hd, Option.any_some, hd', Bool.and_self])

theorem forbidden_codes : ∀ v ∈ range 32 ++ (range' 0x2028 7 ++ [0x333, 0x33f, 0x30a]),
    v = 10 ∨ isRemoved (Char.ofNat v) ∨ written (Char.ofNat v) ≠ Char.ofNat v := by
  decide

theorem cleanInputString_encode (text : List Char) :
    cleanInputString (encode text) = some (encode (separate (cleaned 0 text))) := by
  rw [cleanInputString, if_pos (checkUtf8_iff.2 ⟨text, rfl⟩), cleanLoop_encode (by decide),
    nil_append, replace_encode]
  rfl

/-- **Cleaning.** Only a text is accepted. What comes out is a text that is short enough, has none
of the characters it must not have, and is not changed if it is cleaned again. -/
theorem clean_input_string_cleans (str : List UInt8) :
    (cleanInputString str = none ↔ ¬ ∃ text, str = encode text) ∧
    ∀ s, cleanInputString str = some s → s.length < 35000 ∧ cleanInputString s = some s ∧
      ∃ text, s = encode text ∧
        (∀ c ∈ text, (c.toNat < 32 → c = '\n') ∧ ¬ (0x2028 ≤ c.toNat ∧ c.toNat ≤ 0x202e) ∧
          c.toNat ∉ [0x333, 0x33f, 0x30a]) ∧
        text.IsChain fun c d => ¬ (c ∈ ['\u200e', '\u200f'] ∧ d ∈ ['\u200e', '\u200f']) := by
  by_cases hvalid : ∃ text, str = encode text
  · obtain ⟨text, rfl⟩ := hvalid
    rw [cleanInputString_encode]
    refine ⟨⟨nofun, fun h => absurd ⟨text, rfl⟩ h⟩, ?_⟩
    rintro _ ⟨⟩
    have h := settled 0 text
    refine ⟨(zero_add _).symm.trans_lt (h.length_lt (by decide)), ?_, _, rfl,
      fun c hc => ?_, ?_⟩
    · rw [cleanInputString_encode, h.fixed.1, h.fixed.2]
    · have hcode := forbidden_codes c.toNat
      rw [Char.ofNat_toNat] at hcode
      obtain ⟨hkept, hwritten⟩ := h.apart.1 c hc
      simp only [mem_append, mem_range, mem_range'_1, hwritten, hkept] at hcode
      have hcode h := (hcode h).resolve_right (by simp)
      refine ⟨fun h => Char.toNat_inj.1 (hcode (.inl h)), fun h => ?_, fun h => ?_⟩
      · omega
      · rw [hcode (.inr (.inr h))] at h
        exact absurd h (by decide)
    · refine h.apart.2.imp fun c d hapart hmarks => hapart ?_
      simp only [mem_cons, not_mem_nil, or_false] at hmarks
      obtain ⟨rfl | rfl, rfl | rfl⟩ := hmarks <;> decide
  · rw [cleanInputString, if_neg (mt checkUtf8_iff.1 hvalid)]
    exact ⟨⟨fun _ => hvalid, fun _ => rfl⟩, nofun⟩

theorem clean_input_string_cleans_three : cleanInputString [97, 13, 9] = some [97, 32] ∧
    cleanInputString [97, 32] = some [97, 32] := by
  have h : cleanInputString [97, 13, 9] = some [97, 32] := by decide
  exact ⟨h, ((clean_input_string_cleans [97, 13, 9]).2 _ h).2.1⟩

end Tdlib.Text
