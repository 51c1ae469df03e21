import Tdlib.Aggregator.Parser

/-!
# What the parser accepts

Because the last token stays current, running the parser on `ts` is running an
ordinary parser on the infinite stream `ts`, `last`, `last`, `last`, ... The
relation `Reads` is that stream: it consumes tokens from a cursor, and at the end
it hands out the last token as often as it is asked.

Seen that way the parser is sound and complete: it succeeds exactly when some
word it can read is derivable and is not followed by an operator. What goes wrong
is that the word it read need not be the input. It may be shorter, when tokens
are left over; or longer, when the input ends in `)` and lacks closing brackets,
because the last `)` then closes every bracket that is still open.
-/

namespace Tdlib.Aggregator

open List

/-! ## Words the grammar derives -/

namespace Token

/-- A token an operand can start with. -/
def startsOperand : Token → Bool
  | .word _ => true
  | .openBracket => true
  | _ => false

/-- A token an operand can end with. -/
def endsOperand : Token → Bool
  | .word _ => true
  | .closeBracket => true
  | _ => false

/-- `b` may stand directly after `a`. -/
def Follows (a b : Token) : Prop :=
  if a.endsOperand then b.isOperation ∨ b = .closeBracket else b.startsOperand

end Token

/-- What every derivable word looks like from outside. -/
structure Operand (w : List Token) : Prop where
  /-- It starts with a word or an opening bracket. -/
  starts : ∃ a rest, w = a :: rest ∧ a.startsOperand
  /-- It ends with a word or a closing bracket. -/
  ends : ∃ front b, w = front ++ [b] ∧ b.endsOperand
  /-- Neighbours fit together. -/
  chain : w.IsChain Token.Follows
  /-- Brackets are balanced. -/
  balanced : w.count .openBracket = w.count .closeBracket

theorem Operand.word (s : String) : Operand [.word s] where
  starts := ⟨_, [], rfl, rfl⟩
  ends := ⟨[], _, rfl, rfl⟩
  chain := by simp
  balanced := by simp

/-- Two operands joined by an operator are an operand again. -/
theorem Operand.join {w u : List Token} {op : Token} (hw : Operand w) (hu : Operand u)
    (hop : op.isOperation) : Operand (w ++ op :: u) where
  starts := by
    obtain ⟨a, rest, rfl, ha⟩ := hw.starts
    exact ⟨a, rest ++ op :: u, rfl, ha⟩
  ends := by
    obtain ⟨front, b, rfl, hb⟩ := hu.ends
    exact ⟨w ++ op :: front, b, by simp, hb⟩
  chain := by
    obtain ⟨front, b, hfront, hb⟩ := hw.ends
    obtain ⟨a, rest, hrest, ha⟩ := hu.starts
    have hnot : op.endsOperand = false := by
      cases op <;> simp_all [Token.isOperation, Token.isOr, Token.isAnd, Token.endsOperand]
    refine isChain_append.mpr ⟨hw.chain, ?_, ?_⟩
    · rw [isChain_cons]
      refine ⟨?_, hu.chain⟩
      intro y hy
      rw [hrest] at hy
      obtain rfl : a = y := by simpa using hy
      simp [Token.Follows, hnot, ha]
    · intro x hx y hy
      rw [hfront] at hx
      obtain rfl : b = x := by simpa using hx
      obtain rfl : op = y := by simpa using hy
      simp [Token.Follows, hb, hop]
  balanced := by
    have h1 : op ≠ .openBracket := by rintro rfl; cases hop
    have h2 : op ≠ .closeBracket := by rintro rfl; cases hop
    simp [h1, h2, hw.balanced, hu.balanced]

/-- An operand in brackets is an operand. -/
theorem Operand.bracket {w : List Token} (hw : Operand w) :
    Operand (.openBracket :: (w ++ [.closeBracket])) where
  starts := ⟨_, _, rfl, rfl⟩
  ends := ⟨.openBracket :: w, _, rfl, rfl⟩
  chain := by
    obtain ⟨front, b, hfront, hb⟩ := hw.ends
    obtain ⟨a, rest, hrest, ha⟩ := hw.starts
    rw [isChain_cons]
    refine ⟨?_, isChain_append.mpr ⟨hw.chain, by simp, ?_⟩⟩
    · intro y hy
      rw [hrest] at hy
      obtain rfl : a = y := by simpa using hy
      simp [Token.Follows, Token.endsOperand, ha]
    · intro x hx y hy
      rw [hfront] at hx
      obtain rfl : b = x := by simpa using hx
      obtain rfl : Token.closeBracket = y := by simpa using hy
      simp [Token.Follows, hb]
  balanced := by
    simp [hw.balanced]

mutual

theorem DerS.operand {w : List Token} {t : Node Token} : DerS w t → Operand w
  | .one h => h.operand
  | .or h1 h2 => h1.operand.join h2.operand rfl

theorem DerX.operand {w : List Token} {t : Node Token} : DerX w t → Operand w
  | .one h => h.operand
  | .and h1 h2 => h1.operand.join h2.operand rfl

theorem DerV.operand {w : List Token} {t : Node Token} : DerV w t → Operand w
  | .word s => Operand.word s
  | .bracket h => h.operand.bracket

end

/-- Only a closing bracket can be repeated at the end of a derivable word. -/
theorem Operand.last_twice {w : List Token} {a : Token} (h : Operand (w ++ [a, a])) :
    a = .closeBracket := by
  obtain ⟨front, b, hfront, hb⟩ := h.ends
  have hba : b = a := by
    have := congrArg getLast? hfront
    simpa using this.symm
  subst hba
  have hchain := (isChain_append.mp h.chain).2.1
  have hfol : Token.Follows b b := by simpa using hchain
  unfold Token.Follows at hfol
  rw [if_pos hb] at hfol
  rcases hfol with hop | hc
  · cases b <;> simp_all [Token.isOperation, Token.isOr, Token.isAnd, Token.endsOperand]
  · exact hc

/-- A derivable word stays underivable under extra closing brackets. -/
theorem Operand.not_more_closed {w : List Token} (h : Operand w) (j : Nat) :
    ¬ Operand (w ++ replicate (j + 1) .closeBracket) := by
  intro h'
  have hb := h'.balanced
  rw [count_append, h.balanced] at hb
  simp [count_replicate] at hb

/-! ## Reading from the cursor -/

namespace Parser

/-- `Reads p w q`: from `p` the tokens `w` come up one after the other, and `q` is current next. -/
inductive Reads : Parser → List Token → Parser → Prop where
  | nil (p : Parser) : Reads p [] p
  | cons {p q : Parser} {w : List Token} : Reads p.advance w q → Reads p (p.currentToken :: w) q

theorem Reads.append {p q r : Parser} {w u : List Token} (h1 : Reads p w q) (h2 : Reads q u r) :
    Reads p (w ++ u) r := by
  induction h1 with
  | nil => exact h2
  | cons _ ih => exact .cons (ih h2)

theorem Reads.split {p r : Parser} {u : List Token} :
    ∀ {w : List Token}, Reads p (w ++ u) r → ∃ q, Reads p w q ∧ Reads q u r := by
  intro w
  induction w generalizing p with
  | nil => exact fun h => ⟨p, .nil p, h⟩
  | cons a w ih =>
    intro h
    cases h with
    | cons h =>
      obtain ⟨q, h1, h2⟩ := ih h
      exact ⟨q, .cons h1, h2⟩

/-- One token at a time: what is read first is what is current. -/
theorem Reads.head {p r : Parser} {a : Token} {u : List Token} (h : Reads p (a :: u) r) :
    p.currentToken = a ∧ Reads p.advance u r := by
  cases h with
  | cons h => exact ⟨rfl, h⟩

/-- At the end of the input the last token can be read for ever. -/
theorem reads_replicate (a : Token) (j : Nat) : Reads ⟨a, []⟩ (replicate j a) ⟨a, []⟩ := by
  induction j with
  | zero => exact .nil _
  | succ j ih => exact .cons (p := ⟨a, []⟩) ih

/-- Reading a proper prefix leaves the cursor on the token behind it. -/
theorem reads_proper {w : List Token} :
    ∀ {t : Token} {ts : List Token} {u : Token} {rest : List Token},
    t :: ts = w ++ u :: rest → Reads ⟨t, ts⟩ w ⟨u, rest⟩ := by
  induction w with
  | nil =>
    intro t ts u rest h
    obtain ⟨rfl, rfl⟩ : t = u ∧ ts = rest := by simpa using h
    exact .nil _
  | cons a w ih =>
    intro t ts u rest h
    obtain ⟨rfl, hts⟩ : t = a ∧ ts = w ++ u :: rest := by simpa using h
    cases ts with
    | nil => simp at hts
    | cons t' ts' => exact .cons (p := ⟨t, t' :: ts'⟩) (ih hts)

/-- The whole input can be read, and then again its last token. -/
theorem reads_all {t : Token} {ts front : List Token} {b : Token} (h : t :: ts = front ++ [b])
    (j : Nat) : Reads ⟨t, ts⟩ (t :: ts ++ replicate j b) ⟨b, []⟩ := by
  have hlast : Reads ⟨b, []⟩ ([b] ++ replicate j b) ⟨b, []⟩ := reads_replicate b (j + 1)
  have := (reads_proper h).append hlast
  rwa [h, append_assoc]

/-- And nothing else can be read. -/
theorem Reads.cases_input {w : List Token} : ∀ {t : Token} {ts : List Token} {q : Parser},
    Reads ⟨t, ts⟩ w q →
      (∃ u rest, t :: ts = w ++ u :: rest ∧ q = ⟨u, rest⟩) ∨
      (∃ front b j, t :: ts = front ++ [b] ∧ w = t :: ts ++ replicate j b ∧ q = ⟨b, []⟩) := by
  induction w with
  | nil =>
    intro t ts q h
    cases h with
    | nil => exact .inl ⟨t, ts, rfl, rfl⟩
  | cons a w ih =>
    intro t ts q h
    obtain ⟨ha, hr⟩ := h.head
    subst ha
    cases ts with
    | cons t' ts' =>
      rcases ih hr with ⟨u, rest, hts, hq⟩ | ⟨front, b, j, hts, hw, hq⟩
      · exact .inl ⟨u, rest, by rw [hts]; rfl, hq⟩
      · exact .inr ⟨t :: front, b, j, by rw [hts]; rfl, by rw [hw]; rfl, hq⟩
    | nil =>
      -- the cursor does not move: the rest of the word is read from the same place
      rcases ih hr with ⟨u, rest, hts, hq⟩ | ⟨front, b, j, hts, hw, hq⟩
      · cases w with
        | nil =>
          obtain ⟨rfl, rfl⟩ : t = u ∧ rest = [] := by simpa using hts
          exact .inr ⟨[], t, 0, rfl, rfl, hq⟩
        | cons b w => simp at hts
      cases front with
      | cons x xs => simp at hts
      | nil =>
        obtain rfl : t = b := by simpa using hts
        refine .inr ⟨[], t, j + 1, rfl, ?_, hq⟩
        rw [hw]; rfl

/-! ## Soundness -/

/-- What each production establishes when it succeeds. -/
structure Sound (frames : Nat) : Prop where
  /-- `S` stops only where no operator follows. -/
  s : ∀ {p q : Parser} {t : Node Token}, S frames p = .ok (t, q) →
    ∃ w, Reads p w q ∧ DerS w t ∧ q.currentToken.isOperation = false
  /-- `X` stops only where no `&` follows. -/
  x : ∀ {p q : Parser} {t : Node Token}, X frames p = .ok (t, q) →
    ∃ w, Reads p w q ∧ DerX w t ∧ q.currentToken.isAnd = false
  /-- `V` reads one operand. -/
  v : ∀ {p q : Parser} {t : Node Token}, V frames p = .ok (t, q) → ∃ w, Reads p w q ∧ DerV w t

theorem V_sound {frames : Nat} (ih : Sound frames) {p q : Parser} {t : Node Token}
    (h : V (frames + 1) p = .ok (t, q)) : ∃ w, Reads p w q ∧ DerV w t := by
  rw [V] at h
  split at h
  · rename_i w hw
    cases h
    exact ⟨[.word w], hw ▸ .cons (.nil _), .word w⟩
  · rename_i hopen
    split at h
    · cases h
    rename_i s p1 hs
    split at h
    · rename_i hclose
      cases h
      obtain ⟨w, hr, hd, _⟩ := ih.s hs
      refine ⟨.openBracket :: (w ++ [.closeBracket]), ?_, .bracket hd⟩
      exact hopen ▸ .cons (hr.append (hclose ▸ .cons (.nil _)))
    · cases h
  · cases h

theorem X_sound {frames : Nat} (ih : Sound frames) {p q : Parser} {t : Node Token}
    (h : X (frames + 1) p = .ok (t, q)) :
    ∃ w, Reads p w q ∧ DerX w t ∧ q.currentToken.isAnd = false := by
  rw [X] at h
  split at h
  · cases h
  rename_i v p1 hv
  obtain ⟨w, hr, hd⟩ := ih.v hv
  split at h
  · split at h
    · cases h
    rename_i x p2 hx
    cases h
    obtain ⟨u, hr2, hd2, hq⟩ := ih.x hx
    obtain ⟨r, hr0⟩ : ∃ r, p1.currentToken = .and r := by
      cases hc : p1.currentToken <;> simp_all [Token.isAnd]
    refine ⟨w ++ .and r :: u, hr.append (hr0 ▸ .cons hr2), ?_, hq⟩
    rw [hr0]; exact .and hd hd2
  · rename_i hand
    cases h
    exact ⟨w, hr, .one hd, by simpa using hand⟩

theorem S_sound {frames : Nat} (ih : Sound frames) {p q : Parser} {t : Node Token}
    (h : S (frames + 1) p = .ok (t, q)) :
    ∃ w, Reads p w q ∧ DerS w t ∧ q.currentToken.isOperation = false := by
  rw [S] at h
  split at h
  · cases h
  rename_i x p1 hx
  obtain ⟨w, hr, hd, hnoAnd⟩ := ih.x hx
  split at h
  · split at h
    · cases h
    rename_i s p2 hs
    cases h
    obtain ⟨u, hr2, hd2, hq⟩ := ih.s hs
    obtain ⟨r, hr0⟩ : ∃ r, p1.currentToken = .or r := by
      cases hc : p1.currentToken <;> simp_all [Token.isOr]
    refine ⟨w ++ .or r :: u, hr.append (hr0 ▸ .cons hr2), ?_, hq⟩
    rw [hr0]; exact .or hd hd2
  · rename_i hor
    cases h
    exact ⟨w, hr, .one hd, by simp [Token.isOperation, hnoAnd, hor]⟩

theorem sound : ∀ frames, Sound frames
  | 0 => ⟨by simp [S], by simp [X], by simp [V]⟩
  | frames + 1 => ⟨S_sound (sound frames), X_sound (sound frames), V_sound (sound frames)⟩

/-! ## Completeness -/

mutual

/-- A derivable word that can be read, and is not followed by an operator, is parsed. -/
theorem S_complete {w : List Token} {t : Node Token} :
    DerS w t → ∀ {p q : Parser} {frames : Nat}, Reads p w q → q.currentToken.isOperation = false →
      3 * w.length ≤ frames → S frames p = .ok (t, q)
  | .one hd, p, q, frames, hr, hq, hf => by
      obtain ⟨a, rest, hw, _⟩ := hd.operand.starts
      have hlen : 1 ≤ w.length := by rw [hw]; simp
      cases frames with
      | zero => omega
      | succ frames =>
        simp only [Token.isOperation, Bool.or_eq_false_iff] at hq
        rw [S, X_complete hd hr hq.2 (by omega)]
        simp [hq.1]
  | .or (w := w1) (u := u) (r := r) h1 h2, p, q, frames, hr, hq, hf => by
      obtain ⟨p1, hr1, hr2⟩ := hr.split
      obtain ⟨hcur, hr3⟩ := hr2.head
      simp only [length_append, length_cons] at hf
      cases frames with
      | zero => omega
      | succ frames =>
        rw [S, X_complete h1 hr1 (by rw [hcur]; rfl) (by omega)]
        dsimp only
        rw [if_pos (by rw [hcur]; rfl), S_complete h2 hr3 hq (by omega), hcur]

theorem X_complete {w : List Token} {t : Node Token} :
    DerX w t → ∀ {p q : Parser} {frames : Nat}, Reads p w q → q.currentToken.isAnd = false →
      3 * w.length ≤ frames + 1 → X frames p = .ok (t, q)
  | .one hd, p, q, frames, hr, hq, hf => by
      obtain ⟨a, rest, hw, _⟩ := hd.operand.starts
      have hlen : 1 ≤ w.length := by rw [hw]; simp
      cases frames with
      | zero => omega
      | succ frames =>
        rw [X, V_complete hd hr (by omega)]
        simp [hq]
  | .and (w := w1) (u := u) (r := r) h1 h2, p, q, frames, hr, hq, hf => by
      obtain ⟨p1, hr1, hr2⟩ := hr.split
      obtain ⟨hcur, hr3⟩ := hr2.head
      simp only [length_append, length_cons] at hf
      cases frames with
      | zero => omega
      | succ frames =>
        rw [X, V_complete h1 hr1 (by omega)]
        dsimp only
        rw [if_pos (by rw [hcur]; rfl), X_complete h2 hr3 hq (by omega), hcur]

theorem V_complete {w : List Token} {t : Node Token} :
    DerV w t → ∀ {p q : Parser} {frames : Nat}, Reads p w q →
      3 * w.length ≤ frames + 2 → V frames p = .ok (t, q)
  | .word s, p, q, frames, hr, hf => by
      obtain ⟨hcur, hr⟩ := hr.head
      cases hr with
      | nil =>
        cases frames with
        | zero => simp at hf
        | succ frames => rw [V, hcur]
  | .bracket (w := w1) hd, p, q, frames, hr, hf => by
      obtain ⟨hcur, hr⟩ := hr.head
      obtain ⟨p1, hr1, hr2⟩ := hr.split
      obtain ⟨hcur1, hr3⟩ := hr2.head
      simp only [length_append, length_cons, length_nil] at hf
      cases hr3 with
      | nil =>
        cases frames with
        | zero => omega
        | succ frames =>
          rw [V, hcur]
          rw [S_complete hd hr1 (by rw [hcur1]; rfl) (by omega)]
          dsimp only
          rw [if_pos hcur1]

end

theorem parse_eq_ok {frames : Nat} {t : Token} {ts : List Token} {tree : Node Token} :
    parse frames (t :: ts) = .ok tree ↔ ∃ q, S frames ⟨t, ts⟩ = .ok (tree, q) := by
  rw [parse]
  cases h : S frames ⟨t, ts⟩ with
  | error e => simp
  | ok r => obtain ⟨tree', q⟩ := r; simp

end Parser

/-! ## Which inputs are judged correctly -/

/--
The parser decides the grammar on `ts`: with frames enough for a parse of that
length, it returns a tree exactly when the whole of `ts` derives that tree, and
throws otherwise.
-/
def DecidesGrammar (ts : List Token) : Prop :=
  ∀ frames, 3 * ts.length ≤ frames → ∀ tree, Parser.parse frames ts = .ok tree ↔ DerS ts tree

/-- A proper prefix is derivable already, and no operator follows it. -/
def LeftOver (ts : List Token) : Prop :=
  ∃ w u rest tree, ts = w ++ u :: rest ∧ DerS w tree ∧ u.isOperation = false

/-- The input ends in `)`, and closing brackets are missing behind it. -/
def Unclosed (ts : List Token) : Prop :=
  ∃ front j tree, ts = front ++ [.closeBracket] ∧
    DerS (ts ++ replicate (j + 1) .closeBracket) tree

theorem DerS.no_operation_last {w front : List Token} {b : Token} {tree : Node Token}
    (h : DerS w tree) (hw : w = front ++ [b]) : b.isOperation = false := by
  obtain ⟨front', b', hw', hb⟩ := h.operand.ends
  obtain rfl : b' = b := by
    have := congrArg getLast? (hw'.symm.trans hw)
    simpa using this
  cases b' <;> simp_all [Token.isOperation, Token.isOr, Token.isAnd, Token.endsOperand]

theorem not_derS_nil {tree : Node Token} : ¬ DerS [] tree := by
  intro h
  obtain ⟨a, rest, hw, _⟩ := h.operand.starts
  cases hw

/-- A derivable input is parsed to its tree, and the cursor ends on its last token. -/
theorem DerS.parsed {t : Token} {ts : List Token} {tree : Node Token} {frames : Nat}
    (h : DerS (t :: ts) tree) (hf : 3 * (t :: ts).length ≤ frames) :
    ∃ b, Parser.S frames ⟨t, ts⟩ = .ok (tree, ⟨b, []⟩) := by
  obtain ⟨front, b, hts, _⟩ := h.operand.ends
  have hr : Parser.Reads ⟨t, ts⟩ (t :: ts) ⟨b, []⟩ := by simpa using Parser.reads_all hts 0
  exact ⟨b, Parser.S_complete h hr (h.no_operation_last hts) hf⟩

/-- What is accepted is derivable, unless the input is of one of the two kinds. -/
theorem accepted_derivable {ts : List Token} {frames : Nat} {tree : Node Token}
    (hleft : ¬ LeftOver ts) (hclosed : ¬ Unclosed ts)
    (h : Parser.parse frames ts = .ok tree) : DerS ts tree := by
  cases ts with
  | nil => cases h
  | cons t ts =>
    obtain ⟨q, hS⟩ := Parser.parse_eq_ok.mp h
    obtain ⟨w, hr, hd, hq⟩ := (Parser.sound frames).s hS
    rcases hr.cases_input with ⟨u, rest, hts, rfl⟩ | ⟨front, b, j, hts, hw, rfl⟩
    · exact absurd ⟨w, u, rest, tree, hts, hd, hq⟩ hleft
    cases j with
    | zero => simpa [hw] using hd
    | succ j =>
      -- the last token was read twice, so it closes brackets
      have hb : b = .closeBracket := by
        refine Operand.last_twice (w := front ++ replicate j b) ?_
        have hop := hd.operand
        rw [hw, hts, replicate_succ'] at hop
        have hcomm : [b] ++ (replicate j b ++ [b]) = replicate j b ++ [b, b] := by
          show b :: replicate j b ++ [b] = _
          rw [← replicate_succ, replicate_succ', append_assoc]
          rfl
        rwa [append_assoc, hcomm, ← append_assoc] at hop
      subst hb
      exact absurd ⟨front, j, tree, hts, hw ▸ hd⟩ hclosed

/-- Left-over tokens are ignored, so such an input is judged wrongly. -/
theorem LeftOver.not_decided {ts : List Token} (h : LeftOver ts) : ¬ DecidesGrammar ts := by
  intro hdec
  obtain ⟨w, u, rest, tree, hts, hd, hu⟩ := h
  cases ts with
  | nil => simp at hts
  | cons t ts =>
    have hlen : 3 * w.length ≤ 3 * (t :: ts).length := by rw [hts, length_append]; omega
    have hS := Parser.S_complete hd (Parser.reads_proper hts) hu hlen
    have hder := (hdec _ le_rfl tree).mp (Parser.parse_eq_ok.mpr ⟨_, hS⟩)
    -- a parse of the whole input would have stopped at its end
    obtain ⟨b, hS'⟩ := hder.parsed le_rfl
    rw [hS] at hS'
    cases hS'
    obtain ⟨front, c, hw, hc⟩ := hd.operand.ends
    have hfol : Token.Follows c u := by
      have hchain := hder.operand.chain
      rw [hts, hw, append_assoc] at hchain
      simpa using (isChain_append.mp hchain).2.1
    unfold Token.Follows at hfol
    rw [if_pos hc, hu] at hfol
    obtain rfl : u = .closeBracket := by simpa using hfol
    refine hd.operand.not_more_closed 0 ?_
    have := hder.operand
    rwa [hts] at this

/-- Missing brackets are supplied by the last token, so such an input is judged wrongly. -/
theorem Unclosed.not_decided {ts : List Token} (h : Unclosed ts) : ¬ DecidesGrammar ts := by
  intro hdec
  obtain ⟨front, j, tree, hts, hd⟩ := h
  cases ts with
  | nil => simp at hts
  | cons t ts =>
    have hr := Parser.reads_all hts (j + 1)
    have hS := Parser.S_complete hd hr rfl le_rfl
    have hlen : 3 * (t :: ts).length
        ≤ 3 * (t :: ts ++ replicate (j + 1) Token.closeBracket).length := by
      rw [length_append]; omega
    have hder := (hdec _ hlen tree).mp (Parser.parse_eq_ok.mpr ⟨_, hS⟩)
    exact hder.operand.not_more_closed j hd.operand

/--
**The parser decides its grammar exactly on the inputs of neither kind.** An
input is judged wrongly precisely when tokens are left over behind a derivable
prefix, or when it ends in `)` and more closing brackets would complete it.
-/
theorem decidesGrammar_iff (ts : List Token) :
    DecidesGrammar ts ↔ ¬ LeftOver ts ∧ ¬ Unclosed ts := by
  constructor
  · exact fun h => ⟨fun hl => hl.not_decided h, fun hc => hc.not_decided h⟩
  rintro ⟨hleft, hclosed⟩ frames hf tree
  refine ⟨accepted_derivable hleft hclosed, fun hd => ?_⟩
  cases ts with
  | nil => exact absurd hd not_derS_nil
  | cons t ts =>
    obtain ⟨b, hS⟩ := hd.parsed hf
    exact Parser.parse_eq_ok.mpr ⟨_, hS⟩

/-- An input that is accepted with unbalanced brackets is judged wrongly. -/
theorem not_decided_of_unbalanced {ts : List Token} {t : Node Token}
    (hok : Parser.parse (3 * ts.length) ts = .ok t)
    (hb : ts.count .openBracket ≠ ts.count .closeBracket) : ¬ DecidesGrammar ts :=
  fun hdec => hb ((hdec _ le_rfl t).mp hok).operand.balanced

/-- `((A)` and `A)` are both accepted as the query `A`, though neither is derivable. -/
theorem unbalanced_accepted :
    (Parser.parse 12 [.openBracket, .openBracket, .word "A", .closeBracket]
        = .ok (.mk (.word "A") .null .null) ∧
      ¬ DecidesGrammar [.openBracket, .openBracket, .word "A", .closeBracket]) ∧
    (Parser.parse 6 [.word "A", .closeBracket] = .ok (.mk (.word "A") .null .null) ∧
      ¬ DecidesGrammar [.word "A", .closeBracket]) :=
  ⟨⟨rfl, not_decided_of_unbalanced (t := .mk (.word "A") .null .null) rfl (by decide)⟩,
    ⟨rfl, not_decided_of_unbalanced (t := .mk (.word "A") .null .null) rfl (by decide)⟩⟩

end Tdlib.Aggregator
