import Tdlib.Aggregator.Regex

/-!
# When a query is answered correctly

Every leaf of the tree is searched separately, so the results below the two sides
of an operator never share an object. Union does not care: `|` delivers the
messages of both sides, if sometimes twice. Intersection does: comparing by
reference, `&` always comes out empty. What a query delivers is therefore the
union of its single-word alternatives (`Delivers`), and that is the right answer
exactly when the conjunctive alternatives have nothing to add.
-/

namespace Tdlib.Aggregator

open List Token

/-- The trees a parse can return. -/
inductive Query : Node Token → Prop where
  | word (w : String) : Query (.mk (.word w) .null .null)
  | operation {v : Token} {l r : Node Token} :
      v.isOperation → Query l → Query r → Query (.mk v l r)

mutual

theorem DerS.query {w : List Token} {t : Node Token} : DerS w t → Query t
  | .one h => h.query
  | .or h1 h2 => .operation rfl h1.query h2.query

theorem DerX.query {w : List Token} {t : Node Token} : DerX w t → Query t
  | .one h => h.query
  | .and h1 h2 => .operation rfl h1.query h2.query

theorem DerV.query {w : List Token} {t : Node Token} : DerV w t → Query t
  | .word s => .word s
  | .bracket h => h.query

end

/-- What evaluating a tree really delivers: conjunctions contribute nothing. -/
def Delivers (R : Results) : Node Token → Int × Int → Prop
  | .mk (.word w) _ _, m => m ∈ R w
  | .mk (.or _) l r, m => Delivers R l m ∨ Delivers R r m
  | _, _ => False

/-! ## Fresh objects -/

/-- The objects of `s` are distinct and were allocated in `[lo, hi)`. -/
structure Fresh (lo hi : Nat) (s : List Message) : Prop where
  /-- No object occurs twice. -/
  nodup : (s.map Message.ref).Nodup
  /-- Every reference lies in the range. -/
  range : ∀ m ∈ s, lo ≤ m.ref ∧ m.ref < hi

theorem Fresh.mono {lo lo' hi hi' : Nat} {s : List Message} (h : Fresh lo hi s)
    (hlo : lo' ≤ lo) (hhi : hi ≤ hi') : Fresh lo' hi' s where
  nodup := h.nodup
  range := fun m hm => ⟨le_trans hlo (h.range m hm).1, lt_of_lt_of_le (h.range m hm).2 hhi⟩

theorem allocate_fresh (l : List (Int × Int)) : ∀ heap, Fresh heap (heap + l.length)
    (allocate heap l) := by
  induction l with
  | nil => exact fun heap => ⟨by simp [allocate], by simp [allocate]⟩
  | cons a l ih =>
    intro heap
    obtain ⟨hnd, hr⟩ := ih (heap + 1)
    refine ⟨?_, ?_⟩
    · simp only [allocate, map_cons, nodup_cons]
      refine ⟨fun hmem => ?_, hnd⟩
      obtain ⟨m, hm, he⟩ := mem_map.mp hmem
      have := (hr m hm).1
      omega
    intro m hm
    simp only [allocate, mem_cons] at hm
    simp only [length_cons]
    rcases hm with rfl | hm
    · dsimp only; omega
    · have := hr m hm; omega

theorem allocate_ident (l : List (Int × Int)) : ∀ heap,
    (allocate heap l).map Message.ident = l := by
  induction l with
  | nil => exact fun _ => rfl
  | cons a l ih => intro heap; simp [allocate, Message.ident, ih]

/-- A search returns fresh objects for exactly the messages of the answer. -/
theorem search_spec (R : Results) (w : String) (heap : Nat) :
    setOf (search R w heap).1 = some (search R w heap).1 ∧
      Fresh heap (search R w heap).2 (search R w heap).1 ∧
      (search R w heap).1.map Message.ident = R w ∧ heap ≤ (search R w heap).2 := by
  have hf := allocate_fresh (R w) heap
  exact ⟨if_pos hf.nodup, hf, allocate_ident _ _, Nat.le_add_right _ _⟩

/-! ## One operator -/

/-- `Evaluated R t lo hi v`: traversing `t` allocated `[lo, hi)` and left `v` at the root. -/
inductive Evaluated (R : Results) : Node Token → Nat → Nat → Token → Prop where
  | word (w : String) (heap : Nat) : Evaluated R (.mk (.word w) .null .null) heap heap (.word w)
  | operation {v0 v : Token} {l r : Node Token} {lo hi : Nat} {s : List Message} :
      v.isOperation → v.getResulted = some s → Fresh lo hi s →
      (∀ m, m ∈ s.map Message.ident ↔ Delivers R (.mk v0 l r) m) → lo ≤ hi →
      Evaluated R (.mk v0 l r) lo hi v

theorem addAll_disjoint {s t : List Message} (h : ∀ x ∈ s, ∀ y ∈ t, x.ref ≠ y.ref) :
    addAll s t = s ++ t := by
  have hall : t.filter (fun m => !contains s m) = t := by
    rw [filter_eq_self]
    intro y hy
    simp only [contains, Bool.not_eq_true', contains_eq_mem, decide_eq_false_iff_not]
    intro hmem
    obtain ⟨x, hx, he⟩ := mem_map.mp hmem
    exact h x hx y hy he
  rw [addAll, hall]

theorem retainAll_disjoint {s t : List Message} (h : ∀ x ∈ s, ∀ y ∈ t, x.ref ≠ y.ref) :
    retainAll s t = [] := by
  rw [retainAll, filter_eq_nil_iff]
  intro x hx hmem
  simp only [contains, contains_eq_mem, decide_eq_true_eq] at hmem
  obtain ⟨y, hy, he⟩ := mem_map.mp hmem
  exact h x hx y hy he.symm

theorem Fresh.append {lo hi : Nat} {s t : List Message} (hs : Fresh lo hi s) (ht : Fresh lo hi t)
    (h : ∀ x ∈ s, ∀ y ∈ t, x.ref ≠ y.ref) : Fresh lo hi (s ++ t) where
  nodup := by
    rw [map_append, nodup_append]
    refine ⟨hs.nodup, ht.nodup, ?_⟩
    intro a ha b hb
    obtain ⟨x, hx, rfl⟩ := mem_map.mp ha
    obtain ⟨y, hy, rfl⟩ := mem_map.mp hb
    exact h x hx y hy
  range := by
    intro m hm
    rcases mem_append.mp hm with hm | hm
    · exact hs.range m hm
    · exact ht.range m hm

/-- Applied to sets with no object in common, an operator delivers what `Delivers` says. -/
theorem makeOperation_evaluated {R : Results} {v : Token} {l r : Node Token} {lo hi : Nat}
    {s t : List Message} (hv : v.isOperation) (hs : Fresh lo hi s) (ht : Fresh lo hi t)
    (hst : ∀ x ∈ s, ∀ y ∈ t, x.ref ≠ y.ref) (hle : lo ≤ hi)
    (hm : ∀ m, (m ∈ s.map Message.ident ∨ m ∈ t.map Message.ident) ↔
      (Delivers R l m ∨ Delivers R r m)) :
    Evaluated R (.mk v l r) lo hi (makeOperation v s t) := by
  cases v with
  | or res =>
    refine .operation (s := s ++ t) rfl ?_ (hs.append ht hst) ?_ hle
    · simp [makeOperation, getResulted, addAll_disjoint hst]
    · intro m
      rw [map_append, mem_append, hm m]
      rfl
  | and res =>
    refine .operation (s := []) rfl ?_ ⟨by simp, by simp⟩ ?_ hle
    · simp [makeOperation, getResulted, retainAll_disjoint hst]
    · simp [Delivers]
  | word w => cases hv
  | openBracket | closeBracket => cases hv

/-- Objects allocated in ranges that do not meet are different objects. -/
theorem Fresh.disjoint {lo mid hi : Nat} {s t : List Message} (hs : Fresh lo mid s)
    (ht : Fresh mid hi t) : ∀ x ∈ s, ∀ y ∈ t, x.ref ≠ y.ref := by
  intro x hx y hy
  have h1 := (hs.range x hx).2
  have h2 := (ht.range y hy).1
  omega

/-- The four cases of operand kinds all come down to `makeOperation_evaluated`. -/
theorem combine_evaluated {R : Results} {v lv rv : Token} {l r : Node Token} {lo mid hi : Nat}
    (hv : v.isOperation) (hl : Evaluated R l lo mid lv) (hr : Evaluated R r mid hi rv) :
    ∃ v' hi', combine R v lv rv hi = some (v', hi') ∧ Evaluated R (.mk v l r) lo hi' v' := by
  -- A word is looked up only now, after what an operation beside it has found.
  cases hl with
  | word a =>
    cases hr with
    | word b =>
      obtain ⟨sa1, sa2, sa3, sa4⟩ := search_spec R a lo
      obtain ⟨sb1, sb2, sb3, sb4⟩ := search_spec R b (search R a lo).2
      have hc : combine R v (.word a) (.word b) lo = some
          (makeOperation v (search R a lo).1 (search R b (search R a lo).2).1,
            (search R b (search R a lo).2).2) := by
        simp [combine, sa1, sb1]
      refine ⟨_, _, hc, ?_⟩
      refine makeOperation_evaluated hv (sa2.mono le_rfl sb4)
        (sb2.mono sa4 le_rfl) (sa2.disjoint sb2) (le_trans sa4 sb4) ?_
      intro m
      rw [sa3, sb3]
      rfl
    | operation hop hres hfr hdel hle =>
      rename_i v0 l0 r0 t
      obtain ⟨sa1, sa2, sa3, sa4⟩ := search_spec R a hi
      have hc : combine R v (.word a) rv hi
          = some (makeOperation v t (search R a hi).1, (search R a hi).2) := by
        cases rv <;> simp_all [combine, isOperation, isOr, isAnd]
      refine ⟨_, _, hc, ?_⟩
      refine makeOperation_evaluated hv (hfr.mono le_rfl sa4)
        (sa2.mono hle le_rfl) (hfr.disjoint sa2) (le_trans hle sa4) ?_
      intro m
      rw [sa3, hdel m]
      exact Or.comm
  | operation hop hres hfr hdel hle =>
    rename_i v0 l0 r0 s
    cases hr with
    | word b =>
      obtain ⟨sb1, sb2, sb3, sb4⟩ := search_spec R b mid
      have hc : combine R v lv (.word b) mid
          = some (makeOperation v s (search R b mid).1, (search R b mid).2) := by
        cases lv <;> simp_all [combine, isOperation, isOr, isAnd]
      refine ⟨_, _, hc, ?_⟩
      refine makeOperation_evaluated hv (hfr.mono le_rfl sb4)
        (sb2.mono hle le_rfl) (hfr.disjoint sb2) (le_trans hle sb4) ?_
      intro m
      rw [sb3, hdel m]
      rfl
    | operation hop' hres' hfr' hdel' hle' =>
      rename_i v0' l0' r0' t
      have hc : combine R v lv rv hi = some (makeOperation v s t, hi) := by
        cases lv <;> cases rv <;>
          simp_all [combine, isOperation, isOr, isAnd]
      refine ⟨_, _, hc, ?_⟩
      refine makeOperation_evaluated hv (hfr.mono le_rfl hle')
        (hfr'.mono hle le_rfl) (hfr.disjoint hfr') (le_trans hle hle') ?_
      intro m
      rw [hdel m, hdel' m]

/-! ## The whole tree -/

/-- Traversing a query leaves at its root what it delivers. -/
theorem traversePostOrder_evaluated {R : Results} {t : Node Token} (ht : Query t) :
    ∀ lo, ∃ v left right hi, traversePostOrder R t lo = some (.mk v left right, hi) ∧
      Evaluated R t lo hi v := by
  induction ht with
  | word w => exact fun lo => ⟨_, _, _, lo, rfl, .word w lo⟩
  | operation hv _ _ ihl ihr =>
    intro lo
    obtain ⟨lv, ll, lr, mid, hl, hel⟩ := ihl lo
    obtain ⟨rv, rl, rr, hi, hr, her⟩ := ihr mid
    obtain ⟨v', hi', hc, he⟩ := combine_evaluated hv hel her
    refine ⟨v', .mk lv ll lr, .mk rv rl rr, hi', ?_, he⟩
    simp [traversePostOrder, hl, hr, hc]

/-- `aggregate` hands the handler exactly what the query delivers. -/
theorem aggregate_delivers {R : Results} {expression : String} {tree : Node Token} {frames : Nat}
    (hd : DerS (getAllTokens expression) tree)
    (hf : 3 * (getAllTokens expression).length ≤ frames) :
    ∃ ms, aggregate frames R expression = some ms ∧
      ∀ m, m ∈ ms.map Message.ident ↔ Delivers R tree m := by
  have hparse : Parser.parse frames (getAllTokens expression) = .ok tree := by
    cases hts : getAllTokens expression with
    | nil => rw [hts] at hd; exact absurd hd not_derS_nil
    | cons t ts =>
      rw [hts] at hd hf
      obtain ⟨b, hS⟩ := hd.parsed hf
      exact Parser.parse_eq_ok.mpr ⟨_, hS⟩
  obtain ⟨v, left, right, hi, htr, he⟩ := traversePostOrder_evaluated (R := R) hd.query 0
  cases he with
  | word w =>
    refine ⟨(search R w 0).1, by simp [aggregate, hparse, htr], fun m => ?_⟩
    rw [(search_spec R w 0).2.2.1]
    rfl
  | operation hop hres hfr hdel hle =>
    rename_i v0 l r s
    refine ⟨s, ?_, hdel⟩
    cases v <;> simp_all [aggregate, isOperation, isOr, isAnd]

/-! ## Delivered against denoted -/

theorem delivers_iff {R : Results} {t : Node Token} (ht : Query t) (m : Int × Int) :
    Delivers R t m ↔ ∃ w, .mk (.word w) .null .null ∈ alternatives t ∧ m ∈ R w := by
  induction ht with
  | word w => simp [Delivers, alternatives]
  | @operation v l r hv _ _ ihl ihr =>
    cases v with
    | or res =>
      simp only [Delivers, alternatives, mem_append, ihl, ihr, or_and_right, exists_or]
    | and res => simp [Delivers, alternatives]
    | word w => cases hv
    | openBracket | closeBracket => cases hv

theorem denotes_iff {R : Results} {t : Node Token} (m : Int × Int) :
    Denotes R t m ↔ ∃ d ∈ alternatives t, Denotes R d m := by
  fun_induction alternatives t with
  | case1 res l r ihl ihr =>
    simp only [Denotes, ihl, ihr, mem_append, or_and_right, exists_or]
  | case2 n h => simp

/-- An alternative of a query is a single word or a conjunction. -/
theorem Query.alternative {t d : Node Token} (ht : Query t) (hd : d ∈ alternatives t) :
    (∃ w, d = .mk (.word w) .null .null) ∨ ∃ r left right, d = .mk (.and r) left right := by
  induction ht with
  | word w => exact .inl ⟨w, by simpa [alternatives] using hd⟩
  | @operation v l r hv _ _ ihl ihr =>
    cases v with
    | or res =>
      rcases mem_append.mp hd with hd | hd
      · exact ihl hd
      · exact ihr hd
    | and res => exact .inr ⟨res, l, r, by simpa [alternatives] using hd⟩
    | word w => cases hv
    | openBracket | closeBracket => cases hv

/-- What is delivered is what is denoted, exactly when the conjunctions are covered. -/
theorem delivers_eq_denotes_iff {R : Results} {t : Node Token} (ht : Query t) :
    (∀ m, Delivers R t m ↔ Denotes R t m) ↔ Covered R t := by
  constructor
  · intro h r left right hmem m hm
    exact (delivers_iff ht m).mp ((h m).mpr ((denotes_iff m).mpr ⟨_, hmem, hm⟩))
  intro hcov m
  rw [delivers_iff ht, denotes_iff]
  constructor
  · rintro ⟨w, hmem, hm⟩
    exact ⟨_, hmem, hm⟩
  · rintro ⟨d, hmem, hm⟩
    rcases ht.alternative hmem with ⟨w, rfl⟩ | ⟨r, left, right, rfl⟩
    · exact ⟨w, hmem, hm⟩
    · exact hcov r left right hmem m hm

theorem derS_word_or_word (a b : String) :
    DerS [.word a, .or none, .word b]
      (.mk (.or none) (.mk (.word a) .null .null) (.mk (.word b) .null .null)) :=
  .or (w := [.word a]) (u := [.word b]) (.one (.word a)) (.one (.one (.word b)))

theorem derS_word_and_word (a b : String) :
    DerS [.word a, .and none, .word b]
      (.mk (.and none) (.mk (.word a) .null .null) (.mk (.word b) .null .null)) :=
  .one (.and (w := [.word a]) (u := [.word b]) (.word a) (.one (.word b)))

/--
**A query is answered correctly exactly when its conjunctions add nothing.** For
every expression that parses and every assignment of results, `aggregate`
delivers the messages the expression denotes if and only if each message of a
conjunctive alternative is also a result of one of the single-word alternatives.
-/
theorem aggregate_correct_iff (R : Results) (expression : String) (tree : Node Token) (frames : Nat)
    (hd : DerS (getAllTokens expression) tree)
    (hf : 3 * (getAllTokens expression).length ≤ frames) :
    ∃ ms, aggregate frames R expression = some ms ∧
      ((∀ m, m ∈ ms.map Message.ident ↔ Denotes R tree m) ↔ Covered R tree) := by
  obtain ⟨ms, hms, hdel⟩ := aggregate_delivers (R := R) hd hf
  refine ⟨ms, hms, ?_⟩
  rw [← delivers_eq_denotes_iff hd.query]
  exact ⟨fun h m => (hdel m).symm.trans (h m), fun h m => (hdel m).trans (h m)⟩

/-- `A|B` is answered correctly: there is no conjunction to cover. -/
theorem aggregate_correct_a_or_b :
    ∃ ms, aggregate 9 (fun _ => [(1, 1)]) "A|B" = some ms ∧
      ((∀ m, m ∈ ms.map Message.ident ↔ Denotes (fun _ => [(1, 1)])
          (.mk (.or none) (.mk (.word "A") .null .null) (.mk (.word "B") .null .null)) m) ↔
        Covered (fun _ => [(1, 1)])
          (.mk (.or none) (.mk (.word "A") .null .null) (.mk (.word "B") .null .null))) :=
  aggregate_correct_iff _ "A|B" _ 9 (derS_word_or_word "A" "B") (by decide)

/-- `A&B` delivers nothing, although the message `(1, 1)` is a result of both words. -/
theorem conjunction_lost :
    DerS (getAllTokens "A&B")
        (.mk (.and none) (.mk (.word "A") .null .null) (.mk (.word "B") .null .null)) ∧
      aggregate 9 (fun _ => [(1, 1)]) "A&B" = some [] ∧
      Denotes (fun _ => [(1, 1)])
        (.mk (.and none) (.mk (.word "A") .null .null) (.mk (.word "B") .null .null)) (1, 1) :=
  ⟨derS_word_and_word "A" "B", by decide, by simp [Denotes]⟩

end Tdlib.Aggregator
