import Tdlib.Lib.Skip
import Tdlib.Net.SequenceDispatcher

/-!
# A dispatcher never strands or duplicates a query

Two things hold of a dispatcher, and they look at different parts of it.

* `Held`: the tokens that are outstanding are those of the queries that wait, one for each of
  them, and `waitCnt` counts them.
* `Cursor`: the queries before `finishI` are finished, and one between `finishI` and `nextI` is
  finished or was sent in the current chain.

The second is the point. A query that fails and is not of the current chain cannot be one of
those before `nextI`, so it is enough to make it `start` again: the loop will come by. One of
the current chain may be, but then `nextI` goes back to `finishI`.

In the middle of a function one entry may be a `dummy`. It is the `hole` of `Inv`.
-/

namespace Tdlib.Net

open Tdlib.Lib List

variable {τ : Type}

/-! ## Tokens -/

/-- The tokens are those of the queries that wait. -/
structure Held (data : List (Data τ)) (idOffset : Nat) (outstanding : List (Token τ))
    (waitCnt : Nat) : Prop where
  waitCnt : waitCnt = data.countP fun x => x.state = .wait
  /-- No two tokens are of one query. -/
  unique : (outstanding.map Token.number).Nodup
  /-- A token leads back to the query it was handed out for. -/
  token : ∀ t ∈ outstanding, ∃ pos x, data[pos]? = some x ∧ t.number = pos + idOffset ∧
    x.state = .wait ∧ x.netQueryRef = t.netQueryRef
  /-- A query that waits has a token. -/
  held : ∀ pos x, data[pos]? = some x → x.state = .wait →
    ∃ t ∈ outstanding, t.number = pos + idOffset

section Held

variable {data : List (Data τ)} {idOffset waitCnt i : Nat} {outstanding : List (Token τ)}
  {x y : Data τ}

theorem getElem?_concat_or {j : Nat} {z : Data τ} (hz : (data ++ [y])[j]? = some z) :
    data[j]? = some z ∨ z = y := by
  rw [getElem?_append] at hz
  split at hz
  · exact .inl hz
  · rw [getElem?_singleton] at hz
    split at hz
    · exact .inr (Option.some.inj hz).symm
    · cases hz

theorem ne_of_wait {pos : Nat} {z : Data τ} (hx : data[i]? = some x) (hxw : x.state ≠ .wait)
    (hz : data[pos]? = some z) (hwait : z.state = .wait) : i ≠ pos := by
  rintro rfl
  rw [hx] at hz
  cases hz
  exact hxw hwait

section

variable (h : Held data idOffset outstanding waitCnt) (hx : data[i]? = some x)
include h hx

theorem Held.token_set (hxw : x.state ≠ .wait) (t : Token τ) (ht : t ∈ outstanding) :
    ∃ pos z, (data.set i y)[pos]? = some z ∧ t.number = pos + idOffset ∧ z.state = .wait ∧
      z.netQueryRef = t.netQueryRef := by
  obtain ⟨pos, z, hz, hrest⟩ := h.token t ht
  refine ⟨pos, z, ?_, hrest⟩
  rwa [getElem?_set_ne (ne_of_wait hx hxw hz hrest.2.1)]

/-- An entry changes that does not wait. -/
theorem Held.other (hxw : x.state ≠ .wait) (hyw : y.state ≠ .wait) :
    Held (data.set i y) idOffset outstanding waitCnt where
  waitCnt := by
    have hcount := countP_set_add (y := y) (fun x => x.state = .wait) hx
    simp only [hxw, hyw, decide_false, Bool.false_eq_true, if_false, add_zero] at hcount
    rw [hcount]
    exact h.waitCnt
  unique := h.unique
  token := h.token_set hx hxw
  held := by
    intro pos z hz hwait
    rcases getElem?_set_or hx hz with ⟨-, rfl⟩ | ⟨-, hz⟩
    · exact absurd hwait hyw
    · exact h.held pos z hz hwait

/-- An entry changes, but neither its state nor what it was put in for. -/
theorem Held.same (hstate : y.state = x.state) (href : y.netQueryRef = x.netQueryRef) :
    Held (data.set i y) idOffset outstanding waitCnt where
  waitCnt := by
    have hcount := countP_set_add (y := y) (fun x => x.state = .wait) hx
    rw [hstate] at hcount
    rw [Nat.add_right_cancel hcount]
    exact h.waitCnt
  unique := h.unique
  token := by
    intro t ht
    obtain ⟨pos, z, hz, hnumber, hwait, hzref⟩ := h.token t ht
    by_cases hpos : pos = i
    · subst hpos
      rw [hx] at hz
      cases hz
      refine ⟨pos, y, ?_, hnumber, hstate.trans hwait, href.trans hzref⟩
      exact getElem?_set_self (List.getElem?_eq_some_iff.mp hx).1
    · exact ⟨pos, z, by rwa [getElem?_set_ne (Ne.symm hpos)], hnumber, hwait, hzref⟩
  held := forall_set hx h.held fun hwait => h.held i x hx (hstate ▸ hwait)

/-- A query starts to wait, and its token is handed out. -/
theorem Held.wait (hxw : x.state ≠ .wait) (hyw : y.state = .wait) {t : Token τ}
    (hnumber : t.number = i + idOffset) (href : y.netQueryRef = t.netQueryRef) :
    Held (data.set i y) idOffset (outstanding ++ [t]) (waitCnt + 1) where
  waitCnt := by
    have hcount := countP_set_add (y := y) (fun x => x.state = .wait) hx
    have hw := h.waitCnt
    simp only [hxw, hyw, decide_false, decide_true, Bool.false_eq_true, if_false, if_true] at hcount
    omega
  unique := by
    rw [map_append, nodup_append']
    refine ⟨h.unique, nodup_singleton _, ?_⟩
    intro n hn hn'
    obtain ⟨t', ht', rfl⟩ := mem_map.mp hn
    rw [map_singleton, mem_singleton] at hn'
    obtain ⟨pos, z, hz, hpos, hwait, -⟩ := h.token t' ht'
    exact ne_of_wait hx hxw hz hwait (by omega)
  token := by
    intro t' ht'
    rcases mem_append.mp ht' with ht' | ht'
    · exact h.token_set hx hxw t' ht'
    · obtain rfl := mem_singleton.mp ht'
      exact ⟨i, y, getElem?_set_self (List.getElem?_eq_some_iff.mp hx).1, hnumber, hyw, href⟩
  held := by
    intro pos z hz hwait
    rcases getElem?_set_or hx hz with ⟨rfl, -⟩ | ⟨-, hz⟩
    · exact ⟨t, mem_append_right _ (mem_singleton_self t), hnumber⟩
    · obtain ⟨t', ht', hpos⟩ := h.held pos z hz hwait
      exact ⟨t', mem_append_left _ ht', hpos⟩

/-- A token comes back, and its query waits no longer. -/
theorem Held.answer {t : Token τ} (ht : t ∈ outstanding) {p : Token τ → Bool}
    (hp : ∀ t' ∈ outstanding, p t' → t'.number = t.number) (hpt : p t)
    (hnumber : t.number = i + idOffset) (hxw : x.state = .wait) (hyw : y.state ≠ .wait) :
    Held (data.set i y) idOffset (outstanding.eraseP p) (waitCnt - 1) where
  waitCnt := by
    have hcount := countP_set_add (y := y) (fun x => x.state = .wait) hx
    have hw := h.waitCnt
    simp only [hxw, hyw, decide_false, decide_true, Bool.false_eq_true, if_false, if_true] at hcount
    omega
  unique := h.unique.sublist (eraseP_sublist.map _)
  token := by
    intro t' ht'
    have hne : t'.number ≠ t.number := by
      obtain ⟨a, l1, l2, -, hpa, hsplit, herase⟩ := exists_of_eraseP ht hpt
      have ha : a.number = t.number := hp a (by simp [hsplit]) hpa
      have hunique := h.unique
      rw [hsplit, map_append, map_cons, nodup_middle, ← map_append, nodup_cons] at hunique
      rw [herase] at ht'
      intro heq
      refine hunique.1 ?_
      rw [ha, ← heq]
      exact mem_map_of_mem ht'
    obtain ⟨pos, z, hz, hpos, hwait, hzref⟩ := h.token t' (mem_of_mem_eraseP ht')
    refine ⟨pos, z, ?_, hpos, hwait, hzref⟩
    rwa [getElem?_set_ne (by omega)]
  held := by
    intro pos z hz hwait
    rcases getElem?_set_or hx hz with ⟨-, rfl⟩ | ⟨hne, hz⟩
    · exact absurd hwait hyw
    obtain ⟨t', ht', hpos⟩ := h.held pos z hz hwait
    refine ⟨t', ?_, hpos⟩
    rw [mem_eraseP_of_neg]
    · exact ht'
    · intro hpt'
      have := hp t' ht' hpt'
      omega

omit hx in
theorem Held.append (hyw : y.state ≠ .wait) :
    Held (data ++ [y]) idOffset outstanding waitCnt where
  waitCnt := by
    have hw := h.waitCnt
    simp only [countP_append, countP_singleton, hyw]
    exact hw
  unique := h.unique
  token := by
    intro t ht
    obtain ⟨pos, z, hz, hrest⟩ := h.token t ht
    refine ⟨pos, z, ?_, hrest⟩
    rw [getElem?_append_left (List.getElem?_eq_some_iff.mp hz).1]
    exact hz
  held := by
    intro pos z hz hwait
    rcases getElem?_concat_or hz with hz | rfl
    · exact h.held pos z hz hwait
    · exact absurd hwait hyw

omit hx in
/-- The first entries are dropped. None of them waits, and the others keep their tokens. -/
theorem Held.drop {n : Nat} (hn : ∀ i x, i < n → data[i]? = some x → x.state ≠ .wait) :
    Held (data.drop n) (idOffset + n) outstanding waitCnt where
  waitCnt := by
    have hnone : (data.take n).countP (fun x => x.state = .wait) = 0 := by
      rw [countP_eq_zero]
      intro x hx
      obtain ⟨i, hi⟩ := getElem?_of_mem hx
      rw [getElem?_take] at hi
      split at hi
      · simpa using hn i x ‹_› hi
      · cases hi
    have hw := h.waitCnt
    rw [← take_append_drop n data, countP_append, hnone, zero_add] at hw
    exact hw
  unique := h.unique
  token := by
    intro t ht
    obtain ⟨pos, z, hz, hnumber, hwait, href⟩ := h.token t ht
    have hle : n ≤ pos := by
      by_contra hlt
      exact hn pos z (by omega) hz hwait
    refine ⟨pos - n, z, ?_, by omega, hwait, href⟩
    rw [getElem?_drop, Nat.add_sub_cancel' hle]
    exact hz
  held := by
    intro pos z hz hwait
    rw [getElem?_drop] at hz
    obtain ⟨t, ht, hnumber⟩ := h.held (n + pos) z hz hwait
    exact ⟨t, ht, by omega⟩

end

end Held

/-! ## Cursors -/

/-- The queries before `nextI` need not be sent. -/
structure Cursor (data : List (Data τ)) (finishI nextI generation : Nat) : Prop where
  finish_le : finishI ≤ nextI
  next_le : nextI ≤ data.length
  finished : ∀ i x, i < finishI → data[i]? = some x → x.state = .finish
  /-- A query that is not finished was sent in the current chain. -/
  sent : ∀ i x, finishI ≤ i → i < nextI → data[i]? = some x →
    x.state = .finish ∨ x.state ≠ .start ∧ x.generation = generation

section Cursor

variable {data : List (Data τ)} {finishI nextI generation i : Nat} {x y : Data τ}

section

variable (h : Cursor data finishI nextI generation)
include h

/-- An entry changes. -/
theorem Cursor.set (hx : data[i]? = some x) (hfinish : i < finishI → y.state = .finish)
    (hsent : finishI ≤ i → i < nextI → y.state = .finish ∨
      y.state ≠ .start ∧ y.generation = generation) :
    Cursor (data.set i y) finishI nextI generation where
  finish_le := h.finish_le
  next_le := by
    rw [length_set]
    exact h.next_le
  finished j z hj hz :=
    forall_set (P := fun j z => j < finishI → z.state = .finish) hx
      (fun j z hz hj => h.finished j z hj hz) hfinish j z hz hj
  sent j z hj hj' hz :=
    forall_set (P := fun j z => finishI ≤ j → j < nextI → z.state = .finish ∨
      z.state ≠ .start ∧ z.generation = generation) hx
      (fun j z hz hj hj' => h.sent j z hj hj' hz) hsent j z hz hj hj'

/-- A query that is `start`, or of an older chain, is not before `nextI`. -/
theorem Cursor.next_le_of (hx : data[i]? = some x) (hfinish : x.state ≠ .finish)
    (hold : x.state = .start ∨ x.generation ≠ generation) : nextI ≤ i := by
  by_contra hlt
  rcases lt_or_ge i finishI with hi | hi
  · exact hfinish (h.finished i x hi hx)
  · rcases h.sent i x hi (by omega) hx with hf | ⟨hstart, hgen⟩
    · exact hfinish hf
    · exact hold.elim hstart (fun hne => hne hgen)

/-- A new chain starts. -/
theorem Cursor.restart (generation' : Nat) :
    Cursor data finishI finishI generation' where
  finish_le := le_rfl
  next_le := le_trans h.finish_le h.next_le
  finished := h.finished
  sent := by
    omega

theorem Cursor.append :
    Cursor (data ++ [y]) finishI nextI generation where
  finish_le := h.finish_le
  next_le := by
    rw [length_append]
    exact Nat.le_add_right_of_le h.next_le
  finished := by
    intro j z hj hz
    have := h.finish_le
    have := h.next_le
    rw [getElem?_append_left (by omega)] at hz
    exact h.finished j z hj hz
  sent := by
    intro j z hj hj' hz
    have := h.next_le
    rw [getElem?_append_left (by omega)] at hz
    exact h.sent j z hj hj' hz

/-- The next entry is skipped. -/
theorem Cursor.next (hx : data[nextI]? = some x)
    (hsent : x.state = .finish ∨ x.state ≠ .start ∧ x.generation = generation) :
    Cursor data finishI (nextI + 1) generation where
  finish_le := Nat.le_succ_of_le h.finish_le
  next_le := (List.getElem?_eq_some_iff.mp hx).1
  finished := h.finished
  sent := by
    intro j z hj hj' hz
    rcases lt_or_eq_of_le (Nat.le_of_lt_succ hj') with hlt | rfl
    · exact h.sent j z hj hlt hz
    · rw [hx] at hz
      cases hz
      exact hsent

/-- The first entries are dropped. -/
theorem Cursor.drop :
    Cursor (data.drop finishI) 0 (nextI - finishI) generation where
  finish_le := Nat.zero_le _
  next_le := by
    rw [length_drop]
    exact Nat.sub_le_sub_right h.next_le _
  finished := by
    omega
  sent := by
    intro j z _ hj' hz
    rw [getElem?_drop] at hz
    exact h.sent (finishI + j) z (Nat.le_add_right _ _) (by omega) hz

/-- Finished queries are skipped. -/
theorem Cursor.skip :
    Cursor data (skipWhile (fun x => x.state = .finish) data finishI)
      (max nextI (skipWhile (fun x => x.state = .finish) data finishI)) generation where
  finish_le := le_max_right _ _
  next_le := Nat.max_le.mpr ⟨h.next_le, skipWhile_le (h.finish_le.trans h.next_le)⟩
  finished := by
    intro i x hi hx
    rcases lt_or_ge i finishI with hlt | hge
    · exact h.finished i x hlt hx
    · simpa using of_lt_skipWhile hge hi hx
  sent := by
    intro j z hj hj' hz
    rcases lt_or_ge j nextI with hlt | hge
    · exact h.sent j z (le_trans (Nat.le_add_right _ _) hj) hlt hz
    · omega

end

end Cursor

/-! ## The dispatcher -/

/-- What holds of a dispatcher. The entry at `hole`, if any, is being worked on. -/
structure Inv (hole : Option Nat) (d : SequenceDispatcher τ) : Prop where
  held : Held d.data d.idOffset d.outstanding d.waitCnt
  cursor : Cursor d.data d.finishI d.nextI d.generation
  dummy : ∀ (i : Nat) (x : Data τ), d.data[i]? = some x → (x.state = .dummy ↔ hole = some i)
  /-- A query that is to be sent is there. -/
  query : ∀ (i : Nat) (x : Data τ), d.data[i]? = some x → x.state = .start → ∃ q, x.query = some q
  lastSent : ∀ i, d.lastSentI = some i → i < d.data.length
  timeout : d.timeout.isSome → d.parent

namespace SequenceDispatcher

section Entry

variable {d : SequenceDispatcher τ} {hole : Option Nat} {pos : Nat} {x y : Data τ}

/-- An entry changes, but neither its state nor its chain. -/
theorem inv_same (h : Inv hole d) (hx : d.data[pos]? = some x)
    (hstate : y.state = x.state) (href : y.netQueryRef = x.netQueryRef)
    (hgen : y.generation = x.generation) (hquery : ∀ q, x.query = some q → ∃ q, y.query = some q) :
    Inv hole { d with data := d.data.set pos y } where
  held := h.held.same hx hstate href
  cursor := by
    refine h.cursor.set hx ?_ ?_
    · intro hi
      rw [hstate]
      exact h.cursor.finished pos x hi hx
    · intro hi hi'
      rw [hstate, hgen]
      exact h.cursor.sent pos x hi hi' hx
  dummy := forall_set hx h.dummy (by rw [hstate]; exact h.dummy pos x hx)
  query := forall_set hx h.query fun hstart =>
    (h.query pos x hx (hstate ▸ hstart)).elim hquery
  lastSent i hi := lt_of_lt_of_eq (h.lastSent i hi) length_set.symm
  timeout := h.timeout

/-- The state of an entry changes. It is one that is worked on, or a query that was not sent. -/
theorem inv_set (h : Inv hole d) (hx : d.data[pos]? = some x) {outstanding : List (Token τ)}
    {waitCnt : Nat} (hheld : Held (d.data.set pos y) d.idOffset outstanding waitCnt)
    (hfrom : x.state = .start ∨ x.state = .dummy) (hto : y.state = .wait ∨ y.state = .finish)
    (hgen : y.generation = x.generation) {hole' : Option Nat}
    (hhole : ∀ i, hole' = some i ↔ hole = some i ∧ i ≠ pos) :
    Inv hole' { d with
      data := d.data.set pos y
      waitCnt := waitCnt
      outstanding := outstanding } where
  held := hheld
  cursor := by
    have hnot : x.state ≠ .finish := by
      rcases hfrom with hs | hs <;> rw [hs] <;> decide
    refine h.cursor.set hx ?_ ?_
    · intro hi
      exact absurd (h.cursor.finished pos x hi hx) hnot
    intro hi hi'
    rcases h.cursor.sent pos x hi hi' hx with hf | ⟨-, hxgen⟩
    · exact absurd hf hnot
    · rcases hto with hs | hs
      · exact .inr ⟨by rw [hs]; decide, hgen.trans hxgen⟩
      · exact .inl hs
  dummy := by
    intro i z hz
    rw [hhole]
    rcases getElem?_set_or hx hz with ⟨rfl, rfl⟩ | ⟨hne, hz⟩
    · constructor
      · intro hd
        rcases hto with hs | hs <;> rw [hs] at hd <;> cases hd
      · intro hi
        exact absurd rfl hi.2
    · rw [h.dummy i z hz]
      exact ⟨fun hi => ⟨hi, hne⟩, fun hi => hi.1⟩
  query := forall_set hx h.query fun hstart => by
    rcases hto with hs | hs <;> rw [hs] at hstart <;> cases hstart
  lastSent i hi := lt_of_lt_of_eq (h.lastSent i hi) length_set.symm
  timeout := h.timeout

theorem inv_hole (h : Inv (some pos) d) (hx : d.data[pos]? = some x) : x.state = .dummy :=
  (h.dummy pos x hx).mpr rfl

theorem hole_closed (pos i : Nat) : none = some i ↔ some pos = some i ∧ i ≠ pos :=
  ⟨nofun, fun ⟨hi, hne⟩ => absurd (Option.some.inj hi).symm hne⟩

/-- A query is given back to its callback. -/
theorem tryResendQuery_ok (h : Inv (some pos) d) (hx : d.data[pos]? = some x) (query : NetQuery τ) :
    ∃ d', d.tryResendQuery pos query = some d' ∧ Inv none d' := by
  have hdummy := inv_hole h hx
  refine ⟨_, by rw [tryResendQuery, hx]; exact if_neg (fun hne => hne hdummy), ?_⟩
  exact inv_set (y := { x with state := .wait, query := none }) h hx
    (h.held.wait hx (by rw [hdummy]; decide) rfl rfl rfl) (.inr hdummy) (.inl rfl) rfl
      (hole_closed pos)

theorem doFinish_ok (h : Inv (some pos) d) (hx : d.data[pos]? = some x) :
    ∃ d', d.doFinish pos = some d' ∧ Inv none d' := by
  have hdummy := inv_hole h hx
  refine ⟨_, by rw [doFinish, hx]; exact if_neg (fun hne => hne hdummy), ?_⟩
  have := inv_set (y := { x with state := .finish }) h hx
    (h.held.other hx (by rw [hdummy]; decide) (by simp)) (.inr hdummy) (.inr rfl) rfl
    (hole_closed pos)
  exact { this with }

theorem dataFromToken_eq (hx : d.data[pos]? = some x) (hwait : x.state = .wait)
    (hcount : d.waitCnt ≠ 0) :
    d.dataFromToken (pos + d.idOffset) = some ({ d with
      data := d.data.set pos { x with state := .dummy }
      waitCnt := d.waitCnt - 1 }, pos) := by
  unfold dataFromToken
  rw [if_neg (not_lt.mpr (Nat.le_add_left _ _))]
  dsimp only
  rw [Nat.add_sub_cancel, hx]
  dsimp only
  rw [if_neg (fun hne => hne hwait), if_neg hcount]

/-- **A token leads to a query that waits for it.** -/
theorem dataFromToken_ok (h : Inv none d) {holder : Holder} {number : Nat}
    (hholds : d.Holds holder number) :
    ∃ d' pos, (d.release holder number).dataFromToken number = some (d', pos) ∧
      Inv (some pos) d' ∧ pos < d'.data.length := by
  obtain ⟨t, ht, hholder, hnumber⟩ := hholds
  obtain ⟨pos, x, hx, hpos, hwait, -⟩ := h.held.token t ht
  have hcount : d.waitCnt ≠ 0 := by
    rw [h.held.waitCnt, ← Nat.pos_iff_ne_zero, countP_pos_iff]
    exact ⟨x, mem_of_getElem? hx, by simpa using hwait⟩
  obtain rfl : number = pos + d.idOffset := hnumber.symm.trans hpos
  refine ⟨_, pos, dataFromToken_eq (d := d.release holder _) hx hwait hcount, ?_, ?_⟩
  · constructor
    · refine h.held.answer hx ht ?_ ?_ hpos hwait (by simp)
      · intro t' _ hp
        rw [decide_eq_true_eq] at hp
        rw [hp.2, hnumber]
      · exact decide_eq_true ⟨hholder, hnumber⟩
    · refine h.cursor.set hx ?_ ?_
      · intro hi
        have := h.cursor.finished pos x hi hx
        rw [hwait] at this
        cases this
      · intro hi hi'
        rcases h.cursor.sent pos x hi hi' hx with hf | ⟨-, hgen⟩
        · rw [hwait] at hf
          cases hf
        · exact .inr ⟨by simp, hgen⟩
    · intro i z hz
      rcases getElem?_set_or hx hz with ⟨rfl, rfl⟩ | ⟨hne, hz⟩
      · exact ⟨fun _ => rfl, fun _ => rfl⟩
      rw [h.dummy i z hz]
      constructor
      · intro hi
        cases hi
      · intro hi
        exact absurd (Option.some.inj hi).symm hne
    · exact forall_set hx h.query nofun
    · exact fun i hi => lt_of_lt_of_eq (h.lastSent i hi) length_set.symm
    · exact h.timeout
  · rw [length_set]
    exact (List.getElem?_eq_some_iff.mp hx).1

/-- One token leads to each query that waits. -/
theorem countP_token (h : Inv none d) {i : Nat} (hx : d.data[i]? = some x)
    (hwait : x.state = .wait) : d.outstanding.countP (fun t => t.number = i + d.idOffset) = 1 := by
  obtain ⟨t, ht, hnumber⟩ := h.held.held i x hx hwait
  have hmem : i + d.idOffset ∈ d.outstanding.map Token.number := by
    rw [← hnumber]
    exact mem_map_of_mem ht
  have hcount := count_eq_one_of_mem h.held.unique hmem
  rw [count, countP_map] at hcount
  rw [← hcount]
  exact countP_congr fun t _ => by simp

end Entry

section Timeout

variable [Zero τ] [Add τ] [LT τ] [DecidableLT τ] {d : SequenceDispatcher τ} {hole : Option Nat}
  {pos : Nat} {x : Data τ}

/-- A query that was not sent is given back if it waits for too long. -/
theorem checkTimeout_ok (h : Inv hole d) (hx : d.data[pos]? = some x) :
    ∃ d', d.checkTimeout pos = some d' ∧ Inv hole d' ∧ d'.data.length = d.data.length := by
  have hlt := (List.getElem?_eq_some_iff.mp hx).1
  unfold checkTimeout
  rw [hx]
  dsimp only
  by_cases hstart : x.state = .start
  · obtain ⟨query, hquery⟩ := h.query pos x hx hstart
    rw [if_neg (fun hne => hne hstart), hquery]
    dsimp only
    split
    · -- the entry goes from `start` through `dummy` to `wait`
      rw [tryResendQuery, getElem?_set_self hlt]
      refine ⟨_, if_neg (fun hne => hne rfl), ?_, ?_⟩
      · rw [set_set]
        refine inv_set h hx ?_ (.inl hstart) (.inl ?_) ?_ ?_
        · exact h.held.wait hx (by rw [hstart]; decide) rfl rfl rfl
        · rfl
        · rfl
        intro i
        constructor
        · intro hi
          refine ⟨hi, ?_⟩
          rintro rfl
          have := (h.dummy i x hx).mpr hi
          rw [hstart] at this
          cases this
        · intro hi
          exact hi.1
      · rw [length_set, length_set]
    · exact ⟨_, rfl, inv_same h hx rfl rfl rfl (fun _ _ => ⟨_, rfl⟩), length_set⟩
  · rw [if_pos hstart]
    exact ⟨d, rfl, h, rfl⟩

theorem addTimeout_ok (h : Inv hole d) (lastTimeout : τ) (hlt : pos < d.data.length) :
    ∃ d', d.addTimeout lastTimeout pos = some d' ∧ Inv hole d' ∧
      d'.data.length = d.data.length := by
  have hx := getElem?_eq_getElem hlt
  unfold addTimeout
  rw [hx]
  obtain ⟨d', hd', hinv, hlen⟩ := checkTimeout_ok
    (inv_same (y := { d.data[pos] with
      totalTimeout := d.data[pos].totalTimeout + lastTimeout, lastTimeout := lastTimeout }) h hx
      rfl rfl rfl fun q hq => ⟨q, hq⟩)
    (getElem?_set_self hlt)
  refine ⟨d', hd', hinv, ?_⟩
  rw [hlen]
  exact length_set

theorem addTimeouts_ok [DecidableEq τ] (h : Inv hole d) (pos : Nat) (lastTimeout : τ) :
    ∃ d', d.addTimeouts pos lastTimeout = some d' ∧ Inv hole d' ∧
      d'.data.length = d.data.length := by
  unfold addTimeouts
  split
  · exact ⟨d, rfl, h, rfl⟩
  have hall : ∀ i ∈ range' (pos + 1) (d.data.length - (pos + 1)), i < d.data.length := by
    intro i hi
    have := mem_range'_1.mp hi
    omega
  generalize range' (pos + 1) (d.data.length - (pos + 1)) = positions at hall
  induction positions generalizing d with
  | nil => exact ⟨d, rfl, h, rfl⟩
  | cons i positions ih =>
    obtain ⟨d1, hd1, hinv1, hlen1⟩ := addTimeout_ok h lastTimeout (hall i mem_cons_self)
    obtain ⟨d2, hd2, hinv2, hlen2⟩ := ih hinv1 (by
      intro j hj
      rw [hlen1]
      exact hall j (mem_cons_of_mem i hj))
    refine ⟨d2, ?_, hinv2, hlen2.trans hlen1⟩
    rw [foldlM_cons, hd1]
    exact hd2

/-- **A query that has to be sent again is not behind the cursor.** If it is of the current chain,
the cursor goes back. If it is not, the cursor has not passed it. -/
theorem doResend_ok (h : Inv (some pos) d) (hlt : pos < d.data.length) (query : NetQuery τ) :
    ∃ d', d.doResend pos query = some d' ∧ Inv none d' := by
  have hx := getElem?_eq_getElem hlt
  generalize d.data[pos] = x at hx
  have hdummy := inv_hole h hx
  unfold doResend
  rw [hx]
  dsimp only
  rw [if_neg (fun hne => hne hdummy)]
  have hheld : Held (d.data.set pos { x with state := .start, query := some query }) d.idOffset
      d.outstanding d.waitCnt :=
    h.held.other hx (by rw [hdummy]; decide) (by simp)
  have hnone : ∀ (i : Nat) (z : Data τ),
      (d.data.set pos { x with state := .start, query := some query })[i]? = some z →
      (z.state = .dummy ↔ none = some i) := by
    intro i z hz
    rw [hole_closed pos i]
    rcases getElem?_set_or hx hz with ⟨rfl, rfl⟩ | ⟨hne, hz⟩
    · simp
    · rw [h.dummy i z hz]
      exact ⟨fun hi => ⟨hi, hne⟩, fun hi => hi.1⟩
  have hnot : x.state ≠ .finish := by
    rw [hdummy]
    decide
  split
  · -- a new chain starts
    have hrestart : Inv none { d with
        data := d.data.set pos { x with state := .start, query := some query }
        nextI := d.finishI, generation := d.generation + 1, lastSentI := none } :=
      { held := hheld
        cursor := by
          refine (h.cursor.restart (d.generation + 1)).set hx ?_ ?_
          · intro hi
            exact absurd (h.cursor.finished pos x hi hx) hnot
          · intro hi hi'
            exact absurd hi' (not_lt.mpr hi)
        dummy := hnone
        query := forall_set hx h.query fun _ => ⟨query, rfl⟩
        lastSent := nofun
        timeout := h.timeout }
    obtain ⟨d', hd', hinv, -⟩ := checkTimeout_ok hrestart (getElem?_set_self hlt)
    exact ⟨d', hd', hinv⟩
  rename_i hgen
  have hnext := h.cursor.next_le_of hx hnot (.inr hgen)
  have hback : Inv none
      { d with data := d.data.set pos { x with state := .start, query := some query } } :=
    { held := hheld
      cursor := by
        refine h.cursor.set hx ?_ ?_
        · intro hi
          exact absurd (h.cursor.finished pos x hi hx) hnot
        · intro _ hi
          exact absurd hi (not_lt.mpr hnext)
      dummy := hnone
      query := forall_set hx h.query fun _ => ⟨query, rfl⟩
      lastSent := fun i hi => lt_of_lt_of_eq (h.lastSent i hi) length_set.symm
      timeout := h.timeout }
  obtain ⟨d', hd', hinv, -⟩ := checkTimeout_ok hback (getElem?_set_self hlt)
  exact ⟨d', hd', hinv⟩

theorem handleResult_ok [DecidableEq τ] (h : Inv (some pos) d) (hlt : pos < d.data.length)
    (query : NetQuery τ) : ∃ d', d.handleResult pos query = some d' ∧ Inv none d' := by
  obtain ⟨d1, hd1, hinv1, hlen1⟩ := addTimeouts_ok h pos query.lastTimeout
  have hlt1 : pos < d1.data.length := by omega
  unfold handleResult
  rw [hd1, Option.bind_some]
  split
  · exact doResend_ok hinv1 hlt1 _
  · exact tryResendQuery_ok hinv1 (getElem?_eq_getElem hlt1) query

end Timeout

section Loop

variable {d : SequenceDispatcher τ} {x : Data τ}

theorem skipFinished_ok (h : Inv none d) :
    Inv none { d.skipFinished with nextI := max d.nextI d.skipFinished.finishI } :=
  { h with cursor := h.cursor.skip }

theorem invokeAfter_ok (h : Inv none d) : ∃ after, d.invokeAfter = some after := by
  unfold invokeAfter
  cases hi : d.lastSentI with
  | none => exact ⟨none, rfl⟩
  | some i =>
    dsimp only
    rw [getElem?_eq_getElem (h.lastSent i hi)]
    exact ⟨_, rfl⟩

/-- The next query is sent in the current chain. -/
theorem sendNext_ok [Zero τ] (h : Inv none d) (hx : d.data[d.nextI]? = some x)
    (hstart : x.state = .start) :
    ∃ d', d.sendNext x = some d' ∧ Inv none d' ∧ d'.data.length = d.data.length ∧
      d'.nextI = d.nextI + 1 := by
  have hlt := (List.getElem?_eq_some_iff.mp hx).1
  obtain ⟨after, hafter⟩ := invokeAfter_ok h
  obtain ⟨query, hquery⟩ := h.query d.nextI x hx hstart
  unfold sendNext
  rw [hafter, hquery]
  refine ⟨_, rfl, ?_, length_set, rfl⟩
  constructor
  · exact h.held.wait hx (by rw [hstart]; decide) rfl rfl rfl
  · -- the entry is put behind the cursor after it was sent
    have hset : Cursor (d.data.set d.nextI
        { x with state := .wait, query := none, generation := d.generation })
        d.finishI d.nextI d.generation := by
      refine h.cursor.set hx ?_ ?_
      · intro hi
        exact absurd hi (not_lt.mpr h.cursor.finish_le)
      · intro _ hi
        exact absurd hi (lt_irrefl _)
    exact hset.next (getElem?_set_self hlt) (.inr ⟨by simp, rfl⟩)
  · exact forall_set hx h.dummy (by simp)
  · exact forall_set hx h.query nofun
  · intro i hi
    cases hi
    rw [length_set]
    exact hlt
  · exact h.timeout

/-- An entry that is neither sent nor finished is to be sent. -/
theorem inv_start (h : Inv none d) {i : Nat} (hx : d.data[i]? = some x) (hwait : x.state ≠ .wait)
    (hfinish : x.state ≠ .finish) : x.state = .start := by
  cases hs : x.state with
  | start => rfl
  | wait => exact absurd hs hwait
  | finish => exact absurd hs hfinish
  | dummy =>
    have := (h.dummy i x hx).mp hs
    cases this

/-- What ends the second loop. -/
def Stopped (d : SequenceDispatcher τ) : Prop :=
  maxSimultaneousWait ≤ d.waitCnt ∨ ∀ x, d.data[d.nextI]? = some x → x.state = .wait

/-- **The second loop runs to its end**, given as many rounds as there are queries. -/
theorem sendLoop_ok [Zero τ] (n : Nat) (h : Inv none d) (hn : d.data.length - d.nextI ≤ n) :
    ∃ d', sendLoop n d = some d' ∧ Inv none d' ∧ Stopped d' := by
  induction n generalizing d with
  | zero =>
    refine ⟨d, rfl, h, .inr ?_⟩
    intro x hx
    have := (List.getElem?_eq_some_iff.mp hx).1
    omega
  | succ n ih =>
    rw [sendLoop]
    cases hx : d.data[d.nextI]? with
    | none =>
      refine ⟨d, rfl, h, .inr ?_⟩
      intro x hx'
      rw [hx] at hx'
      cases hx'
    | some x =>
      dsimp only
      by_cases hstop : x.state = .wait ∨ maxSimultaneousWait ≤ d.waitCnt
      · rw [if_pos hstop]
        refine ⟨d, rfl, h, ?_⟩
        rcases hstop with hwait | hmax
        · refine .inr ?_
          intro x' hx'
          rw [hx] at hx'
          cases hx'
          exact hwait
        · exact .inl hmax
      rw [if_neg hstop]
      by_cases hfinish : x.state = .finish
      · rw [if_pos hfinish]
        exact ih (d := { d with nextI := d.nextI + 1 })
          { h with cursor := h.cursor.next hx (.inl hfinish) } (by dsimp only; omega)
      · rw [if_neg hfinish]
        have hstart := inv_start h hx (fun hw => hstop (.inl hw)) hfinish
        obtain ⟨d1, hd1, hinv1, hlen, hnext⟩ := sendNext_ok h hx hstart
        rw [hd1]
        exact ih hinv1 (by omega)

/-- The finished queries at the front go, and the tokens of the others stay what they are. -/
theorem tryShrink_ok (h : Inv none d) (hstop : Stopped d) :
    ∃ d', d.tryShrink = some d' ∧ Inv none d' ∧ Stopped d' := by
  have hle := h.cursor.finish_le
  unfold tryShrink
  by_cases hshrink : d.finishI * 2 > d.data.length ∧ d.data.length > 5
  · rw [if_pos hshrink]
    refine ⟨_, if_pos hle, ?_, ?_⟩
    · constructor
      · refine h.held.drop ?_
        intro i x hi hx
        rw [h.cursor.finished i x hi hx]
        decide
      · exact h.cursor.drop
      · intro i x hx
        rw [getElem?_drop] at hx
        rw [h.dummy _ x hx]
        constructor <;> intro hi <;> cases hi
      · intro i x hx
        rw [getElem?_drop] at hx
        exact h.query _ x hx
      · intro i hi
        obtain ⟨j, hj, hi⟩ := Option.bind_eq_some_iff.mp hi
        have := h.lastSent j hj
        split at hi
        · cases hi
          rw [length_drop]
          omega
        · cases hi
      · exact h.timeout
    · refine hstop.imp id ?_
      intro hnext x hx
      rw [getElem?_drop, Nat.add_sub_cancel' hle] at hx
      exact hnext x hx
  · rw [if_neg hshrink]
    exact ⟨d, rfl, h, hstop⟩

theorem setTimeout_ok (h : Inv none d) (hstop : Stopped d) :
    Inv none d.setTimeout ∧ Stopped d.setTimeout := by
  unfold setTimeout
  split
  · rename_i hparent
    exact ⟨{ h with timeout := fun _ => hparent.2 }, hstop⟩
  · exact ⟨h, hstop⟩

theorem loop_ok [Zero τ] (h : Inv none d) : ∃ d', d.loop = some d' ∧ Inv none d' ∧ Stopped d' := by
  obtain ⟨d1, hd1, hinv1, hstop1⟩ := sendLoop_ok _ (skipFinished_ok h) le_rfl
  obtain ⟨d2, hd2, hinv2, hstop2⟩ := tryShrink_ok hinv1 hstop1
  refine ⟨d2.setTimeout, ?_, setTimeout_ok hinv2 hstop2⟩
  unfold loop
  dsimp only
  have hloop : sendLoop (d.skipFinished.data.length - max d.nextI d.skipFinished.finishI)
      { d.skipFinished with nextI := max d.nextI d.skipFinished.finishI } = some d1 := hd1
  rw [show d.skipFinished.nextI = d.nextI from rfl, hloop, Option.bind_some, hd2]
  rfl

/-- What follows an answer: the loop. -/
theorem answer_ok [Zero τ] (h : Inv none d) {holder : Holder} {number : Nat}
    (hholds : d.Holds holder number)
    {f : SequenceDispatcher τ → Nat → Option (SequenceDispatcher τ)}
    (hf : ∀ d' pos, Inv (some pos) d' → pos < d'.data.length →
      ∃ d'', f d' pos = some d'' ∧ Inv none d'') :
    ∃ d', (((d.release holder number).dataFromToken number).bind fun (d, pos) => f d pos).bind
      loop = some d' ∧ Inv none d' ∧ Stopped d' := by
  obtain ⟨d1, pos, hd1, hinv1, hlt⟩ := dataFromToken_ok h hholds
  obtain ⟨d2, hd2, hinv2⟩ := hf d1 pos hinv1 hlt
  obtain ⟨d3, hd3, hinv3⟩ := loop_ok hinv2
  refine ⟨d3, ?_, hinv3⟩
  rw [hd1]
  show (f d1 pos).bind loop = some d3
  rw [hd2, Option.bind_some, hd3]

end Loop

/-! ## Runs -/

section Run

variable [Zero τ] [Add τ] [LT τ] [DecidableLT τ] [DecidableEq τ] {d : SequenceDispatcher τ}

/-- **No event that is allowed fails a check**, and it keeps what holds. -/
theorem step_ok (h : Inv none d) (hstop : Stopped d) {event : Event τ}
    (hallowed : d.Allowed event) : ∃ d', d.step event = some d' ∧ Inv none d' ∧ Stopped d' := by
  cases event with
  | sendWithCallback query callback =>
    refine loop_ok (d := { d with
      timeout := none, data := d.data ++ [⟨.start, query.id, some query, callback, 0, 0, 0⟩] }) ?_
    constructor
    · exact h.held.append (by simp)
    · exact h.cursor.append
    · intro i x hx
      rcases getElem?_concat_or hx with hx | rfl
      · exact h.dummy i x hx
      · simp
    · intro i x hx hstart
      rcases getElem?_concat_or hx with hx | rfl
      · exact h.query i x hx hstart
      · exact ⟨query, rfl⟩
    · intro i hi
      rw [length_append]
      exact Nat.lt_add_right _ (h.lastSent i hi)
    · intro ht
      cases ht
  | onResult number query =>
    exact answer_ok h hallowed fun d' pos hinv hlt => handleResult_ok hinv hlt query
  | onResendOk number query =>
    exact answer_ok h hallowed fun d' pos hinv hlt => doResend_ok hinv hlt query
  | onResendError number =>
    exact answer_ok h hallowed fun d' pos hinv hlt =>
      doFinish_ok hinv (getElem?_eq_getElem hlt)
  | loop => exact loop_ok h
  | timeoutExpired =>
    have hparent := h.timeout hallowed
    show ∃ d', d.timeoutExpired = some d' ∧ _
    unfold timeoutExpired
    split
    · exact ⟨_, rfl, { h with timeout := nofun }, hstop⟩
    · exact ⟨_, rfl, { h with timeout := fun _ => hparent }, hstop⟩

/-- The states of a dispatcher that was created with a parent or without one. -/
inductive Reachable : SequenceDispatcher τ → Prop
  | init (parent : Bool) : Reachable { parent }
  | step {d d' : SequenceDispatcher τ} (event : Event τ) (h : Reachable d)
      (hallowed : d.Allowed event) (hstep : d.step event = some d') : Reachable d'

theorem Reachable.inv (h : Reachable d) : Inv none d ∧ Stopped d := by
  induction h with
  | init parent =>
    constructor
    · exact ⟨⟨rfl, nodup_nil, nofun, nofun⟩, ⟨le_rfl, le_rfl, nofun, nofun⟩, nofun,
        nofun, nofun, nofun⟩
    · exact .inr nofun
  | step event _ hallowed hstep ih =>
    obtain ⟨d', hd', hinv⟩ := step_ok ih.1 ih.2 hallowed
    rw [hstep] at hd'
    cases hd'
    exact hinv

/-- **A dispatcher never strands or duplicates a query.** The counters are in order, a query before
`nextI` is finished or waits in the current chain, and the tokens that are outstanding are those of
the queries that wait. So whatever may happen fails no check. -/
theorem never_strands_or_duplicates (h : Reachable d) :
    d.finishI ≤ d.nextI ∧ d.nextI ≤ d.data.length ∧
    d.waitCnt = d.data.countP (fun x => x.state = .wait) ∧
    (∀ (i : Nat) (x : Data τ), d.finishI ≤ i → i < d.nextI → d.data[i]? = some x →
      x.state = .finish ∨ x.state = .wait ∧ x.generation = d.generation) ∧
    (∀ (i : Nat) (x : Data τ), d.data[i]? = some x → x.state = .wait →
      d.outstanding.countP (fun t => t.number = i + d.idOffset) = 1) ∧
    (∀ t ∈ d.outstanding, ∃ (i : Nat) (x : Data τ), d.data[i]? = some x ∧
      t.number = i + d.idOffset ∧ x.state = .wait ∧ x.netQueryRef = t.netQueryRef) ∧
    (maxSimultaneousWait ≤ d.waitCnt ∨
      ∀ x : Data τ, d.data[d.nextI]? = some x → x.state = .wait) ∧
    ∀ event, d.Allowed event → ∃ d', d.step event = some d' := by
  obtain ⟨hinv, hstop⟩ := h.inv
  refine ⟨hinv.cursor.finish_le, hinv.cursor.next_le, hinv.held.waitCnt, ?_, ?_, hinv.held.token,
    hstop, ?_⟩
  · intro i x hi hi' hx
    rcases hinv.cursor.sent i x hi hi' hx with hfinish | ⟨hstart, hgen⟩
    · exact .inl hfinish
    by_cases hfinish : x.state = .finish
    · exact .inl hfinish
    · refine .inr ⟨?_, hgen⟩
      by_contra hwait
      exact hstart (inv_start hinv hx hwait hfinish)
  · intro i x hx hwait
    exact countP_token hinv hx hwait
  · intro event hallowed
    obtain ⟨d', hd', -⟩ := step_ok hinv hstop hallowed
    exact ⟨d', hd'⟩

/-- A query is sent and has to be sent again, so it is in a new chain. -/
theorem never_strands_or_duplicates_resent :
    ∃ d : SequenceDispatcher Nat, d.generation = 2 ∧ d.waitCnt = 1 ∧ d.finishI ≤ d.nextI ∧
      ∀ event, d.Allowed event → ∃ d', d.step event = some d' := by
  let query : NetQuery Nat := ⟨7, none, 0, 60, 0, none⟩
  let failed : NetQuery Nat := ⟨7, some ⟨resendInvokeAfter, "", none⟩, 0, 60, 0, none⟩
  let sent generation : SequenceDispatcher Nat :=
    { parent := true
      data := [⟨.wait, 7, none, 0, generation, 0, 0⟩]
      nextI := 1
      lastSentI := some 0
      generation := generation
      waitCnt := 1
      outstanding := [⟨1, .network, 7, query⟩] }
  have h1 : Reachable (sent 1) :=
    .step (.sendWithCallback query 0) (.init true) trivial (by decide +kernel)
  have h2 : Reachable (sent 2) :=
    .step (.onResult 1 failed) h1 ⟨_, mem_singleton_self _, rfl, rfl⟩ (by decide +kernel)
  obtain ⟨hle, -, -, -, -, -, -, hstep⟩ := never_strands_or_duplicates h2
  exact ⟨_, rfl, rfl, hle, hstep⟩

end Run

end SequenceDispatcher

end Tdlib.Net
