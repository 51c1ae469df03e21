import Mathlib

/-!
# Changes that are finished in any order

A `ChangesProcessor` numbers what is added to it. The changes can be finished in
any order and are delivered in the order in which they were added. What has been
delivered is removed from time to time.

Everything is said about the list of all changes since the last `clear`, **as it
would be had nothing ever been removed**: the array is what is left of it, and the
changes that are delivered are its longest finished beginning.
-/

namespace Tdlib

open List Function

/-- Numbers are `size_t`. -/
structure ChangesProcessor (δ : Type) where
  offset : Nat
  readyI : Nat
  /-- The changes, with whether they are finished. -/
  dataArray : List (δ × Bool)
deriving DecidableEq

namespace ChangesProcessor

variable {δ : Type}

/-- One more than the last `size_t`. -/
def sizeLimit : Nat := 0x10000000000000000

def new : ChangesProcessor δ := ⟨1, 0, []⟩

def clear (c : ChangesProcessor δ) : ChangesProcessor δ :=
  ⟨(c.offset + c.dataArray.length) % sizeLimit, 0, []⟩

/-- With the token. -/
def add (c : ChangesProcessor δ) (data : δ) : ChangesProcessor δ × Nat :=
  ({ c with dataArray := c.dataArray ++ [(data, false)] },
    (c.offset + c.dataArray.length) % sizeLimit)

/-- The loop of `finish`: the changes that are delivered now. -/
def ready : List (δ × Bool) → List δ
  | (data, true) :: l => data :: ready l
  | _ => []

def tryCompactify (c : ChangesProcessor δ) : ChangesProcessor δ :=
  if c.readyI > 5 ∧ c.readyI * 2 > c.dataArray.length then
    ⟨(c.offset + c.readyI) % sizeLimit, 0, c.dataArray.drop c.readyI⟩
  else c

/-- With the changes that are delivered, in order. -/
def finish (c : ChangesProcessor δ) (token : Nat) : ChangesProcessor δ × List δ :=
  let pos := (token + sizeLimit - c.offset) % sizeLimit
  if pos ≥ c.dataArray.length then (c, [])
  else
    let dataArray := c.dataArray.modify pos fun a => (a.1, true)
    let delivered := ready (dataArray.drop c.readyI)
    (tryCompactify ⟨c.offset, c.readyI + delivered.length, dataArray⟩, delivered)

/-! ## All changes -/

/-- The processor holds what is left of the changes `all`: the first `base` of them were removed,
and the first `delivered` were delivered. The token of the first one was `start`. -/
structure Follows (start base delivered : Nat) (all : List (δ × Bool)) (c : ChangesProcessor δ) :
    Prop where
  array_eq : c.dataArray = all.drop base
  offset_eq : c.offset = (start + base) % sizeLimit
  ready_eq : base + c.readyI = delivered
  le_length : delivered ≤ all.length
  /-- What was delivered is finished. -/
  finished : ∀ i < delivered, ∃ data, all[i]? = some (data, true)
  /-- What could be delivered is delivered. -/
  waiting : ∀ a, all[delivered]? = some a → a.2 = false

variable {start base delivered i : Nat} {all : List (δ × Bool)} {c : ChangesProcessor δ}

theorem Follows.new : Follows 1 0 0 [] (.new : ChangesProcessor δ) where
  array_eq := rfl
  offset_eq := rfl
  ready_eq := rfl
  le_length := le_rfl
  finished _ h := absurd h (Nat.not_lt_zero _)
  waiting _ h := absurd h (by simp)

theorem Follows.base_le (h : Follows start base delivered all c) : base ≤ all.length := by
  have := h.ready_eq
  have := h.le_length
  omega

theorem Follows.add_ok (h : Follows start base delivered all c) (data : δ) :
    (c.add data).2 = (start + all.length) % sizeLimit ∧
      Follows start base delivered (all ++ [(data, false)]) (c.add data).1 := by
  have hbase := h.base_le
  constructor
  · show (c.offset + c.dataArray.length) % sizeLimit = _
    rw [h.array_eq, h.offset_eq, length_drop, Nat.mod_add_mod]
    congr 1
    omega
  exact {
    array_eq := by
      show c.dataArray ++ _ = _
      rw [h.array_eq, drop_append_of_le_length hbase]
    offset_eq := h.offset_eq
    ready_eq := h.ready_eq
    le_length := by
      have := h.le_length
      rw [length_append]
      omega
    finished := by
      intro i hi
      have := h.le_length
      rw [getElem?_append_left (by omega)]
      exact h.finished i hi
    waiting := by
      intro a ha
      by_cases hlt : delivered < all.length
      · rw [getElem?_append_left hlt] at ha
        exact h.waiting a ha
      · have hend : delivered = all.length := le_antisymm h.le_length (by omega)
        rw [hend, getElem?_concat_length] at ha
        cases ha
        rfl }

/-! ## Delivery -/

theorem ready_eq_take (l : List (δ × Bool)) : ready l = (l.take (ready l).length).map Prod.fst := by
  induction l with
  | nil => rfl
  | cons a l ih =>
    obtain ⟨data, finished⟩ := a
    cases finished with
    | false => rfl
    | true => exact congrArg (data :: ·) ih

theorem ready_finished (l : List (δ × Bool)) (h : i < (ready l).length) :
    ∃ data, l[i]? = some (data, true) := by
  induction l generalizing i with
  | nil => exact absurd h (Nat.not_lt_zero _)
  | cons a l ih =>
    obtain ⟨data, finished⟩ := a
    cases finished with
    | false => exact absurd h (Nat.not_lt_zero _)
    | true =>
      cases i with
      | zero => exact ⟨data, rfl⟩
      | succ i => exact ih (Nat.lt_of_succ_lt_succ h)

theorem ready_waiting (l : List (δ × Bool)) (a : δ × Bool) (h : l[(ready l).length]? = some a) :
    a.2 = false := by
  induction l with
  | nil => cases h
  | cons b l ih =>
    obtain ⟨data, finished⟩ := b
    cases finished with
    | false =>
      cases h
      rfl
    | true => exact ih h

theorem ready_le (l : List (δ × Bool)) : (ready l).length ≤ l.length := by
  induction l with
  | nil => exact le_rfl
  | cons a l ih =>
    obtain ⟨data, finished⟩ := a
    cases finished with
    | false => exact Nat.zero_le _
    | true => exact Nat.succ_le_succ ih

theorem Follows.compactify (h : Follows start base delivered all c) :
    ∃ base', Follows start base' delivered all c.tryCompactify := by
  unfold tryCompactify
  split
  · have hready := h.ready_eq
    refine ⟨base + c.readyI, { h with array_eq := ?_, offset_eq := ?_, ready_eq := hready }⟩
    · rw [h.array_eq, drop_drop]
    · rw [h.offset_eq, Nat.mod_add_mod, add_assoc]
  · exact ⟨base, h⟩

/-- The change is finished. -/
def mark (all : List (δ × Bool)) (i : Nat) : List (δ × Bool) := all.modify i fun a => (a.1, true)

theorem getElem?_mark (all : List (δ × Bool)) (i j : Nat) :
    (mark all i)[j]? = all[j]?.map fun a => (a.1, a.2 || decide (j = i)) := by
  rw [mark, getElem?_modify]
  cases all[j]? with
  | none => rfl
  | some a =>
    by_cases hj : j = i
    · simp [hj]
    · simp [hj, Ne.symm hj]

@[simp] theorem length_mark (all : List (δ × Bool)) (i : Nat) :
    (mark all i).length = all.length := by
  simp [mark]

/-- What has been delivered stays as it is. -/
theorem Follows.mark_eq (h : Follows start base delivered all c) (hi : i < delivered) :
    mark all i = all := by
  refine ext_getElem? fun j => ?_
  rw [getElem?_mark]
  by_cases hj : j = i
  · obtain ⟨data, hdata⟩ := h.finished i hi
    rw [hj, hdata]
    simp
  · simp [hj]

theorem drop_mark (all : List (δ × Bool)) (h : base ≤ i) :
    ((all.drop base).modify (i - base) fun a => (a.1, true)) = (mark all i).drop base := by
  refine ext_getElem? fun j => ?_
  rw [getElem?_drop, getElem?_mark, getElem?_modify, getElem?_drop]
  cases all[base + j]? with
  | none => rfl
  | some a =>
    by_cases hj : base + j = i
    · simp [hj, show i - base = j by omega]
    · simp [hj, show ¬ i - base = j by omega]

/-- The changes that are ready are delivered. -/
theorem Follows.deliver (h : Follows start base delivered all c) (i : Nat) :
    Follows start base (delivered + (ready ((mark all i).drop delivered)).length) (mark all i)
      ⟨c.offset, c.readyI + (ready ((mark all i).drop delivered)).length,
        (mark all i).drop base⟩ where
  array_eq := rfl
  offset_eq := h.offset_eq
  ready_eq := by
    rw [← h.ready_eq]
    exact (add_assoc ..).symm
  le_length := by
    have hle := ready_le ((mark all i).drop delivered)
    have := h.le_length
    rw [length_drop, length_mark] at hle
    rw [length_mark]
    omega
  finished j hj := by
    by_cases hbefore : j < delivered
    · obtain ⟨data, hdata⟩ := h.finished j hbefore
      exact ⟨data, by simp [getElem?_mark, hdata]⟩
    · obtain ⟨data, hdata⟩ := ready_finished ((mark all i).drop delivered)
        (show j - delivered < _ by omega)
      rw [getElem?_drop, Nat.add_sub_cancel' (by omega)] at hdata
      exact ⟨data, hdata⟩
  waiting a ha := by
    rw [← getElem?_drop] at ha
    exact ready_waiting _ a ha

section

variable (h : Follows start base delivered all c) (hi : i < all.length)
  (hlen : all.length ≤ sizeLimit)
include h hi hlen

/-- The place of a change in the array. -/
theorem Follows.pos_eq :
    ((start + i) % sizeLimit + sizeLimit - c.offset) % sizeLimit
      = if base ≤ i then i - base else sizeLimit + i - base := by
  have hbase := h.base_le
  rw [h.offset_eq]
  unfold sizeLimit at *
  split <;> omega

/-- **A finished change sets free everything behind it that was finished before.** -/
theorem Follows.finish_ok :
    ∃ base' delivered', delivered ≤ delivered' ∧
      Follows start base' delivered' (mark all i) (c.finish ((start + i) % sizeLimit)).1 ∧
      (c.finish ((start + i) % sizeLimit)).2
        = (((mark all i).take delivered').drop delivered).map Prod.fst := by
  have hbase := h.base_le
  have hready := h.ready_eq
  unfold finish
  rw [h.pos_eq hi hlen]
  by_cases hstale : base ≤ i
  · rw [if_pos hstale, if_neg (by rw [h.array_eq, length_drop]; omega)]
    dsimp only
    have harray : (c.dataArray.modify (i - base) fun a => (a.1, true)) =
      (mark all i).drop base := by
      rw [h.array_eq]
      exact drop_mark all hstale
    have hdrop : ((mark all i).drop base).drop c.readyI = (mark all i).drop delivered := by
      rw [drop_drop, hready]
    rw [harray, hdrop]
    obtain ⟨base', hfollows⟩ := (h.deliver i).compactify
    refine ⟨base', _, Nat.le_add_right .., hfollows, ?_⟩
    rw [drop_take, Nat.add_sub_cancel_left]
    exact ready_eq_take _
  · -- the change was removed long ago
    rw [if_neg hstale, if_pos (by rw [h.array_eq, length_drop]; omega), h.mark_eq (by omega)]
    exact ⟨base, delivered, le_rfl, h, by simp⟩

end

/-! ## What is still to be delivered -/

/-- The changes that have not been delivered. -/
def undelivered (c : ChangesProcessor δ) : List δ := (c.dataArray.drop c.readyI).map Prod.fst

section

variable (h : c.readyI ≤ c.dataArray.length)
include h

theorem undelivered_add (data : δ) :
    (c.add data).1.undelivered = c.undelivered ++ [data] ∧
      (c.add data).1.readyI ≤ (c.add data).1.dataArray.length := by
  constructor
  · show ((c.dataArray ++ [(data, false)]).drop c.readyI).map Prod.fst = _
    rw [drop_append_of_le_length h, map_append]
    rfl
  · show c.readyI ≤ (c.dataArray ++ [(data, false)]).length
    rw [length_append]
    omega

theorem undelivered_compactify :
    c.tryCompactify.undelivered = c.undelivered ∧
      c.tryCompactify.readyI ≤ c.tryCompactify.dataArray.length := by
  unfold tryCompactify
  split
  · exact ⟨rfl, Nat.zero_le _⟩
  · exact ⟨rfl, h⟩

/-- **Whatever is finished, what is delivered are the first changes that were not**: also when the
token is none of ours. -/
theorem undelivered_finish (token : Nat) :
    c.undelivered = (c.finish token).2 ++ (c.finish token).1.undelivered ∧
      (c.finish token).1.readyI ≤ (c.finish token).1.dataArray.length := by
  unfold finish
  dsimp only
  split
  · exact ⟨rfl, h⟩
  generalize (token + sizeLimit - c.offset) % sizeLimit = i
  have hmark : ((mark c.dataArray i).drop c.readyI).map Prod.fst = c.undelivered := by
    rw [undelivered]
    refine ext_getElem? fun j => ?_
    rw [getElem?_map, getElem?_map, getElem?_drop, getElem?_drop, getElem?_mark, Option.map_map]
    rfl
  have hready := ready_le ((mark c.dataArray i).drop c.readyI)
  rw [length_drop] at hready
  have hle : c.readyI + (ready ((mark c.dataArray i).drop c.readyI)).length ≤
      (mark c.dataArray i).length := by
    rw [length_mark] at hready ⊢
    omega
  obtain ⟨heq, hle'⟩ := undelivered_compactify (c := ⟨c.offset,
    c.readyI + (ready ((mark c.dataArray i).drop c.readyI)).length, mark c.dataArray i⟩) hle
  refine ⟨?_, hle'⟩
  have hsplit : ready ((mark c.dataArray i).drop c.readyI) ++
      ((mark c.dataArray i).drop (c.readyI +
        (ready ((mark c.dataArray i).drop c.readyI)).length)).map Prod.fst = c.undelivered := by
    nth_rewrite 1 [ready_eq_take]
    rw [← hmark, ← drop_drop, ← map_append, take_append_drop]
  exact (hsplit.symm).trans (congrArg (ready ((mark c.dataArray i).drop c.readyI) ++ ·) heq.symm)

end

/-! ## All calls -/

inductive Call (δ : Type) where
  | add (data : δ)
  | finish (token : UInt64)
  | clear

/-- A processor, with the tokens it has returned and the changes it has delivered. -/
structure Outcome (δ : Type) where
  processor : ChangesProcessor δ := .new
  tokens : List Nat := []
  delivered : List δ := []

def Outcome.step (o : Outcome δ) : Call δ → Outcome δ
  | .add data =>
    let (c, token) := o.processor.add data
    { o with processor := c, tokens := o.tokens ++ [token] }
  | .finish token =>
    let (c, delivered) := o.processor.finish token.toNat
    { o with processor := c, delivered := o.delivered ++ delivered }
  | .clear => { o with processor := o.processor.clear }

def runCalls (calls : List (Call δ)) : Outcome δ := calls.foldl Outcome.step {}

/-- What calls mean, without an array that is cut. A change is known by its number. -/
structure History (δ : Type) where
  /-- Everything that was ever added. -/
  items : List δ := []
  /-- How much of it had been added before the last `clear`. -/
  first : Nat := 0
  finished : Nat → Bool := fun _ => false
  /-- What had been delivered before the last `clear`. -/
  past : List Nat := []

namespace History

/-- What was added since the last `clear` is delivered up to the first change that is not
finished. -/
def current (h : History δ) : List Nat :=
  (range' h.first (h.items.length - h.first)).takeWhile h.finished

/-- Everything that was delivered. -/
def deliveries (h : History δ) : List Nat := h.past ++ h.current

/-- The token is that of a change since the last `clear`. -/
def Known (h : History δ) (token : UInt64) : Prop :=
  h.first < token.toNat ∧ token.toNat ≤ h.items.length

instance (h : History δ) (token : UInt64) : Decidable (h.Known token) :=
  inferInstanceAs (Decidable (_ ∧ _))

def step (h : History δ) : Call δ → History δ
  | .add data => { h with items := h.items ++ [data] }
  | .finish token =>
    if h.Known token then
      { h with finished := update h.finished (token.toNat - 1) true }
    else h
  | .clear => { h with first := h.items.length, past := h.deliveries }

def ofCalls (calls : List (Call δ)) : History δ := calls.foldl step {}

/-- The changes since the last `clear`, with whether they are finished. -/
def changes (h : History δ) : List (δ × Bool) :=
  (h.items.drop h.first).mapIdx fun i data => (data, h.finished (h.first + i))

theorem getElem?_changes (h : History δ) (i : Nat) :
    h.changes[i]? = h.items[h.first + i]?.map fun data => (data, h.finished (h.first + i)) := by
  rw [changes, getElem?_mapIdx, getElem?_drop]

theorem length_changes (h : History δ) : h.changes.length = h.items.length - h.first := by
  rw [changes, length_mapIdx, length_drop]

theorem map_fst_changes (h : History δ) : h.changes.map Prod.fst = h.items.drop h.first := by
  refine ext_getElem? fun i => ?_
  rw [getElem?_map, getElem?_changes, getElem?_drop, Option.map_map]
  exact Option.map_id_apply

theorem changes_update (h : History δ) (i : Nat) :
    { h with finished := update h.finished (h.first + i) true }.changes =
      mark h.changes i := by
  refine ext_getElem? fun j => ?_
  rw [getElem?_mark, getElem?_changes, getElem?_changes, Option.map_map]
  congr 1
  funext data
  by_cases hj : j = i
  · subst hj
    simp
  · simp [hj]

end History

/-- A run of numbers is cut where something stops holding. -/
theorem takeWhile_range' {p : Nat → Bool} {a k n : Nat} (hk : k ≤ n)
    (hbelow : ∀ i < k, p (a + i) = true) (hstop : k < n → p (a + k) = false) :
    (range' a n).takeWhile p = range' a k := by
  obtain ⟨m, rfl⟩ := Nat.exists_eq_add_of_le hk
  rw [← range'_append_1, takeWhile_append_of_pos]
  · cases m with
    | zero => rw [range'_zero, takeWhile_nil, append_nil]
    | succ m =>
      rw [range'_succ, takeWhile_cons_of_neg, append_nil]
      rw [hstop (by omega)]
      exact nofun
  · intro i hi
    rw [mem_range'_1] at hi
    have := hbelow (i - a) (by omega)
    rwa [Nat.add_sub_cancel' hi.1] at this

theorem filterMap_range' (l : List δ) (a k : Nat) :
    (range' a k).filterMap (fun i => l[i]?) = (l.drop a).take k := by
  induction k generalizing a with
  | zero => rfl
  | succ k ih =>
    rw [range'_succ]
    cases ha : l[a]? with
    | none =>
      rw [filterMap_cons_none ha, ih]
      rw [getElem?_eq_none_iff] at ha
      rw [drop_of_length_le ha, drop_of_length_le (by omega), take_nil, take_nil]
    | some data =>
      obtain ⟨hlt, hdata⟩ := List.getElem?_eq_some_iff.mp ha
      rw [filterMap_cons_some ha, ih, drop_eq_getElem_cons hlt, take_succ_cons, hdata]

/-- The processor does what the calls mean. -/
structure Agrees (h : History δ) (o : Outcome δ) : Prop where
  /-- Since the last `clear`, the deliveries are the finished changes at the front. -/
  follows : ∃ base delivered, Follows (1 + h.first) base delivered h.changes o.processor
  first_le : h.first ≤ h.items.length
  unfinished : ∀ i, h.items.length ≤ i → h.finished i = false
  tokens_eq : o.tokens = range' 1 h.items.length
  delivered_eq : o.delivered = h.deliveries.filterMap fun i => h.items[i]?
  /-- What was delivered before it is older. -/
  past_lt : ∀ i ∈ h.past, i < h.first
  sorted : h.past.Pairwise (· < ·)

variable {h : History δ} {o : Outcome δ}

theorem Follows.current_eq (hf : Follows (1 + h.first) base delivered h.changes c) :
    h.current = range' h.first delivered := by
  have hle := hf.le_length
  rw [h.length_changes] at hle
  refine takeWhile_range' hle ?_ ?_
  · intro i hi
    obtain ⟨data, hdata⟩ := hf.finished i hi
    rw [h.getElem?_changes] at hdata
    obtain ⟨_, -, heq⟩ := Option.map_eq_some_iff.mp hdata
    exact congrArg Prod.snd heq
  intro hlt
  obtain ⟨data, hget⟩ : ∃ data, h.items[h.first + delivered]? = some data :=
    ⟨_, getElem?_eq_getElem (show h.first + delivered < _ by omega)⟩
  refine hf.waiting (data, h.finished (h.first + delivered)) ?_
  rw [h.getElem?_changes, hget]
  rfl

/-! ## Every call -/

theorem Follows.clear_ok (h : Follows start base delivered all c) :
    Follows (start + all.length) 0 0 [] c.clear where
  array_eq := rfl
  offset_eq := by
    have hbase := h.base_le
    show (c.offset + c.dataArray.length) % sizeLimit = _
    rw [h.array_eq, h.offset_eq, length_drop, Nat.mod_add_mod]
    congr 1
    omega
  ready_eq := rfl
  le_length := le_rfl
  finished _ hi := absurd hi (Nat.not_lt_zero _)
  waiting _ ha := absurd ha (by simp)

/-- A token of no change in the array is ignored. -/
theorem Follows.finish_stale (h : Follows start base delivered all c) (token : Nat)
    (htoken : token < sizeLimit) (hstale : ∀ i < all.length, token ≠ (start + i) % sizeLimit) :
    c.finish token = (c, []) := by
  refine if_pos ?_
  by_contra hlt
  rw [h.array_eq, length_drop, h.offset_eq] at hlt
  -- otherwise the token is that of the change in this place
  refine hstale (base + (token + sizeLimit - (start + base) % sizeLimit) % sizeLimit) (by omega) ?_
  unfold sizeLimit at *
  omega

namespace Agrees

variable {h : History δ} {o : Outcome δ}

theorem deliveries_eq (ha : Agrees h o)
    (hf : Follows (1 + h.first) base delivered h.changes o.processor) :
    o.delivered = (h.past.filterMap fun i => h.items[i]?) ++
      (h.items.drop h.first).take delivered := by
  rw [ha.delivered_eq, History.deliveries, hf.current_eq, filterMap_append, filterMap_range']

theorem add (ha : Agrees h o) (data : δ) (hlimit : h.items.length + 1 < sizeLimit) :
    Agrees (h.step (.add data)) (o.step (.add data)) := by
  obtain ⟨base, delivered, hf⟩ := ha.follows
  have hfirst := ha.first_le
  obtain ⟨htoken, hf'⟩ := hf.add_ok data
  have hchanges : { h with items := h.items ++ [data] }.changes = h.changes ++ [(data, false)] := by
    unfold History.changes
    rw [drop_append_of_le_length hfirst, mapIdx_concat, length_drop,
      Nat.add_sub_cancel' hfirst, ha.unfinished _ le_rfl]
  have hf'' : Follows (1 + h.first) base delivered { h with items := h.items ++ [data] }.changes
      (o.processor.add data).1 := by
    rw [hchanges]
    exact hf'
  refine ⟨⟨base, delivered, hf''⟩, ?_, ?_, ?_, ?_, ha.past_lt, ha.sorted⟩
  · show h.first ≤ (h.items ++ [data]).length
    rw [length_append]
    omega
  · intro i hi
    have hi : (h.items ++ [data]).length ≤ i := hi
    rw [length_append] at hi
    exact ha.unfinished i (by omega)
  · show o.tokens ++ [(o.processor.add data).2] = range' 1 (h.items ++ [data]).length
    rw [htoken, h.length_changes, ha.tokens_eq, length_append, length_singleton,
      range'_concat, Nat.mod_eq_of_lt (by omega)]
    congr 2
    omega
  show o.delivered = (History.deliveries _).filterMap _
  rw [ha.deliveries_eq hf, History.deliveries, hf''.current_eq, filterMap_append, filterMap_range']
  have hle := hf.le_length
  rw [h.length_changes] at hle
  congr 1
  · refine filterMap_congr fun i hi => ?_
    have := ha.past_lt i hi
    exact (getElem?_append_left (by omega)).symm
  · show _ = ((h.items ++ [data]).drop h.first).take delivered
    rw [drop_append_of_le_length hfirst, take_append_of_le_length]
    rw [length_drop]
    exact hle

theorem sorted_deliveries (ha : Agrees h o) : h.deliveries.Pairwise (· < ·) := by
  obtain ⟨base, delivered, hf⟩ := ha.follows
  rw [History.deliveries, hf.current_eq]
  refine pairwise_append.mpr ⟨ha.sorted, pairwise_lt_range', ?_⟩
  intro i hi j hj
  have := ha.past_lt i hi
  rw [mem_range'_1] at hj
  omega

theorem clear (ha : Agrees h o) : Agrees (h.step .clear) (o.step .clear) := by
  obtain ⟨base, delivered, hf⟩ := ha.follows
  have hfirst := ha.first_le
  have hle := hf.le_length
  rw [h.length_changes] at hle
  have hchanges : ({ h with first := h.items.length, past := h.deliveries } : History δ).changes =
      [] := by
    unfold History.changes
    rw [drop_length, mapIdx_nil]
  have hf' : Follows (1 + h.items.length) 0 0
      ({ h with first := h.items.length, past := h.deliveries } : History δ).changes
      o.processor.clear := by
    have := hf.clear_ok
    rw [h.length_changes, show 1 + h.first + (h.items.length - h.first) = 1 + h.items.length by
      omega] at this
    rw [hchanges]
    exact this
  have hpast : h.deliveries = h.past ++ range' h.first delivered := by
    rw [History.deliveries, hf.current_eq]
  refine ⟨⟨0, 0, hf'⟩, le_rfl, ha.unfinished, ha.tokens_eq, ?_, ?_, ha.sorted_deliveries⟩
  · show o.delivered = filterMap _ (_ ++ History.current _)
    rw [hf'.current_eq, range'_zero, append_nil]
    exact ha.delivered_eq
  · intro i hi
    have hi : i ∈ h.deliveries := hi
    show i < h.items.length
    rw [hpast, mem_append, mem_range'_1] at hi
    rcases hi with hi | hi
    · have := ha.past_lt i hi
      omega
    · omega

theorem finish (ha : Agrees h o) (token : UInt64) (hlimit : h.items.length < sizeLimit) :
    Agrees (h.step (.finish token)) (o.step (.finish token)) := by
  obtain ⟨base, delivered, hf⟩ := ha.follows
  have hfirst := ha.first_le
  have hlength := h.length_changes
  by_cases hknown : h.Known token
  · obtain ⟨hgt, hle⟩ := hknown
    obtain ⟨i, hi⟩ : ∃ i, token.toNat = 1 + h.first + i := Nat.exists_eq_add_of_le (by omega)
    have htoken : (1 + h.first + i) % sizeLimit = token.toNat := by
      rw [← hi]
      exact Nat.mod_eq_of_lt token.toNat_lt
    obtain ⟨base', delivered', hmore, hf', hout⟩ := hf.finish_ok (i := i) (by omega) (by omega)
    rw [htoken] at hf' hout
    have hstep : h.step (.finish token) =
        { h with finished := update h.finished (h.first + i) true } := by
      show (if h.Known token then _ else _) = _
      rw [if_pos ⟨hgt, hle⟩, show token.toNat - 1 = h.first + i by omega]
    rw [hstep]
    rw [← h.changes_update i] at hf' hout
    refine ⟨⟨base', delivered', hf'⟩, hfirst, ?_, ha.tokens_eq, ?_, ha.past_lt, ha.sorted⟩
    · intro j hj
      have hj : h.items.length ≤ j := hj
      show update h.finished (h.first + i) true j = false
      rw [update_of_ne (by omega)]
      exact ha.unfinished j hj
    show o.delivered ++ (o.processor.finish token.toNat).2 = (History.deliveries _).filterMap _
    rw [hout, ha.deliveries_eq hf, History.deliveries, hf'.current_eq, filterMap_append,
      filterMap_range', append_assoc]
    congr 1
    rw [map_drop, map_take, History.map_fst_changes]
    have hsplit := take_append_drop delivered ((h.items.drop h.first).take delivered')
    rw [take_take, Nat.min_eq_left hmore] at hsplit
    exact hsplit
  · have hstale := hf.finish_stale token.toNat token.toNat_lt (by
      intro i hi heq
      rw [Nat.mod_eq_of_lt (by omega)] at heq
      exact hknown ⟨by omega, by omega⟩)
    have hstep : h.step (.finish token) = h := if_neg hknown
    have hout : o.step (.finish token) = o := by
      show { o with
        processor := (o.processor.finish token.toNat).1
        delivered := o.delivered ++ (o.processor.finish token.toNat).2 } = o
      rw [hstale, append_nil]
    rw [hstep, hout]
    exact ha

end Agrees

namespace History

theorem ofCalls_concat (calls : List (Call δ)) (call : Call δ) :
    ofCalls (calls ++ [call]) = (ofCalls calls).step call := by
  unfold ofCalls
  rw [foldl_append]
  rfl

theorem length_items_step (h : History δ) (call : Call δ) :
    h.items.length ≤ (h.step call).items.length := by
  cases call with
  | add data =>
    show h.items.length ≤ (h.items ++ [data]).length
    rw [length_append]
    omega
  | finish token =>
    show h.items.length ≤ (if h.Known token then _ else h).items.length
    split <;> exact le_rfl
  | clear => exact le_rfl

/-- A token of a change that was delivered or cleared, or of none. -/
def Stale (h : History δ) (token : UInt64) : Prop :=
  ∀ i, token.toNat = i + 1 → i < h.first ∨ i ∈ h.deliveries ∨ h.items.length ≤ i

end History

theorem runCalls_concat (calls : List (Call δ)) (call : Call δ) :
    runCalls (calls ++ [call]) = (runCalls calls).step call := by
  unfold runCalls
  rw [foldl_append]
  rfl

theorem agrees_runCalls (calls : List (Call δ))
    (hlimit : (History.ofCalls calls).items.length < sizeLimit) :
    Agrees (History.ofCalls calls) (runCalls calls) := by
  induction calls using reverseRecOn with
  | nil =>
    exact ⟨⟨0, 0, .new⟩, le_rfl, fun _ _ => rfl, rfl, rfl,
      forall_mem_nil _, .nil⟩
  | append_singleton calls call ih =>
    rw [History.ofCalls_concat] at hlimit ⊢
    rw [runCalls_concat]
    have hbefore := lt_of_le_of_lt ((History.ofCalls calls).length_items_step call) hlimit
    have hagrees := ih hbefore
    cases call with
    | add data =>
      refine hagrees.add data ?_
      have hlimit : ((History.ofCalls calls).items ++ [data]).length < sizeLimit := hlimit
      rwa [length_append] at hlimit
    | finish token => exact hagrees.finish token hbefore
    | clear => exact hagrees.clear

/-- What is delivered since the last `clear`. -/
theorem Agrees.mem_deliveries (ha : Agrees h o) (hi : h.first ≤ i) :
    i ∈ h.deliveries ↔
      i < h.items.length ∧ ∀ j, h.first ≤ j → j ≤ i → h.finished j = true := by
  obtain ⟨base, delivered, hf⟩ := ha.follows
  have hfinished : ∀ j, j < delivered → h.finished (h.first + j) = true := by
    intro j hj
    obtain ⟨data, hdata⟩ := hf.finished j hj
    rw [h.getElem?_changes] at hdata
    obtain ⟨_, -, heq⟩ := Option.map_eq_some_iff.mp hdata
    exact congrArg Prod.snd heq
  have hle := hf.le_length
  rw [h.length_changes] at hle
  rw [History.deliveries, hf.current_eq, mem_append, mem_range'_1]
  constructor
  · rintro (hpast | ⟨-, hlt⟩)
    · exact absurd (ha.past_lt i hpast) (by omega)
    · refine ⟨by omega, ?_⟩
      intro j hj hji
      have := hfinished (j - h.first) (by omega)
      rwa [Nat.add_sub_cancel' hj] at this
  rintro ⟨hlt, hall⟩
  refine .inr ⟨hi, ?_⟩
  by_contra hge
  -- the first change that is not delivered is not finished
  obtain ⟨data, hget⟩ : ∃ data, h.items[h.first + delivered]? = some data :=
    ⟨_, getElem?_eq_getElem (show h.first + delivered < _ by omega)⟩
  have hnot : h.finished (h.first + delivered) = false := by
    refine hf.waiting (data, h.finished (h.first + delivered)) ?_
    rw [h.getElem?_changes, hget]
    rfl
  rw [hall _ (by omega) (by omega)] at hnot
  cases hnot

theorem Agrees.step_stale (ha : Agrees h o) {token : UInt64} (hstale : h.Stale token) :
    h.step (.finish token) = h := by
  show (if h.Known token then _ else h) = h
  split
  · rename_i hknown
    obtain ⟨hgt, hle⟩ := hknown
    have hdelivered : token.toNat - 1 ∈ h.deliveries := by
      rcases hstale (token.toNat - 1) (by omega) with hlt | hmem | hge
      · omega
      · exact hmem
      · omega
    have hfinished : h.finished (token.toNat - 1) = true :=
      ((ha.mem_deliveries (by omega)).mp hdelivered).2 _ (by omega) le_rfl
    have hsame : update h.finished (token.toNat - 1) true = h.finished := by
      rw [← hfinished, update_eq_self]
    rw [hsame]
  · rfl

/-- **Every change is delivered at most once and in order, as soon as everything before it since the
last `clear` is finished.** Tokens are not used again, and a token that is stale does nothing. -/
theorem changes_in_order (calls : List (Call δ))
    (hlimit : (History.ofCalls calls).items.length < sizeLimit) :
    let h := History.ofCalls calls
    (runCalls calls).tokens = range' 1 h.items.length ∧
      (runCalls calls).delivered = (h.deliveries.filterMap fun i => h.items[i]?) ∧
      h.deliveries.Pairwise (· < ·) ∧
      (∀ i, h.first ≤ i → (i ∈ h.deliveries ↔
        i < h.items.length ∧ ∀ j, h.first ≤ j → j ≤ i → h.finished j = true)) ∧
      ∀ token later, h.Stale token →
        (History.ofCalls (calls ++ later)).items.length < sizeLimit →
        (runCalls (calls ++ .finish token :: later)).tokens = (runCalls (calls ++ later)).tokens ∧
          (runCalls (calls ++ .finish token :: later)).delivered =
            (runCalls (calls ++ later)).delivered := by
  have ha := agrees_runCalls calls hlimit
  refine ⟨ha.tokens_eq, ha.delivered_eq, ha.sorted_deliveries, fun i hi => ha.mem_deliveries hi, ?_⟩
  intro token later hstale hlater
  have hsame : History.ofCalls (calls ++ .finish token :: later) =
      History.ofCalls (calls ++ later) := by
    have hstep := ha.step_stale hstale
    unfold History.ofCalls at hstep ⊢
    rw [foldl_append, foldl_cons, foldl_append, hstep]
  have hwith := agrees_runCalls (calls ++ .finish token :: later) (hsame ▸ hlater)
  have hwithout := agrees_runCalls (calls ++ later) hlater
  rw [hsame] at hwith
  exact ⟨hwith.tokens_eq.trans hwithout.tokens_eq.symm,
    hwith.delivered_eq.trans hwithout.delivered_eq.symm⟩

/-- Two changes are finished in the other order, and the first token twice. -/
theorem changes_in_order_two :
    (runCalls [.add 10, .add 20, .finish 2, .finish 1, .finish 1]).delivered = [10, 20] ∧
      (runCalls [.add 10, .add 20, .finish 2, .finish 1, .finish 1]).tokens = [1, 2] := by
  have h := changes_in_order [.add 10, .add 20, .finish 2, .finish 1, .finish 1] (by decide)
  exact ⟨h.2.1, h.1⟩

/-- After so many changes, each of them cleared. -/
theorem runCalls_cleared (k : Nat) :
    runCalls (replicate k [Call.add (), Call.clear]).flatten =
      { processor := ⟨(1 + k) % sizeLimit, 0, []⟩
        tokens := (range k).map fun i => (1 + i) % sizeLimit } := by
  induction k with
  | zero => rfl
  | succ k ih =>
    have hsplit : (replicate (k + 1) [Call.add (), Call.clear]).flatten =
        (replicate k [Call.add (), Call.clear]).flatten ++ [.add ()] ++ [.clear] := by
      rw [replicate_succ', flatten_concat, append_assoc]
      rfl
    rw [hsplit, runCalls_concat, runCalls_concat, ih, range_succ, map_append]
    have hoffset : ((1 + k) % sizeLimit + 1) % sizeLimit = (1 + (k + 1)) % sizeLimit := by
      rw [Nat.mod_add_mod]
      rfl
    have htoken : ((1 + k) % sizeLimit + 0) % sizeLimit = (1 + k) % sizeLimit := Nat.mod_mod _ _
    show Outcome.mk ⟨((1 + k) % sizeLimit + 1) % sizeLimit, 0, []⟩
      (_ ++ [((1 + k) % sizeLimit + 0) % sizeLimit]) [] = _
    rw [hoffset, htoken]
    rfl

/-- The tokens have 64 bits. -/
theorem tokens_run_out : ∃ calls : List (Call Unit), ¬(runCalls calls).tokens.Nodup := by
  have hwrap : ∀ limit, sizeLimit = limit → 0 < limit →
      ¬(runCalls (replicate (limit + 1) [Call.add (), Call.clear]).flatten).tokens.Nodup := by
    intro limit hlimit hpos hnodup
    rw [runCalls_cleared, hlimit] at hnodup
    have heq : 0 = limit := inj_on_of_nodup_map hnodup (mem_range.mpr (Nat.succ_pos _))
      (mem_range.mpr (Nat.lt_succ_self _)) (Nat.add_mod_right 1 limit).symm
    omega
  exact ⟨_, hwrap sizeLimit rfl (by decide)⟩

end ChangesProcessor

end Tdlib
