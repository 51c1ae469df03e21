import Mathlib

/-!
# Ordered events

`OrderedEventsProcessor` puts numbered events back into order. An event with the
next number is handed on at once, together with those after it that had come
earlier; any other event waits in an array. The array is cut from time to time,
and its slot zero then stands for a later number.

What it is for is said by `InOrder`: of all that has arrived, exactly the events
up to the first missing number have been handed on. Each `add` keeps it and hands
on the next stretch (`InOrder.add`).
-/

namespace Tdlib

open List

/-- The vector holds the events that wait, and whether a slot is in use. -/
structure OrderedEventsProcessor (α : Type) where
  offset : UInt64
  beginNo : UInt64
  endNo : UInt64
  dataArray : List (α × Bool)
deriving DecidableEq

namespace OrderedEventsProcessor

variable {α : Type}

def new (offset : UInt64) : OrderedEventsProcessor α := ⟨offset, offset, offset, []⟩

/-- The loop of `add`, with the events it hands on. It makes at most `end_ - begin_` passes, and
`none` is a read outside of the array. -/
def releaseLoop : Nat → OrderedEventsProcessor α →
    Option (OrderedEventsProcessor α × List (UInt64 × α))
  | 0, p => some (p, [])
  | passes + 1, p =>
    if p.beginNo < p.endNo then
      let pos := (p.beginNo - p.offset).toNat
      match p.dataArray[pos]? with
      | none => none
      | some (_, false) => some (p, [])
      | some (data, true) =>
        (releaseLoop passes { p with
          dataArray := p.dataArray.set pos (data, false)
          beginNo := p.beginNo + 1 }).map fun (q, rest) => (q, (p.beginNo, data) :: rest)
    else some (p, [])

/-- The first two tests after the loop: the bounds meet again, and slot zero moves up to them. -/
def meet (p : OrderedEventsProcessor α) : OrderedEventsProcessor α :=
  if p.beginNo > p.endNo then { p with endNo := p.beginNo, offset := p.beginNo }
  else if p.beginNo = p.endNo then { p with offset := p.beginNo }
  else p

/-- The front of the array is cut off when more than half of it was handed on. -/
def tryCompactify (p : OrderedEventsProcessor α) : OrderedEventsProcessor α :=
  let beginPos := (p.beginNo - p.offset).toNat
  if beginPos > 5 ∧ beginPos * 2 > p.dataArray.length then
    { p with dataArray := p.dataArray.drop beginPos, offset := p.beginNo }
  else p

/-- The branch of `add` for an event that has to wait. -/
def hold [Inhabited α] (p : OrderedEventsProcessor α) (seqNo : UInt64) (data : α) :
    OrderedEventsProcessor α :=
  let pos := (seqNo - p.offset).toNat
  let dataArray := p.dataArray ++ replicate (pos + 1 - p.dataArray.length) (default, false)
  { p with
    dataArray := dataArray.set pos (data, true)
    endNo := if p.endNo < seqNo + 1 then seqNo + 1 else p.endNo }

/-- The processor after the event, and the events handed to `function` in order. `none` where the
number is below `begin_`. -/
def add [Inhabited α] (p : OrderedEventsProcessor α) (seqNo : UInt64) (data : α) :
    Option (OrderedEventsProcessor α × List (UInt64 × α)) :=
  if seqNo < p.beginNo then none
  else if seqNo = p.beginNo then
    let p := { p with beginNo := p.beginNo + 1 }
    (releaseLoop (p.endNo.toNat - p.beginNo.toNat) p).map fun (q, rest) =>
      (q.meet.tryCompactify, (seqNo, data) :: rest)
  else some (p.hold seqNo data, [])

/-! ## What waits -/

variable {msg : Nat → α} {arrived : Nat → Prop} {p q : OrderedEventsProcessor α}

/-- The slots in use hold exactly the messages from `begin_` on that have arrived. -/
structure Slots (msg : Nat → α) (arrived : Nat → Prop) (p : OrderedEventsProcessor α) : Prop where
  offset_le : p.offset.toNat ≤ p.beginNo.toNat
  room : p.endNo.toNat ≤ p.offset.toNat + p.dataArray.length
  /-- A slot is full if its message has arrived and was not handed on. -/
  slot : ∀ i d, p.dataArray[i]? = some (d, true) ↔
    d = msg (p.offset.toNat + i) ∧ p.beginNo.toNat ≤ p.offset.toNat + i ∧
      arrived (p.offset.toNat + i)
  before_end : ∀ n, p.beginNo.toNat ≤ n → arrived n → n < p.endNo.toNat

/-- **All that was handed on is the messages from `start` up to the first one missing.** -/
structure InOrder (start : Nat) (msg : Nat → α) (arrived : Nat → Prop)
    (p : OrderedEventsProcessor α) : Prop where
  slots : Slots msg arrived p
  start_le : start ≤ p.beginNo.toNat
  released : ∀ n, start ≤ n → n < p.beginNo.toNat → arrived n
  missing : ¬ arrived p.beginNo.toNat

theorem inOrder_new (msg : Nat → α) (start : UInt64) :
    InOrder start.toNat msg (fun _ => False) (new start) :=
  ⟨⟨le_rfl, Nat.le_add_right _ _, fun i d => by simp [new], fun _ _ h => h.elim⟩,
    le_rfl, fun n h1 h2 => absurd h2 (not_lt.mpr h1), id⟩

variable {n : UInt64} {start : Nat}

theorem toNat_succ {m : Nat} (h : n.toNat < m) (hm : m < 0x10000000000000000) :
    (n + 1).toNat = n.toNat + 1 := by
  show (n.toNat + 1) % 0x10000000000000000 = _
  omega

theorem toNat_sub_of_le {a b : UInt64} (h : b.toNat ≤ a.toNat) :
    (a - b).toNat = a.toNat - b.toNat :=
  UInt64.toNat_sub_of_le a b (UInt64.le_iff_toNat_le.mpr h)

/-- The slot of the next message is emptied and the next one is waited for. -/
theorem Slots.next {d : α} (h : Slots msg arrived p) (hlt : p.beginNo.toNat < p.endNo.toNat) :
    Slots msg arrived { p with
      dataArray := p.dataArray.set (p.beginNo - p.offset).toNat (d, false)
      beginNo := p.beginNo + 1 } := by
  have hpos := toNat_sub_of_le h.offset_le
  have hsucc := toNat_succ hlt p.endNo.toNat_lt
  have hoff := h.offset_le
  refine ⟨?_, ?_, ?_, ?_⟩
  · show p.offset.toNat ≤ (p.beginNo + 1).toNat
    omega
  · rw [length_set]
    exact h.room
  · intro i x
    rw [getElem?_set, hpos]
    dsimp only
    by_cases hi : p.beginNo.toNat - p.offset.toNat = i
    · rw [if_pos hi]
      constructor
      · intro hx
        split at hx <;> cases hx
      · omega
    rw [if_neg hi, h.slot]
    constructor
    · intro hx
      exact ⟨hx.1, by omega, hx.2.2⟩
    · intro hx
      exact ⟨hx.1, by omega, hx.2.2⟩
  · intro n hn
    have hn : (p.beginNo + 1).toNat ≤ n := hn
    exact h.before_end n (by omega)

/-- The messages with the numbers from `n` on, `k` of them. -/
def stretch (msg : Nat → α) (n k : Nat) : List (UInt64 × α) :=
  (range' n k).map fun i => (UInt64.ofNat i, msg i)

theorem stretch_succ (msg : Nat → α) (n : UInt64) (k : Nat) :
    stretch msg n.toNat (k + 1) = (n, msg n.toNat) :: stretch msg (n.toNat + 1) k := by
  rw [stretch, range'_succ, map_cons, UInt64.ofNat_toNat]
  rfl

section

variable (h : Slots msg arrived p)
include h

/-- **The loop hands on all that has arrived without a gap.** -/
theorem releaseLoop_spec :
    ∃ q k, releaseLoop (p.endNo.toNat - p.beginNo.toNat) p
        = some (q, stretch msg p.beginNo.toNat k) ∧
      Slots msg arrived q ∧ q.beginNo.toNat = p.beginNo.toNat + k ∧ ¬ arrived q.beginNo.toNat ∧
      (∀ n, p.beginNo.toNat ≤ n → n < q.beginNo.toNat → arrived n) ∧ q.endNo = p.endNo := by
  generalize hpasses : p.endNo.toNat - p.beginNo.toNat = passes
  induction passes generalizing p with
  | zero =>
    refine ⟨p, 0, rfl, h, rfl, fun hb => ?_, fun n h1 h2 => absurd h2 (not_lt.mpr h1), rfl⟩
    have := h.before_end _ le_rfl hb
    omega
  | succ passes ih =>
    have hlt : p.beginNo.toNat < p.endNo.toNat := by omega
    have hpos := toNat_sub_of_le h.offset_le
    have hoff := h.offset_le
    have hroom := h.room
    have hnum : p.offset.toNat + (p.beginNo - p.offset).toNat = p.beginNo.toNat := by omega
    rw [releaseLoop, if_pos (UInt64.lt_iff_toNat_lt.mpr hlt)]
    dsimp only
    have hslot := h.slot (p.beginNo - p.offset).toNat
    rw [hnum] at hslot
    split
    · rename_i hnone
      rw [getElem?_eq_none_iff] at hnone
      omega
    · rename_i d hfalse
      refine ⟨p, 0, rfl, h, rfl, fun hb => ?_, fun n h1 h2 => absurd h2 (not_lt.mpr h1), rfl⟩
      have := (hslot (msg p.beginNo.toNat)).mpr ⟨rfl, le_rfl, hb⟩
      rw [hfalse] at this
      cases this
    rename_i d htrue
    obtain ⟨hd, _, hbegin⟩ := (hslot d).mp htrue
    have hsucc := toNat_succ hlt p.endNo.toNat_lt
    obtain ⟨q, k, hloop, hq, hqbegin, hmissing, hall, hend⟩ := ih (h.next hlt (d := d))
      (by show p.endNo.toNat - (p.beginNo + 1).toNat = passes; omega)
    rw [hsucc] at hloop hqbegin hall
    refine ⟨q, k + 1, ?_, hq, by omega, hmissing, fun n h1 h2 => ?_, hend⟩
    · rw [hloop, stretch_succ, hd]
      rfl
    · by_cases hn : n = p.beginNo.toNat
      · rw [hn]
        exact hbegin
      · exact hall n (by omega) h2

theorem Slots.meet : Slots msg arrived p.meet ∧ p.meet.beginNo = p.beginNo := by
  by_cases hlt : p.beginNo.toNat < p.endNo.toNat
  · have heq : p.meet = p := by
      unfold OrderedEventsProcessor.meet
      rw [if_neg, if_neg]
      · intro heq
        rw [heq] at hlt
        omega
      · rw [gt_iff_lt, UInt64.lt_iff_toNat_lt]
        omega
    rw [heq]
    exact ⟨h, rfl⟩
  -- nothing waits, so the slots mean nothing wherever the first one is
  have hnone : ∀ n, p.beginNo.toNat ≤ n → ¬ arrived n := fun n hn harrived => by
    have := h.before_end n hn harrived
    omega
  have hslot : ∀ i d, p.dataArray[i]? ≠ some (d, true) := fun i d hslot =>
    hnone _ ((h.slot i d).mp hslot).2.1 ((h.slot i d).mp hslot).2.2
  have hempty : Slots msg arrived { p with endNo := p.beginNo, offset := p.beginNo } :=
    ⟨le_rfl, Nat.le_add_right _ _, fun i d => ⟨fun hd => absurd hd (hslot i d), fun hd =>
      absurd hd.2.2 (hnone _ hd.2.1)⟩, fun n hn harrived => absurd harrived (hnone n hn)⟩
  have heq : p.meet = { p with endNo := p.beginNo, offset := p.beginNo } := by
    unfold OrderedEventsProcessor.meet
    split
    · rfl
    · rename_i hgt
      rw [gt_iff_lt, UInt64.lt_iff_toNat_lt] at hgt
      have hmeet : p.beginNo = p.endNo := UInt64.toNat_inj.mp (by omega)
      rw [if_pos hmeet, hmeet]
  rw [heq]
  exact ⟨hempty, rfl⟩

theorem Slots.tryCompactify :
    Slots msg arrived p.tryCompactify ∧ p.tryCompactify.beginNo = p.beginNo := by
  have hpos := toNat_sub_of_le h.offset_le
  have hroom := h.room
  unfold OrderedEventsProcessor.tryCompactify
  dsimp only
  split
  · refine ⟨⟨le_rfl, ?_, fun i d => ?_, h.before_end⟩, rfl⟩
    · show p.endNo.toNat ≤ p.beginNo.toNat + (p.dataArray.drop _).length
      rw [length_drop]
      omega
    · have hnum : p.offset.toNat + ((p.beginNo - p.offset).toNat + i) = p.beginNo.toNat + i := by
        omega
      rw [getElem?_drop, h.slot, hnum]
  · exact ⟨h, rfl⟩

/-- A message that comes early is put into its slot. -/
theorem Slots.hold [Inhabited α] (hn : p.beginNo.toNat ≤ n.toNat)
    (hsmall : n.toNat + 1 < 0x10000000000000000) :
    Slots msg (fun m => m = n.toNat ∨ arrived m) (p.hold n (msg n.toNat)) := by
  have hoff := h.offset_le
  have hpos : (n - p.offset).toNat = n.toNat - p.offset.toNat := toNat_sub_of_le (by omega)
  have hsucc : (n + 1).toNat = n.toNat + 1 := toNat_succ (Nat.lt_succ_self _) hsmall
  have hend : (if p.endNo < n + 1 then n + 1 else p.endNo).toNat
      = max p.endNo.toNat (n.toNat + 1) := by
    split
    · rename_i hlt
      rw [UInt64.lt_iff_toNat_lt] at hlt
      omega
    · rename_i hlt
      rw [UInt64.lt_iff_toNat_lt] at hlt
      omega
  have hroom := h.room
  refine ⟨hoff, ?_, fun i d => ?_, fun m hm harrived => ?_⟩
  · show UInt64.toNat (if _ then _ else _) ≤ p.offset.toNat + (set _ _ _).length
    rw [length_set, length_append, length_replicate]
    omega
  · dsimp only [OrderedEventsProcessor.hold]
    have hlen : (n - p.offset).toNat < (p.dataArray ++ replicate
        ((n - p.offset).toNat + 1 - p.dataArray.length) (default, false)).length := by
      rw [length_append, length_replicate]
      omega
    rw [getElem?_set, if_pos hlen]
    by_cases hi : (n - p.offset).toNat = i
    · have hnum : p.offset.toNat + i = n.toNat := by omega
      rw [if_pos hi, hnum]
      constructor
      · intro hd
        injection hd with hd
        injection hd with hd
        exact ⟨hd.symm, hn, .inl rfl⟩
      · intro hd
        rw [hd.1]
    have hnum : p.offset.toNat + i ≠ n.toNat := by omega
    rw [if_neg hi]
    -- the slots that were added are not in use
    have hold : (p.dataArray ++ replicate ((n - p.offset).toNat + 1 - p.dataArray.length)
        (default, false))[i]? = some (d, true) ↔ p.dataArray[i]? = some (d, true) := by
      by_cases hlt : i < p.dataArray.length
      · rw [getElem?_append_left hlt]
      · rw [getElem?_append_right (by omega), getElem?_replicate, getElem?_eq_none (by omega)]
        split <;> simp
    rw [hold, h.slot]
    constructor
    · intro hd
      exact ⟨hd.1, hd.2.1, .inr hd.2.2⟩
    · intro hd
      exact ⟨hd.1, hd.2.1, hd.2.2.resolve_left hnum⟩
  · show m < UInt64.toNat (if _ then _ else _)
    rw [hend]
    rcases harrived with heq | harrived
    · omega
    · have := h.before_end m hm harrived
      omega

/-- The message that is waited for needs no slot. -/
theorem Slots.pass (hnew : ¬ arrived p.beginNo.toNat)
    (hsucc : (p.beginNo + 1).toNat = p.beginNo.toNat + 1) :
    Slots msg (fun m => m = p.beginNo.toNat ∨ arrived m) { p with beginNo := p.beginNo + 1 } := by
  have hoff := h.offset_le
  refine ⟨?_, h.room, fun i d => ?_, fun m hm harrived => ?_⟩
  · show p.offset.toNat ≤ (p.beginNo + 1).toNat
    omega
  · dsimp only
    rw [h.slot, hsucc]
    constructor
    · intro hd
      have hne : p.offset.toNat + i ≠ p.beginNo.toNat := fun heq => hnew (heq ▸ hd.2.2)
      exact ⟨hd.1, by omega, .inr hd.2.2⟩
    · intro hd
      exact ⟨hd.1, by omega, hd.2.2.resolve_left (by omega)⟩
  · have hm : (p.beginNo + 1).toNat ≤ m := hm
    exact h.before_end m (by omega) (harrived.resolve_left (by omega))

end

/-- **Whatever number comes, what can be handed on is handed on.** -/
theorem InOrder.add [Inhabited α] (h : InOrder start msg arrived p) (hstart : start ≤ n.toNat)
    (hnew : ¬ arrived n.toNat) (hsmall : n.toNat + 1 < 0x10000000000000000) :
    ∃ q k, p.add n (msg n.toNat) = some (q, stretch msg p.beginNo.toNat k) ∧
      InOrder start msg (fun m => m = n.toNat ∨ arrived m) q ∧
      q.beginNo.toNat = p.beginNo.toNat + k := by
  have hle : p.beginNo.toNat ≤ n.toNat := by
    by_cases hlt : n.toNat < p.beginNo.toNat
    · exact absurd (h.released _ hstart hlt) hnew
    · omega
  have hslots := h.slots
  have hbelow := h.released
  unfold OrderedEventsProcessor.add
  rw [if_neg (by rw [UInt64.lt_iff_toNat_lt]; omega)]
  by_cases heq : n = p.beginNo
  · subst heq
    have hsucc : (p.beginNo + 1).toNat = p.beginNo.toNat + 1 :=
      toNat_succ (Nat.lt_succ_self _) hsmall
    obtain ⟨q, k, hloop, hq, hqbegin, hmissing, hall, _⟩ :=
      releaseLoop_spec (hslots.pass hnew hsucc)
    dsimp only at hqbegin hall
    obtain ⟨hmeet, hmeetBegin⟩ := hq.meet
    obtain ⟨hcompact, hcompactBegin⟩ := hmeet.tryCompactify
    have hbegin : q.meet.tryCompactify.beginNo.toNat = p.beginNo.toNat + (k + 1) := by
      rw [hcompactBegin, hmeetBegin]
      omega
    refine ⟨q.meet.tryCompactify, k + 1, ?_, ⟨hcompact, ?_, fun m h1 h2 => ?_, ?_⟩, hbegin⟩
    · rw [if_pos rfl]
      dsimp only
      rw [hloop, stretch_succ, hsucc]
      rfl
    · -- the old stretch, the new message and what the loop took
      omega
    · by_cases hm : m < p.beginNo.toNat
      · exact .inr (hbelow m h1 hm)
      · by_cases hm' : m = p.beginNo.toNat
        · exact .inl hm'
        · exact hall m (by omega) (by omega)
    · rw [hcompactBegin, hmeetBegin]
      exact hmissing
  · have hne : n.toNat ≠ p.beginNo.toNat := fun h' => heq (UInt64.toNat_inj.mp h')
    rw [if_neg heq]
    refine ⟨p.hold n (msg n.toNat), 0, rfl, ⟨hslots.hold hle hsmall, h.start_le, fun m h1 h2 =>
      .inr (hbelow m h1 h2), fun harrived => ?_⟩, rfl⟩
    rcases harrived with h' | h'
    · exact hne h'.symm
    · exact h.missing h'

/-! ## All orders of arrival -/

def maxUnfinishedSeqNo (p : OrderedEventsProcessor α) : UInt64 := p.endNo - 1

def maxFinishedSeqNo (p : OrderedEventsProcessor α) : UInt64 := p.beginNo - 1

/-- Events that are added one after another, with all that is handed on. -/
def addAll [Inhabited α] : OrderedEventsProcessor α → List (UInt64 × α) →
    Option (OrderedEventsProcessor α × List (UInt64 × α))
  | p, [] => some (p, [])
  | p, (seqNo, data) :: rest => do
      let (p, released) ← p.add seqNo data
      let (p, later) ← p.addAll rest
      return (p, released ++ later)

theorem stretch_append (msg : Nat → α) (n k k' : Nat) :
    stretch msg n k ++ stretch msg (n + k) k' = stretch msg n (k + k') := by
  unfold stretch
  rw [← map_append, range'_append_1]

theorem meet_endNo (p : OrderedEventsProcessor α) :
    p.meet.endNo.toNat = max p.endNo.toNat p.beginNo.toNat := by
  unfold OrderedEventsProcessor.meet
  split
  · rename_i hgt
    exact (Nat.max_eq_right (le_of_lt hgt)).symm
  · rename_i hgt
    rw [gt_iff_lt, UInt64.lt_iff_toNat_lt, not_lt] at hgt
    split <;> exact (Nat.max_eq_left hgt).symm

theorem tryCompactify_endNo (p : OrderedEventsProcessor α) : p.tryCompactify.endNo = p.endNo := by
  unfold OrderedEventsProcessor.tryCompactify
  dsimp only
  split <;> rfl

/-- The end is behind the greatest number that has come. -/
theorem InOrder.add_endNo [Inhabited α] {released : List (UInt64 × α)}
    (h : InOrder start msg arrived p) (hnew : ¬ arrived n.toNat)
    (hsmall : n.toNat + 1 < 0x10000000000000000)
    (hadd : p.add n (msg n.toNat) = some (q, released)) :
    q.endNo.toNat = max p.endNo.toNat (n.toNat + 1) := by
  have hsucc : (n + 1).toNat = n.toNat + 1 := toNat_succ (Nat.lt_succ_self _) hsmall
  unfold OrderedEventsProcessor.add at hadd
  split at hadd
  · cases hadd
  split at hadd
  · rename_i heq
    subst heq
    obtain ⟨r, k, hloop, hr, hbegin, -, hall, hend⟩ := releaseLoop_spec (h.slots.pass hnew hsucc)
    dsimp only at hbegin hall hend hadd
    rw [hloop] at hadd
    cases hadd
    dsimp only
    rw [tryCompactify_endNo, meet_endNo, hend]
    -- the loop does not go behind the end
    rcases Nat.eq_zero_or_pos k with hk | hk
    · omega
    · have hlast := hall (r.beginNo.toNat - 1) (by omega) (by omega)
      have hlt := (h.slots.pass hnew hsucc).before_end _ (by dsimp only; omega) hlast
      dsimp only at hlt
      omega
  · cases hadd
    show UInt64.toNat (if _ then _ else _) = _
    split
    · rename_i hlt
      rw [UInt64.lt_iff_toNat_lt] at hlt
      omega
    · rename_i hlt
      rw [UInt64.lt_iff_toNat_lt] at hlt
      omega

/-- **Events with new numbers are added one after another.** -/
theorem InOrder.addAll [Inhabited α] {numbers : List Nat} (h : InOrder start msg arrived p)
    (hnodup : numbers.Nodup)
    (hnew : ∀ n ∈ numbers, start ≤ n ∧ ¬ arrived n ∧ n + 1 < 0x10000000000000000) :
    ∃ q k, p.addAll (numbers.map fun n => (UInt64.ofNat n, msg n))
        = some (q, stretch msg p.beginNo.toNat k) ∧
      InOrder start msg (fun m => m ∈ numbers ∨ arrived m) q ∧
      q.beginNo.toNat = p.beginNo.toNat + k ∧
      q.endNo.toNat = numbers.foldl (fun e n => max e (n + 1)) p.endNo.toNat := by
  induction numbers generalizing p arrived with
  | nil =>
    have hsame : (fun m => m ∈ ([] : List Nat) ∨ arrived m) = arrived := by
      simp
    rw [hsame]
    exact ⟨p, 0, rfl, h, rfl, rfl⟩
  | cons n numbers ih =>
    obtain ⟨hstart, hmissing, hsmall⟩ := hnew n mem_cons_self
    obtain ⟨hnot, hnodup⟩ := nodup_cons.mp hnodup
    have hn : (UInt64.ofNat n).toNat = n := by
      exact Nat.mod_eq_of_lt (by omega)
    obtain ⟨q, k, hadd, hq, hbegin⟩ := h.add (n := UInt64.ofNat n) (by omega)
      (by rw [hn]; exact hmissing) (by omega)
    have hend := h.add_endNo (by rw [hn]; exact hmissing) (by omega) hadd
    rw [hn] at hadd hq hend
    have hrest : ∀ m ∈ numbers, start ≤ m ∧ ¬ (m = n ∨ arrived m) ∧
        m + 1 < 0x10000000000000000 := by
      intro m hm
      obtain ⟨hle, hm', hlt⟩ := hnew m (mem_cons_of_mem _ hm)
      refine ⟨hle, ?_, hlt⟩
      rintro (rfl | harrived)
      · exact hnot hm
      · exact hm' harrived
    obtain ⟨r, j, hall, hr, hbegin', hend'⟩ := ih hq hnodup hrest
    have hsame : (fun m => m ∈ n :: numbers ∨ arrived m) =
        fun m => m ∈ numbers ∨ m = n ∨ arrived m := by
      funext m
      rw [mem_cons, eq_iff_iff]
      exact or_assoc.trans or_left_comm
    refine ⟨r, k + j, ?_, hsame ▸ hr, by omega, ?_⟩
    · rw [map_cons]
      unfold OrderedEventsProcessor.addAll
      rw [hadd]
      show (do
        let (r, later) ← q.addAll (numbers.map fun n => (UInt64.ofNat n, msg n))
        return (r, stretch msg p.beginNo.toNat k ++ later)) = _
      rw [hall, hbegin]
      exact congrArg (fun l => some (r, l)) (stretch_append msg _ k j)
    · rw [hend', hend]
      rfl

/-- The end is behind one of the numbers, or where it was. -/
theorem foldl_endNo (numbers : List Nat) (e : Nat) :
    (numbers.foldl (fun e n => max e (n + 1)) e = e ∨
        ∃ n ∈ numbers, numbers.foldl (fun e n => max e (n + 1)) e = n + 1) ∧
      e ≤ numbers.foldl (fun e n => max e (n + 1)) e ∧
      ∀ n ∈ numbers, n + 1 ≤ numbers.foldl (fun e n => max e (n + 1)) e := by
  induction numbers generalizing e with
  | nil => exact ⟨.inl rfl, le_rfl, forall_mem_nil _⟩
  | cons n numbers ih =>
    rw [foldl_cons]
    obtain ⟨hcases, hle, hall⟩ := ih (max e (n + 1))
    refine ⟨?_, by omega, ?_⟩
    · rcases hcases with heq | ⟨m, hm, heq⟩
      · rcases le_total e (n + 1) with h | h
        · exact .inr ⟨n, mem_cons_self, by rw [heq, Nat.max_eq_right h]⟩
        · exact .inl (by rw [heq, Nat.max_eq_left h])
      · exact .inr ⟨m, mem_cons_of_mem _ hm, heq⟩
    · intro m hm
      rcases mem_cons.mp hm with rfl | hm
      · omega
      · exact hall m hm

/-- **Every event is handed on once, in the order of the numbers**, whatever the order in which the
events come. At every moment these are the events up to the first number that is missing. -/
theorem in_order_once [Inhabited α] {start : UInt64} {n : Nat}
    (hsmall : start.toNat + n < 0x10000000000000000) (msg : Nat → α) {done rest : List Nat}
    (horder : (done ++ rest).Perm (range' start.toNat n)) :
    ∃ q k, (new start).addAll (done.map fun i => (UInt64.ofNat i, msg i))
        = some (q, stretch msg start.toNat k) ∧
      (∀ i, start.toNat ≤ i → i < start.toNat + k → i ∈ done) ∧ start.toNat + k ∉ done ∧
      (rest = [] → k = n) ∧
      (0 < k → q.maxFinishedSeqNo.toNat = start.toNat + k - 1) ∧
      (done ≠ [] → q.maxUnfinishedSeqNo.toNat ∈ done ∧
        ∀ i ∈ done, i ≤ q.maxUnfinishedSeqNo.toNat) := by
  have hmem : ∀ i ∈ done, start.toNat ≤ i ∧ i < start.toNat + n := by
    intro i hi
    have := horder.mem_iff.mp (mem_append_left rest hi)
    rw [mem_range'_1] at this
    exact this
  have hnodup : done.Nodup :=
    (nodup_append.mp (horder.nodup_iff.mpr (nodup_range' ..))).1
  obtain ⟨q, k, hall, hq, hbegin, hend⟩ := (inOrder_new msg start).addAll hnodup (by
    intro i hi
    have := hmem i hi
    exact ⟨this.1, not_false, by omega⟩)
  have hreleased : ∀ i, start.toNat ≤ i → i < start.toNat + k → i ∈ done := by
    intro i hle hlt
    exact (hq.released i hle (hbegin ▸ hlt)).resolve_right not_false
  have hmissing : start.toNat + k ∉ done := by
    intro hdone
    exact hq.missing (.inl (hbegin ▸ hdone))
  refine ⟨q, k, hall, hreleased, hmissing, ?_, ?_, ?_⟩
  · rintro rfl
    rw [append_nil] at horder
    have hle : k ≤ n := by
      by_contra hlt
      have := hmem _ (hreleased (start.toNat + n) (by omega) (by omega))
      omega
    have hge : n ≤ k := by
      by_contra hlt
      refine hmissing (horder.mem_iff.mpr ?_)
      rw [mem_range'_1]
      omega
    omega
  · intro hpos
    show (q.beginNo - 1).toNat = _
    rw [toNat_sub_of_le (show (1 : UInt64).toNat ≤ _ by rw [UInt64.toNat_one]; omega), hbegin]
    rfl
  intro hne
  obtain ⟨i, hi⟩ := exists_mem_of_ne_nil done hne
  obtain ⟨hcases, -, hle⟩ := foldl_endNo done start.toNat
  have hend : q.endNo.toNat = done.foldl (fun e n => max e (n + 1)) start.toNat := hend
  rw [← hend] at hcases
  have hfirst := hmem i hi
  have hlast := hle i hi
  have hsub : q.maxUnfinishedSeqNo.toNat = q.endNo.toNat - 1 :=
    toNat_sub_of_le (show (1 : UInt64).toNat ≤ _ by rw [UInt64.toNat_one]; omega)
  rw [hsub]
  refine ⟨?_, ?_⟩
  · rcases hcases with heq | ⟨m, hm, heq⟩
    · omega
    · rw [heq]
      exact hm
  · intro j hj
    have := hle j hj
    omega

/-- Three events, of which the first one comes last. -/
theorem in_order_once_three :
    ∃ q, (new 5).addAll [(7, 30), (6, 20), (5, 10)] = some (q, [(5, 10), (6, 20), (7, 30)]) ∧
      q.maxFinishedSeqNo = 7 := by
  have horder : ([7, 6, 5] ++ []).Perm (range' (5 : UInt64).toNat 3) := by decide
  obtain ⟨q, k, hall, -, -, hk, hlast, -⟩ :=
    in_order_once (by decide) (fun n => 10 * (n - 4)) horder
  obtain rfl := hk rfl
  exact ⟨q, hall, UInt64.toNat_inj.mp (hlast (by decide))⟩

/-- The greatest number has no next one. When it has come, the loop reads outside of the array. -/
theorem greatest_number_fails :
    (new 0xffffffffffffffff).addAll [(0xffffffffffffffff, 0)] =
      (none : Option (OrderedEventsProcessor Nat × List (UInt64 × Nat))) := by
  decide +kernel

end OrderedEventsProcessor

end Tdlib
