import Tdlib.Updates.Qts

/-!
# The saved qts is never too high

Two queues stand one behind the other. The map of early updates lets them through
in the order of their qts; the `PtsManager` numbers them in this order and lets
the acknowledgements through in the same order. So the state is described by three
numbers: the updates that were processed, those up to which everything is
acknowledged, and those up to which this was saved.

The client takes an update that is more than 100001 behind for the first one after
an overflow, and one that is more than `2^30` ahead for an old one. Such updates
must not arrive.
-/

namespace Tdlib.Updates.QtsUpdates

open Lib List

variable {υ : Type} {q0 q : Int} {n k d base : Nat} {acked : List Nat} {s s' : QtsUpdates υ}

/-- The changes of the `PtsManager`: one for each update, and whether it was acknowledged. -/
def changes (q0 : Int) (acked : List Nat) (k : Nat) : List (Int × Bool) :=
  (range k).map fun i : Nat => (q0 + 1 + i, decide (i + 1 ∈ acked))

/-- `k` updates were processed, and the first `d` of them were acknowledged. -/
structure Counted (q0 : Int) (acked : List Nat) (k d base : Nat) (s : QtsUpdates υ) : Prop where
  start_pos : 1 ≤ q0
  bounded : q0 + k < 0x80000000
  qts_eq : s.getQts = q0 + k
  processed_eq : s.processed.map Prod.fst = (range k).map fun i : Nat => q0 + 1 + (i : Int)
  /-- Each processed update has the next token. -/
  promises_eq : s.promises = (range k).map fun i : Nat => (q0 + 1 + (i : Int), i + 1)
  acked_le : ∀ id ∈ acked, id ≤ k
  /-- The first `d` tokens were finished and delivered. -/
  follows : s.qtsManager.stateHelper.Follows 1 base d (changes q0 acked k)
  db_eq : s.qtsManager.dbPts = q0 + d
  /-- Nothing is saved before it is acknowledged. -/
  saved_le : s.savedQts ≤ q0 + d
  pending_le : s.pendingQts ≤ q0 + d
  ignored : s.ignoreBackgroundUpdates = true → s.pendingQts = 0
  running : s.runningGetDifference = false

namespace Counted

theorem new (hpos : 1 ≤ q0) (hbound : q0 < 0x80000000) (isBot ignore : Bool) (now : Int) :
    Counted q0 [] 0 0 0 (.new q0 isBot ignore now : QtsUpdates υ) where
  start_pos := hpos
  bounded := by simpa using hbound
  qts_eq := (Int.add_zero q0).symm
  processed_eq := rfl
  promises_eq := rfl
  acked_le _ h := absurd h not_mem_nil
  follows := .new
  db_eq := (Int.add_zero q0).symm
  saved_le := le_of_eq (Int.add_zero q0).symm
  pending_le := by
    show 0 ≤ q0 + 0
    omega
  ignored _ := rfl
  running := rfl

theorem acked_of_lt (h : Counted q0 acked k d base s) {i : Nat} (hi : i < d) : i + 1 ∈ acked := by
  obtain ⟨data, hdata⟩ := h.follows.finished i hi
  rw [changes, getElem?_map] at hdata
  obtain ⟨j, hj, heq⟩ := Option.map_eq_some_iff.mp hdata
  have hij : i = j := by
    have := getElem?_range (show i < k by
      have := h.follows.le_length
      rw [changes, length_map, length_range] at this
      omega)
    rw [this] at hj
    exact Option.some.inj hj
  have := (Prod.mk.inj heq).2
  rw [← hij] at this
  exact of_decide_eq_true this

end Counted

theorem processQtsUpdate_eq (s : QtsUpdates υ) (u : υ) (q : Int) :
    ∃ last retry, s.processQtsUpdate u q = { s with
      qtsManager := (s.qtsManager.addPts q).1
      promises := s.promises ++ [(q, (s.qtsManager.addPts q).2)]
      processed := s.processed ++ [(q, u)]
      lastGetDifferenceQts := last
      retryTimeout := retry } := by
  unfold processQtsUpdate
  split
  · exact ⟨_, _, rfl⟩
  · exact ⟨_, _, rfl⟩

theorem changes_succ (hacked : ∀ id ∈ acked, id ≤ k) :
    changes q0 acked (k + 1) = changes q0 acked k ++ [(q0 + 1 + k, false)] := by
  have hnot : k + 1 ∉ acked := fun hin => absurd (hacked _ hin) (by omega)
  simp [changes, range_succ, hnot]

@[simp] theorem length_changes : (changes q0 acked k).length = k := by simp [changes]

/-- The next update is processed. -/
theorem Counted.process (h : Counted q0 acked k d base s) (u : υ)
    (hbound : q0 + 1 + k < 0x80000000) :
    Counted q0 acked (k + 1) d base (s.processQtsUpdate u (q0 + 1 + k)) ∧
      (s.processQtsUpdate u (q0 + 1 + k)).pendingQtsUpdates = s.pendingQtsUpdates := by
  have hpos := h.start_pos
  obtain ⟨last, retry, heq⟩ := processQtsUpdate_eq s u (q0 + 1 + k)
  obtain ⟨hid, hfollows⟩ := h.follows.add_ok (q0 + 1 + k)
  have hid : (s.qtsManager.addPts (q0 + 1 + k)).2 = k + 1 := by
    refine hid.trans ?_
    rw [length_changes, Nat.mod_eq_of_lt (by rw [ChangesProcessor.sizeLimit]; omega), add_comm]
  rw [heq]
  refine ⟨?_, rfl⟩
  exact {
    h with
    bounded := by push_cast; omega
    qts_eq := by
      show (if q0 + 1 + k > 0 then q0 + 1 + k else _) = _
      omega
    processed_eq := by
      rw [map_append, h.processed_eq, range_succ, map_append]
      rfl
    promises_eq := by
      rw [h.promises_eq, hid, range_succ, map_append]
      rfl
    acked_le := fun id hin => Nat.le_succ_of_le (h.acked_le id hin)
    follows := changes_succ h.acked_le ▸ hfollows }

/-- What waits: the next update has not arrived, and none is far ahead. -/
structure Waiting (q0 : Int) (n k : Nat) (s : QtsUpdates υ) : Prop where
  late : ∀ p ∈ s.pendingQtsUpdates.toList, q0 + k + 1 < p.1
  le_last : ∀ p ∈ s.pendingQtsUpdates.toList, p.1 ≤ q0 + n
  near : ∀ p ∈ s.pendingQtsUpdates.toList, p.1 ≤ q0 + k + 0x40000000

/-- An update has arrived: it was processed or it waits. -/
def Has (q0 : Int) (k : Nat) (s : QtsUpdates υ) (q : Int) : Prop :=
  q ≤ q0 + k ∨ q ∈ s.pendingQtsUpdates.toList.map Prod.fst

/-- The next update was waiting. -/
theorem has_succ {u : υ} (h : (q0 + 1 + (k : Int), u) ∈ s.pendingQtsUpdates.toList) :
    q ≤ q0 + (k + 1 : Nat) ∨ q ∈ (s.pendingQtsUpdates.erase (q0 + 1 + k)).toList.map Prod.fst ↔
      Has q0 k s q := by
  simp only [Has, mem_map, Ordered.mem_erase]
  constructor
  · rintro (hle | ⟨p, ⟨hp, -⟩, rfl⟩)
    · by_cases hlt : q ≤ q0 + k
      · exact .inl hlt
      · exact .inr ⟨_, h, by push_cast at hle; dsimp only; omega⟩
    · exact .inr ⟨p, hp, rfl⟩
  · rintro (hle | ⟨p, hp, rfl⟩)
    · exact .inl (by push_cast; omega)
    · by_cases heq : p.1 = q0 + 1 + k
      · exact .inl (by push_cast; omega)
      · exact .inr ⟨p, ⟨hp, heq⟩, rfl⟩

/-- **The loop of `process_pending_qts_updates`** processes what follows without a gap. -/
theorem pendingLoop_ok (h : Counted q0 acked k d base s) (hbound : q0 + n < 0x80000000)
    (hlate : ∀ p ∈ s.pendingQtsUpdates.toList, q0 + k < p.1)
    (hle : ∀ p ∈ s.pendingQtsUpdates.toList, p.1 ≤ q0 + n)
    (hnear : ∀ p ∈ s.pendingQtsUpdates.toList, p.1 ≤ q0 + k + 0x40000000)
    (steps : Nat) (hsteps : s.pendingQtsUpdates.toList.length ≤ steps) (removed : Bool) :
    ∃ k' s' removed', pendingLoop steps removed s = some (s', removed') ∧ k ≤ k' ∧
      Counted q0 acked k' d base s' ∧ Waiting q0 n k' s' ∧ ∀ q, Has q0 k' s' q ↔ Has q0 k s q := by
  induction steps generalizing k s removed with
  | zero =>
    have hnil : s.pendingQtsUpdates.toList = [] := length_eq_zero_iff.mp (by omega)
    exact ⟨k, s, removed, rfl, le_rfl, h, ⟨by simp [hnil], hle, hnear⟩, fun _ => .rfl⟩
  | succ steps ih =>
    rw [pendingLoop]
    cases hlist : s.pendingQtsUpdates.toList with
    | nil =>
      exact ⟨k, s, removed, rfl, le_rfl, h, ⟨by simp [hlist], hle, hnear⟩, fun _ => .rfl⟩
    | cons p l =>
      obtain ⟨q, u⟩ := p
      have hin : (q, u) ∈ s.pendingQtsUpdates.toList := hlist ▸ mem_cons_self
      have hq : q0 + k < q := hlate _ hin
      have hq_near : q ≤ q0 + k + 0x40000000 := hnear _ hin
      have hq_le : q ≤ q0 + n := hle _ hin
      have hmem := h.qts_eq
      dsimp only
      rw [if_neg (by simp [h.running])]
      by_cases hgap : q - 1 > s.getQts ∧ q - 0x40000000 ≤ s.getQts
      · -- the first one is behind a gap, and so are all others
        rw [if_pos hgap]
        refine ⟨k, s, removed, rfl, le_rfl, h, ⟨fun p hp => ?_, hle, hnear⟩, fun _ => .rfl⟩
        have := Ordered.le_of_head hlist hp
        omega
      have hnext : q = q0 + 1 + k := by omega
      subst hnext
      rw [if_neg hgap, if_pos (by omega)]
      obtain ⟨hprocess, hsame⟩ := h.process u (by omega)
      rw [hsame]
      have hmem : ∀ p, p ∈ (s.pendingQtsUpdates.erase (q0 + 1 + k)).toList ↔
          p ∈ s.pendingQtsUpdates.toList ∧ p.1 ≠ q0 + 1 + k := fun p => Ordered.mem_erase
      obtain ⟨k', s', removed', hloop, hk, hcounted, hwaiting, hhas⟩ :=
        ih (s := { s.processQtsUpdate u (q0 + 1 + k) with
            pendingQtsUpdates := s.pendingQtsUpdates.erase (q0 + 1 + k) })
          { hprocess with }
          (fun p hp => by
            have hp := (hmem p).mp hp
            have := Ordered.le_of_head hlist hp.1
            omega)
          (fun p hp => hle p ((hmem p).mp hp).1)
          (fun p hp => by
            have := hnear p ((hmem p).mp hp).1
            omega)
          (by
            have := (Ordered.perm_erase hin).length_eq
            rw [length_cons] at this
            dsimp only at this
            show (s.pendingQtsUpdates.erase _).toList.length ≤ steps
            omega) true
      refine ⟨k', s', removed', hloop, by omega, hcounted, hwaiting, fun q => (hhas q).trans ?_⟩
      exact has_succ hin

/-! ## What can happen -/

theorem processPending_ok (h : Counted q0 acked k d base s) (hbound : q0 + n < 0x80000000)
    (hlate : ∀ p ∈ s.pendingQtsUpdates.toList, q0 + k < p.1)
    (hle : ∀ p ∈ s.pendingQtsUpdates.toList, p.1 ≤ q0 + n)
    (hnear : ∀ p ∈ s.pendingQtsUpdates.toList, p.1 ≤ q0 + k + 0x40000000) :
    ∃ k' s', s.processPendingQtsUpdates = some s' ∧ k ≤ k' ∧ Counted q0 acked k' d base s' ∧
      Waiting q0 n k' s' ∧ ∀ q, Has q0 k' s' q ↔ Has q0 k s q := by
  unfold processPendingQtsUpdates
  split
  · rename_i hnil
    exact ⟨k, s, rfl, le_rfl, h, ⟨by simp [hnil], hle, hnear⟩, fun _ => .rfl⟩
  · obtain ⟨k', s', removed, hloop, hk, hcounted, hwaiting, hhas⟩ :=
      pendingLoop_ok h hbound hlate hle hnear _ le_rfl false
    rw [hloop]
    refine ⟨k', _, if_neg (by simp [hcounted.running]), hk, { hcounted with },
      { hwaiting with }, hhas⟩

/-- An update arrives. -/
theorem arrive_ok (h : Counted q0 acked k d base s) (hwaiting : Waiting q0 n k s)
    (hbound : q0 + n < 0x80000000) (u : υ) (hq : q0 < q ∧ q ≤ q0 + n)
    (hnear : Near s (.arrive u q)) :
    ∃ k' s', s.addPendingQtsUpdate u q = some s' ∧ k ≤ k' ∧ Counted q0 acked k' d base s' ∧
      Waiting q0 n k' s' ∧ ∀ v, Has q0 k' s' v ↔ Has q0 k s v ∨ v = q := by
  have hpos := h.start_pos
  have hmem := h.qts_eq
  obtain ⟨hbehind, hahead⟩ := hnear
  have hrestore : s.restoreQts q = some s := if_neg (by omega)
  rw [addPendingQtsUpdate, if_neg (by omega), hrestore, Option.bind_some, addChecked]
  by_cases hold : q ≤ s.getQts
  · rw [if_pos hold]
    refine ⟨k, s, rfl, le_rfl, h, hwaiting, fun v => ⟨.inl, ?_⟩⟩
    rintro (hv | rfl)
    · exact hv
    · exact .inl (by omega)
  rw [if_neg hold, h.running]
  by_cases hgap : q - 1 > s.getQts ∧ s.getQts > 0
  · -- something is missing, and a copy that waits is replaced
    rw [if_pos (.inr hgap)]
    have hmem : ∀ p, p ∈ (s.pendingQtsUpdates.insert (q, u)).toList ↔
        p = (q, u) ∨ p ∈ s.pendingQtsUpdates.toList ∧ p.1 ≠ q := fun p => Ordered.mem_insert
    have hall : ∀ P : Int → Prop, P q → (∀ p ∈ s.pendingQtsUpdates.toList, P p.1) →
        ∀ p ∈ (s.pendingQtsUpdates.insert (q, u)).toList, P p.1 := by
      intro P hP hold p hp
      rcases (hmem p).mp hp with rfl | hp
      · exact hP
      · exact hold p hp.1
    refine ⟨k, _, rfl, le_rfl, { h with running := rfl },
      ⟨hall (q0 + k + 1 < ·) (by omega) hwaiting.late,
      hall (· ≤ q0 + n) hq.2 hwaiting.le_last, hall (· ≤ q0 + k + 0x40000000)
        (by omega) hwaiting.near⟩,
      fun v => ?_⟩
    simp only [Has, mem_map, hmem]
    constructor
    · rintro (hv | ⟨p, rfl | ⟨hp, -⟩, rfl⟩)
      · exact .inl (.inl hv)
      · exact .inr rfl
      · exact .inl (.inr ⟨p, hp, rfl⟩)
    rintro ((hv | ⟨p, hp, rfl⟩) | rfl)
    · exact .inl hv
    · by_cases heq : p.1 = q
      · exact .inr ⟨(q, u), .inl rfl, heq.symm⟩
      · exact .inr ⟨p, .inr ⟨hp, heq⟩, rfl⟩
    · exact .inr ⟨(v, u), .inl rfl, rfl⟩
  · have hnext : q = q0 + 1 + k := by omega
    subst hnext
    obtain ⟨hprocess, hsame⟩ := h.process u (by omega)
    rw [if_neg (by simpa using hgap)]
    obtain ⟨k', s', hpending, hk, hcounted, hwaiting', hhas⟩ :=
      processPending_ok hprocess hbound
        (fun p hp => by have := hwaiting.late p (hsame ▸ hp); push_cast; omega)
        (fun p hp => hwaiting.le_last p (hsame ▸ hp))
        (fun p hp => by have := hwaiting.near p (hsame ▸ hp); push_cast; omega)
    refine ⟨k', s', hpending, by omega, hcounted, hwaiting', fun v => (hhas v).trans ?_⟩
    simp only [Has, hsame]
    constructor
    · rintro (hv | hv)
      · by_cases heq : v = q0 + 1 + k
        · exact .inr heq
        · exact .inl (.inl (by omega))
      · exact .inl (.inr hv)
    · rintro ((hv | hv) | hv)
      · exact .inl (by omega)
      · exact .inr hv
      · exact .inl (by omega)

/-- The checkpoints are delivered one after the other, and none of them is 0. -/
theorem foldl_delivered (hpos : 1 ≤ q0) (d m : Nat) :
    ((range' d m).map fun i : Nat => q0 + 1 + (i : Int)).foldl
      (fun db pts => if pts ≠ 0 then pts else db) (q0 + d) = q0 + (d + m : Nat) := by
  induction m generalizing d with
  | zero => rfl
  | succ m ih =>
    rw [range'_succ, map_cons, foldl_cons, if_pos (by omega)]
    have := ih (d + 1)
    push_cast at this
    rw [show q0 + 1 + d = q0 + (d + 1) by omega]
    omega

theorem mark_changes (i : Nat) :
    ChangesProcessor.mark (changes q0 acked k) i = changes q0 (acked ++ [i + 1]) k := by
  refine ext_getElem? fun j => ?_
  rw [ChangesProcessor.getElem?_mark, changes, changes, getElem?_map, getElem?_map]
  by_cases hj : j < k
  · rw [getElem?_range hj]
    simp
  · rw [getElem?_eq_none (by simpa using hj)]
    rfl

theorem delivered_eq {d' : Nat} (hd : d' ≤ k) :
    (((changes q0 acked k).take d').drop d).map Prod.fst
      = (range' d (d' - d)).map fun i : Nat => q0 + 1 + (i : Int) := by
  rw [changes, ← map_take, ← map_drop, take_range, Nat.min_eq_left hd,
    range_eq_range']
  simp [Function.comp_def]

/-- A qts is saved now, or later, or not at all. -/
theorem Counted.save (h : Counted q0 acked k d base s) (hq : q ≤ q0 + d) (now : Int) :
    Counted q0 acked k d base (s.saveQts q now) ∧
      (s.saveQts q now).pendingQtsUpdates = s.pendingQtsUpdates := by
  have hpos := h.start_pos
  unfold saveQts
  split
  · rename_i hignore
    split
    · refine ⟨{ h with saved_le := hq, pending_le := ?_, ignored := fun _ => rfl }, rfl⟩
      show 0 ≤ _
      omega
    · exact ⟨{ h with pending_le := hq, ignored := fun hi => absurd hi hignore }, rfl⟩
  · exact ⟨h, rfl⟩

/-- An update is acknowledged. -/
theorem ack_ok (h : Counted q0 acked k d base s) {id : Nat} (hid : id ∈ s.promises.map Prod.snd)
    (now : Int) :
    ∃ d' base', Counted q0 (acked ++ [id]) k d' base' (s.onQtsAck id now) ∧
      (s.onQtsAck id now).pendingQtsUpdates = s.pendingQtsUpdates := by
  have hpos := h.start_pos
  have hbound := h.bounded
  obtain ⟨i, hi, rfl⟩ : ∃ i < k, i + 1 = id := by
    rw [h.promises_eq, map_map, mem_map] at hid
    obtain ⟨i, hi, hid⟩ := hid
    exact ⟨i, mem_range.mp hi, hid⟩
  obtain ⟨base', d', hd, hfollows, hdelivered⟩ := h.follows.finish_ok
    (show i < (changes q0 acked k).length by simpa using hi)
    (by rw [length_changes, ChangesProcessor.sizeLimit]; omega)
  rw [add_comm 1 i, Nat.mod_eq_of_lt (by rw [ChangesProcessor.sizeLimit]; omega),
    mark_changes] at hfollows hdelivered
  have hd_le : d' ≤ k := by simpa using hfollows.le_length
  rw [delivered_eq hd_le] at hdelivered
  have hdb : (s.qtsManager.finish (i + 1)).dbPts = q0 + d' := by
    show (s.qtsManager.stateHelper.finish (i + 1)).2.foldl _ s.qtsManager.dbPts = _
    rw [hdelivered, h.db_eq, foldl_delivered hpos, Nat.add_sub_cancel' hd]
  have hcounted : Counted q0 (acked ++ [i + 1]) k d' base'
      { s with qtsManager := s.qtsManager.finish (i + 1) } := {
    h with
    acked_le := by
      intro id hid
      rcases mem_append.mp hid with hid | hid
      · exact h.acked_le id hid
      · rw [mem_singleton.mp hid]
        exact hi
    follows := hfollows
    db_eq := hdb
    saved_le := by
      have := h.saved_le
      show s.savedQts ≤ _
      omega
    pending_le := by
      have := h.pending_le
      show s.pendingQts ≤ _
      omega }
  refine ⟨d', base', ?_⟩
  rw [onQtsAck]
  split
  · exact hcounted.save (le_of_eq hdb) now
  · exact ⟨hcounted, rfl⟩

/-- The qts that was put off is saved. -/
theorem timeout_ok (h : Counted q0 acked k d base s) {now : Int} (hnow : s.lastQtsSaveTime ≤ now) :
    ∃ s', s.timeoutExpired now = some s' ∧ Counted q0 acked k d base s' ∧
      s'.pendingQtsUpdates = s.pendingQtsUpdates := by
  unfold timeoutExpired
  split
  · rename_i hpending
    have hshift : Counted q0 acked k d base { s with lastQtsSaveTime := s.lastQtsSaveTime - 100 } :=
      { h with }
    have hignore : ¬ s.ignoreBackgroundUpdates = true := fun hi => hpending (h.ignored hi)
    obtain ⟨hcounted, hsame⟩ := hshift.save h.pending_le now
    refine ⟨_, if_pos ?_, hcounted, hsame⟩
    rw [saveQts, if_pos hignore, if_pos (.inl (by dsimp only; omega))]
  · exact ⟨s, rfl, h, rfl⟩

/-! ## Runs -/

/-- The first `k` qts after `q0`. -/
def upTo (q0 : Int) (k : Nat) : List Int := (range k).map fun i : Nat => q0 + 1 + (i : Int)

/-- The updates were processed in order, each once, up to the first one that has not arrived. -/
def ProcessedInOrder (q0 : Int) (n : Nat) (history : List (Event υ)) (s : QtsUpdates υ) : Prop :=
  ∃ k ≤ n, s.processed.map Prod.fst = upTo q0 k ∧ (∀ q ∈ upTo q0 k, q ∈ arrived history) ∧
    (k < n → q0 + 1 + k ∉ arrived history)

/-- Everything up to the saved qts was acknowledged. -/
def SavedAcknowledged (q0 : Int) (history : List (Event υ)) (s : QtsUpdates υ) : Prop :=
  ∀ q, q0 < q → q ≤ s.savedQts → ∃ id, (q, id) ∈ s.promises ∧ id ∈ acknowledged history

/-- What is known after a history. -/
structure After (q0 : Int) (n : Nat) (history : List (Event υ)) (k d base : Nat)
    (s : QtsUpdates υ) : Prop where
  counted : Counted q0 (acknowledged history) k d base s
  waiting : Waiting q0 n k s
  le_last : k ≤ n
  has_iff : ∀ q, q0 < q → (Has q0 k s q ↔ q ∈ arrived history)

variable {history : List (Event υ)}

theorem arrived_append (e : Event υ) : arrived (history ++ [e]) = arrived history ++ arrived [e] :=
  filterMap_append

theorem acknowledged_append (e : Event υ) :
    acknowledged (history ++ [e]) = acknowledged history ++ acknowledged [e] :=
  filterMap_append

/-- Nothing arrives. -/
theorem After.same {d' base' : Nat} {e : Event υ} (h : After q0 n history k d base s)
    (harrived : arrived [e] = [])
    (hcounted : Counted q0 (acknowledged (history ++ [e])) k d' base' s')
    (hsame : s'.pendingQtsUpdates = s.pendingQtsUpdates) :
    After q0 n (history ++ [e]) k d' base' s' where
  counted := hcounted
  waiting := ⟨hsame ▸ h.waiting.late, hsame ▸ h.waiting.le_last, hsame ▸ h.waiting.near⟩
  le_last := h.le_last
  has_iff q hq := by
    rw [Has, hsame, arrived_append, harrived, append_nil]
    exact h.has_iff q hq

/-- **One event.** -/
theorem After.step_ok (h : After q0 n history k d base s) (hbound : q0 + n < 0x80000000)
    {e : Event υ} (he : Possible q0 n s e) (hnear : Near s e) :
    ∃ k' d' base' s', s.step e = some s' ∧ After q0 n (history ++ [e]) k' d' base' s' := by
  cases e with
  | arrive u q =>
    obtain ⟨k', s', hs, hk, hcounted, hwaiting, hhas⟩ :=
      arrive_ok h.counted h.waiting hbound u he hnear
    refine ⟨k', d, base, s', hs, ?_, hwaiting, ?_, fun v hv => ?_⟩
    · rw [acknowledged_append]
      exact (append_nil _).symm ▸ hcounted
    · -- the last update that was processed has arrived
      rcases Nat.eq_zero_or_pos k' with rfl | hpos
      · exact Nat.zero_le n
      rcases (hhas (q0 + k')).mp (.inl le_rfl) with (hle | hin) | heq
      · have := h.le_last
        omega
      · obtain ⟨p, hp, heq⟩ := mem_map.mp hin
        have := h.waiting.le_last p hp
        omega
      · have := he.2
        omega
    · rw [hhas, h.has_iff v hv, arrived_append, mem_append]
      exact or_congr_right mem_singleton.symm
  | ack id now =>
    obtain ⟨d', base', hcounted, hsame⟩ := ack_ok h.counted he now
    refine ⟨k, d', base', _, rfl, h.same rfl ?_ hsame⟩
    rw [acknowledged_append]
    exact hcounted
  | timeout now =>
    obtain ⟨s', hs, hcounted, hsame⟩ := timeout_ok h.counted he
    refine ⟨k, d, base, s', hs, h.same rfl ?_ hsame⟩
    rw [acknowledged_append]
    exact (append_nil _).symm ▸ hcounted

theorem Run.after (hpos : 1 ≤ q0) (hbound : q0 + n < 0x80000000) {isBot ignore : Bool} {now : Int}
    (h : Run (.new q0 isBot ignore now) (fun s e => Possible q0 n s e ∧ Near s e) history s) :
    ∃ k d base, After q0 n history k d base s := by
  induction h with
  | start =>
    refine ⟨0, 0, 0, .new hpos (by omega) isBot ignore now, ⟨?_, ?_, ?_⟩, Nat.zero_le n,
      fun q hq => ?_⟩
    · exact nofun
    · exact nofun
    · exact nofun
    · constructor
      · rintro (hle | hin)
        · exact absurd hle (by push_cast; omega)
        · cases hin
      · exact nofun
  | step _ he hs ih =>
    obtain ⟨k, d, base, hafter⟩ := ih
    obtain ⟨k', d', base', s', hs', hafter'⟩ := hafter.step_ok hbound he.1 he.2
    rw [hs'] at hs
    cases hs
    exact ⟨k', d', base', hafter'⟩

theorem After.processedInOrder (h : After q0 n history k d base s) :
    ProcessedInOrder q0 n history s := by
  refine ⟨k, h.le_last, h.counted.processed_eq, fun q hq => ?_, fun _ hin => ?_⟩
  · obtain ⟨i, hi, rfl⟩ := mem_map.mp hq
    have := mem_range.mp hi
    exact (h.has_iff _ (by omega)).mp (.inl (by omega))
  -- the next update is neither processed nor waiting
  rcases (h.has_iff _ (by omega)).mpr hin with hle | hin
  · omega
  · obtain ⟨p, hp, heq⟩ := mem_map.mp hin
    have := h.waiting.late p hp
    omega

theorem After.savedAcknowledged (h : After q0 n history k d base s) :
    SavedAcknowledged q0 history s := by
  intro q hq hle
  have hsaved := h.counted.saved_le
  have hd : d ≤ k := by simpa using h.counted.follows.le_length
  obtain ⟨i, rfl⟩ : ∃ i : Nat, q = q0 + 1 + i := ⟨(q - q0 - 1).toNat, by omega⟩
  refine ⟨i + 1, ?_, h.counted.acked_of_lt (by omega)⟩
  rw [h.counted.promises_eq]
  exact mem_map.mpr ⟨i, mem_range.mpr (by omega), rfl⟩

/-- **Updates are processed once and in order, and the saved qts is never too high**, whatever
arrives in whatever order and however often, and in whatever order it is acknowledged, as long as
no update is far behind or far ahead when it arrives. No check fails. -/
theorem qts_in_order (hpos : 1 ≤ q0) (hbound : q0 + n < 0x80000000) {isBot ignore : Bool}
    {now : Int}
    (h : Run (.new q0 isBot ignore now) (fun s e => Possible q0 n s e ∧ Near s e) history s) :
    ProcessedInOrder q0 n history s ∧ SavedAcknowledged q0 history s ∧
      ∀ e, Possible q0 n s e → Near s e → (s.step e).isSome = true := by
  obtain ⟨k, d, base, hafter⟩ := h.after hpos hbound
  refine ⟨hafter.processedInOrder, hafter.savedAcknowledged, fun e he hnear => ?_⟩
  obtain ⟨k', d', base', s', hs, -⟩ := hafter.step_ok hbound he hnear
  exact hs ▸ rfl

/-- Two updates, the second one first. Both are acknowledged, again the second one first. -/
theorem qts_in_order_swapped :
    ∃ s : QtsUpdates Unit, Run (.new 1 false false 0) (fun s e => Possible 1 2 s e ∧ Near s e)
        [.arrive () 3, .arrive () 2, .ack 2 10, .ack 1 20] s ∧
      s.savedQts = 3 ∧ ProcessedInOrder 1 2 [.arrive () 3, .arrive () 2, .ack 2 10, .ack 1 20] s ∧
      SavedAcknowledged 1 [.arrive () 3, .arrive () 2, .ack 2 10, .ack 1 20] s := by
  have h0 : Run (.new 1 false false 0 : QtsUpdates Unit) (fun s e => Possible 1 2 s e ∧ Near s e)
      [] (.new 1 false false 0) := .start
  have h1 := h0.step (e := .arrive () 3) (by decide) rfl
  have h2 := h1.step (e := .arrive () 2) (by decide) rfl
  have h3 := h2.step (e := .ack 2 10) (by decide) rfl
  have h4 := h3.step (e := .ack 1 20) (by decide) rfl
  obtain ⟨hprocessed, hsaved, -⟩ := qts_in_order (by decide) (by decide) h4
  exact ⟨_, h4, rfl, hprocessed, hsaved⟩

/-! ## Updates that are far behind or far ahead -/

/-- In order, every update is processed when it arrives. -/
theorem run_in_order (hpos : 1 ≤ q0) (hbound : q0 + n < 0x80000000) (hk : k ≤ n) :
    ∃ history s, Run (.new q0 false false 0 : QtsUpdates Unit) (Possible q0 n) history s ∧
      s.pendingQtsUpdates.toList = [] ∧ ∃ d base, Counted q0 [] k d base s := by
  induction k with
  | zero => exact ⟨[], _, .start, rfl, 0, 0, .new hpos (by omega) false false 0⟩
  | succ k ih =>
    obtain ⟨history, s, hrun, hnil, d, base, hcounted⟩ := ih (by omega)
    obtain ⟨hprocess, hsame⟩ := hcounted.process () (by omega)
    have hqts := hcounted.qts_eq
    have hrestore : s.restoreQts (q0 + 1 + k) = some s := if_neg (by omega)
    have hstep : s.step (.arrive () (q0 + 1 + k)) = some (s.processQtsUpdate () (q0 + 1 + k)) := by
      rw [step, addPendingQtsUpdate, if_neg (by omega), hrestore, Option.bind_some, addChecked,
        if_neg (by omega), if_neg (by simp [hcounted.running]; omega), processPendingQtsUpdates,
        if_pos (by rw [hsame, hnil])]
    exact ⟨_, _, hrun.step (by simp only [Possible]; omega) hstep, by rw [hsame, hnil], d, base,
      hprocess⟩

/-- After 100003 updates the first one arrives again, and it is processed again. -/
theorem far_behind_twice :
    ∃ history, ∃ s : QtsUpdates Unit, Run (.new 1 false false 0) (Possible 1 100003) history s ∧
      ¬ (s.processed.map Prod.fst).Nodup := by
  obtain ⟨history, s, hrun, hnil, d, base, hcounted⟩ :=
    run_in_order (n := 100003) (k := 100003) le_rfl (by omega) le_rfl
  have hqts : s.getQts = 100004 := hcounted.qts_eq
  have hrunning := hcounted.running
  have hprocessed := hcounted.processed_eq
  -- the qts goes back to 1, and the update with the qts 2 is the next one
  let s1 : QtsUpdates Unit := { s.addQts 1 with lastGetDifferenceQts := 1 }
  have hrestore : s.restoreQts 2 = some s1 := by
    rw [restoreQts, if_pos (by omega)]
    rfl
  have hstep : s.step (.arrive () 2) = some (s1.processQtsUpdate () 2) := by
    have hchecked : s1.addChecked () 2 = (s1.processQtsUpdate () 2).processPendingQtsUpdates := by
      have hone : s1.getQts = 1 := rfl
      have hidle : s1.runningGetDifference = false := hrunning
      rw [addChecked, if_neg (by omega), if_neg (by simp [hone, hidle])]
    rw [step, addPendingQtsUpdate, if_neg (by decide), hrestore, Option.bind_some, hchecked,
      processPendingQtsUpdates, if_pos]
    exact hnil
  refine ⟨_, _, hrun.step (by simp [Possible]) hstep, ?_⟩
  show ¬ ((s.processed ++ [(2, ())]).map Prod.fst).Nodup
  rw [map_append, hprocessed]
  intro hnodup
  exact (nodup_append.mp hnodup).2.2 2 (mem_map.mpr ⟨0, by simp, rfl⟩) 2
    mem_cons_self rfl

/-- An update that is far ahead waits until the next one arrives, and then it is dropped. -/
theorem far_ahead_dropped :
    ∃ s : QtsUpdates Unit, Run (.new 1 false false 0) (Possible 1 0x40000002)
        [.arrive () 0x40000003, .arrive () 2] s ∧
      s.processed = [(2, ())] ∧ s.pendingQtsUpdates.toList = [] := by
  have h0 : Run (.new 1 false false 0 : QtsUpdates Unit) (Possible 1 0x40000002) [] _ := .start
  have h1 := h0.step (e := .arrive () 0x40000003) (by decide) rfl
  have h2 := h1.step (e := .arrive () 2) (by decide) rfl
  exact ⟨_, h2, rfl, rfl⟩

/-- **Updates that are far away are processed twice or lost.** -/
theorem far_away_wrong :
    (∃ history, ∃ s : QtsUpdates Unit, Run (.new 1 false false 0) (Possible 1 100003) history s ∧
      ¬ (s.processed.map Prod.fst).Nodup) ∧
    ∃ history, ∃ s : QtsUpdates Unit, Run (.new 1 false false 0) (Possible 1 0x40000002) history s ∧
      0x40000003 ∈ arrived history ∧ s.processed = [(2, ())] ∧ s.pendingQtsUpdates.toList = [] := by
  obtain ⟨s, hrun, hprocessed, hnil⟩ := far_ahead_dropped
  exact ⟨far_behind_twice, _, s, hrun, mem_cons_self, hprocessed, hnil⟩

end Tdlib.Updates.QtsUpdates
