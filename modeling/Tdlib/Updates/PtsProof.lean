import Tdlib.Updates.Pts

/-!
# Updates are applied in order

The updates of the server are a tiling of the pts from the first one on. What the
client has processed is an initial piece of it, its pts is the end of this piece,
and the updates that wait are a part of what comes after.

The counts of a part add up to the distance to its end only if nothing is left
out. So the sum of the counts is as good a test as looking for the gap, as long as
no update waits twice.
-/

namespace Tdlib.Updates

open Lib List UpdatesManager

variable {υ : Type} {kind : Kind υ} {p : Int} {rest part : List (PendingPtsUpdate υ)}
  {u : PendingPtsUpdate υ} {s s' : UpdatesManager υ}

/-- The updates follow one another. -/
abbrev InARow (p : Int) (l : List (PendingPtsUpdate υ)) : Prop :=
  Tiled PendingPtsUpdate.pts PendingPtsUpdate.ptsCount p l

/-- The pts after some updates. -/
abbrev ptsAfter (p : Int) (l : List (PendingPtsUpdate υ)) : Int := endOf PendingPtsUpdate.pts p l

abbrev counts (l : List (PendingPtsUpdate υ)) : Int := widths PendingPtsUpdate.ptsCount l

/-! ## Waiting -/

theorem mem_emplace {v : PendingPtsUpdate υ} : v ∈ emplace u part ↔ v = u ∨ v ∈ part := by
  induction part with
  | nil => simp [emplace]
  | cons w part ih =>
    rw [emplace]
    split
    · exact mem_cons
    · rw [mem_cons, ih, mem_cons]
      exact or_left_comm

theorem counts_emplace : counts (emplace u part) = u.ptsCount + counts part := by
  induction part with
  | nil => rfl
  | cons w part ih =>
    rw [emplace]
    split
    · rfl
    · show w.ptsCount + counts (emplace u part) = u.ptsCount + (w.ptsCount + counts part)
      omega

/-- An update of the row is put where it belongs. -/
theorem sublist_emplace (h : InARow p rest) (hpart : part.Sublist rest) (hu : u ∈ rest)
    (hnot : u ∉ part) : (emplace u part).Sublist rest := by
  induction hpart generalizing p with
  | slnil => cases hu
  | @cons part rest v hsub ih =>
    rcases mem_cons.mp hu with rfl | hu
    · -- everything in the list comes later
      have hfront : emplace u part = u :: part := by
        cases part with
        | nil => rfl
        | cons w part => exact if_pos (h.2.2.lt_stop (hsub.subset mem_cons_self))
      rw [hfront]
      exact hsub.cons_cons u
    · exact (ih h.2.2 hu hnot).cons v
  | @cons_cons part rest v hsub ih =>
    rw [mem_cons, not_or] at hnot
    have hu : u ∈ rest := (mem_cons.mp hu).resolve_left hnot.1
    have hlt := h.2.2.lt_stop hu
    rw [emplace, if_neg (by omega)]
    exact (ih h.2.2 hu hnot.2).cons_cons v

/-! ## The pts -/

namespace UpdatesManager

theorem setPts_ok (hlt : s.pts < p) (hpos : 0 < p) (hbound : p < 0x40000000) :
    ∃ last retry, s.setPts p
      = some { s with pts := p, lastGetDifferencePts := last, retryTimeout := retry } := by
  have hmax : int32Max = 2147483647 := rfl
  unfold setPts
  rw [if_neg (by omega), if_pos (.inl hlt), addPts, if_pos hpos]
  dsimp only
  split
  · exact ⟨_, _, rfl⟩
  · exact ⟨_, _, rfl⟩

theorem foldl_process (s : UpdatesManager υ) (l : List (PendingPtsUpdate υ)) :
    l.foldl process s = { s with processed := s.processed ++ l } := by
  induction l generalizing s with
  | nil => rw [append_nil]; rfl
  | cons u l ih =>
    rw [foldl_cons, ih, process, append_assoc]
    rfl

/-- **The loop of `process_pending_pts_updates`** takes the pending updates that follow the pts
without a gap, and leaves the others. -/
theorem processPendingLoop_ok (h : InARow s.pts rest) (hpart : part.Sublist rest) (hpos : 0 < s.pts)
    (hbound : ∀ u ∈ rest, u.pts < 0x40000000) (hacc : s.accumulatedPts ≠ -1)
    (hle : ∀ u ∈ part, u.pts ≤ s.accumulatedPts) (hcount : counts part ≤ s.accumulatedPtsCount)
    (processed : Bool) :
    ∃ front back left last retry processed', rest = front ++ back ∧ part = front ++ left ∧
      left.Sublist back ∧ (∀ u l, back = u :: l → u ∉ left) ∧
      processPendingLoop processed s part = some ({ s with
        pts := ptsAfter s.pts front
        processed := s.processed ++ front
        accumulatedPtsCount := s.accumulatedPtsCount - counts front
        lastGetDifferencePts := last
        retryTimeout := retry }, left, processed') := by
  induction hpart generalizing s processed with
  | slnil =>
    refine ⟨[], [], [], s.lastGetDifferencePts, s.retryTimeout, processed, rfl, rfl, .slnil,
      nofun, ?_⟩
    simp [processPendingLoop, endOf, widths]
  | @cons part rest v hsub ih =>
    -- the next update is missing, so the loop stops at once
    have hlater : ∀ w ∈ part, v.pts ≤ w.pts - w.ptsCount :=
      fun w hw => (h.2.2.le_start (hsub.subset hw)).2
    refine ⟨[], v :: rest, part, s.lastGetDifferencePts, s.retryTimeout, processed, rfl, rfl,
      hsub.cons v, ?_, ?_⟩
    · intro w l hl hw
      cases hl
      have := h.2.2.lt_stop (hsub.subset hw)
      omega
    have hstay : processPendingLoop processed s part = some (s, part, processed) := by
      cases part with
      | nil => rfl
      | cons w part =>
        have := hlater w mem_cons_self
        have := h.2.1
        have := h.1
        rw [processPendingLoop, if_pos (by omega)]
    simp [hstay, endOf, widths]
  | @cons_cons part rest v hsub ih =>
    obtain ⟨hcounts, hstop, hrest⟩ := h
    obtain ⟨last, retry, hset⟩ := setPts_ok (s := s.process v) (p := v.pts)
      (by show s.pts < v.pts; omega) (by omega) (hbound v mem_cons_self)
    have hsum : v.ptsCount + counts part ≤ s.accumulatedPtsCount := hcount
    have hnonneg : 0 ≤ counts part := hrest.widths_nonneg hsub
    let s1 : UpdatesManager υ := { s with
      pts := v.pts
      processed := s.processed ++ [v]
      accumulatedPtsCount := s.accumulatedPtsCount - v.ptsCount
      lastGetDifferencePts := last
      retryTimeout := retry }
    have hfirst : s.processFirst v = some s1 := by
      rw [processFirst, if_pos hcounts, hset]
      show (if s.accumulatedPts ≠ -1 then _ else _) = _
      rw [if_pos hacc, if_pos ⟨hle v mem_cons_self, by
        show s.accumulatedPtsCount ≥ _
        omega⟩]
      rfl
    obtain ⟨front, back, left, last', retry', processed', rfl, rfl, hleft, hback, hloop⟩ :=
      ih (s := s1) hrest (by show 0 < v.pts; omega)
        (forall_mem_cons.1 hbound).2 hacc
        (forall_mem_cons.1 hle).2
        (by show counts part ≤ s.accumulatedPtsCount - v.ptsCount; omega) true
    refine ⟨v :: front, back, left, last', retry', processed', rfl, rfl, hleft, hback, ?_⟩
    rw [processPendingLoop, if_neg (by omega), hfirst, Option.bind_some, hloop]
    simp [s1, endOf, widths, Int.sub_sub]

end UpdatesManager

/-! ## The log of the server -/

/-- The updates of a server, for a client that has a pts. -/
structure ServerLog {υ : Type} (kind : Kind υ) where
  start : Int
  updates : List (PendingPtsUpdate υ)
  start_pos : 1 ≤ start
  inARow : InARow start updates
  start_bounded : start < 0x40000000
  bounded : ∀ u ∈ updates, u.pts < 0x40000000
  isPtsUpdate : ∀ u ∈ updates, kind.isPtsUpdate u.update = true

/-- The client has processed the updates `done` of the log, in this order and each once, and waits
for the first of `rest`. -/
structure Synced (log : ServerLog kind) (done rest : List (PendingPtsUpdate υ))
    (s : UpdatesManager υ) : Prop where
  updates_eq : log.updates = done ++ rest
  processed_eq : s.processed = done
  pts_eq : s.pts = ptsAfter log.start done
  /-- What is pending is of the rest, in its order. -/
  pending : s.pendingPtsUpdates.Sublist rest
  /-- The first update of the rest is missing. -/
  missing : ∀ u l, rest = u :: l → u ∉ s.pendingPtsUpdates
  count_eq : s.accumulatedPtsCount = counts s.pendingPtsUpdates
  nothing : s.pendingPtsUpdates = [] → s.accumulatedPts = -1
  /-- The accumulated `pts` is the highest that is pending. -/
  le_accumulated : ∀ u ∈ s.pendingPtsUpdates, u.pts ≤ s.accumulatedPts
  accumulated : s.pendingPtsUpdates ≠ [] → ∃ u ∈ s.pendingPtsUpdates, u.pts = s.accumulatedPts
  postponed : s.postponedPtsUpdates.Sublist log.updates
  /-- No update waits twice. -/
  apart : ∀ u ∈ s.pendingPtsUpdates, u ∉ s.postponedPtsUpdates
  /-- What is pending when `getDifference` starts is postponed. -/
  running : s.runningGetDifference = true → s.pendingPtsUpdates = []

/-- The update waits. -/
def UpdatesManager.Waits (s : UpdatesManager υ) (u : PendingPtsUpdate υ) : Prop :=
  u ∈ s.pendingPtsUpdates ∨ u ∈ s.postponedPtsUpdates

namespace Synced

variable {log : ServerLog kind} {done : List (PendingPtsUpdate υ)}

theorem new (log : ServerLog kind) : Synced log [] log.updates (.new log.start) where
  updates_eq := rfl
  processed_eq := rfl
  pts_eq := rfl
  pending := nil_sublist _
  missing _ _ _ := not_mem_nil
  count_eq := rfl
  nothing _ := rfl
  le_accumulated _ h := absurd h not_mem_nil
  accumulated h := absurd rfl h
  postponed := nil_sublist _
  apart _ h := absurd h not_mem_nil
  running h := absurd h (by simp [UpdatesManager.new])

section

variable (h : Synced log done rest s)
include h

theorem done_inARow : InARow log.start done := by
  have := log.inARow
  rw [h.updates_eq] at this
  exact (Tiled.append_iff.mp this).1

theorem rest_inARow : InARow s.pts rest := by
  have := log.inARow
  rw [h.updates_eq] at this
  rw [h.pts_eq]
  exact (Tiled.append_iff.mp this).2

theorem pts_pos : 0 < s.pts := by
  have := h.done_inARow.stop_le_endOf.1
  have := log.start_pos
  rw [h.pts_eq, ptsAfter]
  omega

theorem rest_bounded (hu : u ∈ rest) : u.pts < 0x40000000 :=
  log.bounded u (h.updates_eq ▸ mem_append_right done hu)

/-- **An update is processed as soon as its pts is reached.** -/
theorem pts_le_iff (hu : u ∈ log.updates) : u.pts ≤ s.pts ↔ u ∈ done := by
  rw [h.updates_eq, mem_append] at hu
  constructor
  · intro hle
    refine hu.resolve_right fun hrest => ?_
    have := h.rest_inARow.lt_stop hrest
    omega
  · intro hdone
    rw [h.pts_eq]
    exact h.done_inARow.stop_le_endOf.2 u hdone

theorem gapTimeout (set : Bool) : Synced log done rest { s with ptsGapTimeout := set } :=
  { h with }

end

theorem postponed_waits {v : PendingPtsUpdate υ} :
    (s.postponePtsUpdate u).Waits v ↔ s.Waits v ∨ v = u := by
  rw [Waits, Waits, postponePtsUpdate, mem_emplace, or_comm (a := v = u), or_assoc]

theorem postpone (h : Synced log done rest s) (hu : u ∈ log.updates) (hfresh : ¬ s.Waits u) :
    Synced log done rest (s.postponePtsUpdate u) :=
  { h with
    postponed := sublist_emplace log.inARow h.postponed hu fun hin => hfresh (.inr hin)
    apart := by
      intro v hv hin
      rcases mem_emplace.mp hin with rfl | hin
      · exact hfresh (.inl hv)
      · exact h.apart v hv hin }

/-- The next updates have been processed, and none is pending any more. -/
theorem advance {front back : List (PendingPtsUpdate υ)} (h : Synced log done (front ++ back) s)
    (hprocessed : s'.processed = s.processed ++ front) (hpts : s'.pts = ptsAfter s.pts front)
    (hpending : s'.pendingPtsUpdates = []) (hcount : s'.accumulatedPtsCount = 0)
    (hacc : s'.accumulatedPts = -1) (hpostponed : s'.postponedPtsUpdates.Sublist log.updates) :
    Synced log (done ++ front) back s' where
  updates_eq := by rw [h.updates_eq, append_assoc]
  processed_eq := by rw [hprocessed, h.processed_eq]
  pts_eq := by rw [hpts, h.pts_eq]; exact (endOf_append ..).symm
  pending := hpending ▸ nil_sublist _
  missing _ _ _ := hpending ▸ not_mem_nil
  count_eq := by rw [hcount, hpending]; rfl
  nothing _ := hacc
  le_accumulated _ hv := absurd (hpending ▸ hv) not_mem_nil
  accumulated hne := absurd hpending hne
  postponed := hpostponed
  apart _ hv := absurd (hpending ▸ hv) not_mem_nil
  running _ := hpending

/-- What the accumulated count and pts stand for when the update is counted. -/
theorem counted (h : Synced log done rest s) (hu : u ∈ rest) :
    (s.count u).accumulatedPtsCount = counts (emplace u s.pendingPtsUpdates) ∧
      (∀ v ∈ emplace u s.pendingPtsUpdates, v.pts ≤ (s.count u).accumulatedPts) ∧
      ∃ v ∈ emplace u s.pendingPtsUpdates, v.pts = (s.count u).accumulatedPts := by
  have hpos := h.pts_pos
  have hlt := h.rest_inARow.lt_stop hu
  refine ⟨?_, ?_, ?_⟩
  · rw [counts_emplace, ← h.count_eq]
    exact Int.add_comm _ _
  · intro v hv
    show v.pts ≤ if u.pts > s.accumulatedPts then u.pts else s.accumulatedPts
    rcases mem_emplace.mp hv with rfl | hv
    · split <;> omega
    · have := h.le_accumulated v hv
      split <;> omega
  show ∃ v : PendingPtsUpdate υ, v ∈ _ ∧
    v.pts = if u.pts > s.accumulatedPts then u.pts else s.accumulatedPts
  by_cases hgt : u.pts > s.accumulatedPts
  · exact ⟨u, mem_emplace.mpr (.inl rfl), (if_pos hgt).symm⟩
  -- without pending updates the accumulated pts would be -1
  have hne : s.pendingPtsUpdates ≠ [] := fun hnil => by
    have := h.nothing hnil
    omega
  obtain ⟨v, hv, hmax⟩ := h.accumulated hne
  exact ⟨v, mem_emplace.mpr (.inr hv), by rw [if_neg hgt, hmax]⟩

/-- Everything that waits is processed at once, whether by itself or from the list. -/
theorem addCounted_all {back : List (PendingPtsUpdate υ)}
    (h : Synced log done (emplace u s.pendingPtsUpdates ++ back) s)
    (hall : s.pts = (s.count u).accumulatedPts - (s.count u).accumulatedPtsCount)
    (hend : ptsAfter s.pts (emplace u s.pendingPtsUpdates) = (s.count u).accumulatedPts) :
    ∃ s', (s.count u).addCounted u = some s' ∧
      Synced log (done ++ emplace u s.pendingPtsUpdates) back s' ∧ s'.pendingPtsUpdates = [] ∧
      s'.postponedPtsUpdates = s.postponedPtsUpdates ∧
      s'.runningGetDifference = s.runningGetDifference := by
  have hu : u ∈ emplace u s.pendingPtsUpdates ++ back :=
    mem_append_left _ (mem_emplace.mpr (.inl rfl))
  have hstart := h.rest_inARow.le_start hu
  obtain ⟨-, hle, v, hv, hmax⟩ := h.counted hu
  have hu_le := hle u (mem_emplace.mpr (.inl rfl))
  have hbound := h.rest_bounded (mem_append_left back hv)
  have hpos := h.pts_pos
  rw [hmax] at hbound
  unfold addCounted
  dsimp only
  by_cases hfast : (s.count u).pendingPtsUpdates = [] ∧
      (s.count u).pts = (s.count u).accumulatedPts - (s.count u).accumulatedPtsCount ∧
        ¬ (s.count u).ptsGapTimeout = true
  · have hone : emplace u s.pendingPtsUpdates = [u] := by
      have hnil : s.pendingPtsUpdates = [] := hfast.1
      rw [hnil, emplace]
    obtain ⟨last, retry, hset⟩ := setPts_ok (s := (s.count u).process u)
      (p := (s.count u).accumulatedPts) (by show s.pts < _; omega) (by omega) hbound
    rw [if_pos hfast, if_pos hstart.1, hset]
    exact ⟨_, rfl, h.advance (by rw [hone]; rfl) hend.symm hfast.1 rfl rfl h.postponed,
      hfast.1, rfl, rfl⟩
  have hcount : (s.count u).pts = s.pts := rfl
  rw [if_neg hfast, if_neg (by omega), if_pos (hcount.trans hall),
    processAllPendingPtsUpdates, foldl_process]
  obtain ⟨last, retry, hset⟩ := setPts_ok
    (s := { s.count u with
      pendingPtsUpdates := emplace u s.pendingPtsUpdates
      processed := s.processed ++ emplace u s.pendingPtsUpdates })
    (p := (s.count u).accumulatedPts) (by show s.pts < _; omega) (by omega) hbound
  refine ⟨_, congrArg (bind · _) hset, h.advance rfl hend.symm rfl rfl rfl h.postponed, rfl,
    rfl, rfl⟩

section

variable (h : Synced log done rest s) (hu : u ∈ rest)
  (hsub : (emplace u s.pendingPtsUpdates).Sublist rest) (hrunning : s.runningGetDifference = false)
  (hpostponed : s.postponedPtsUpdates = [])
  (hgap : s.pts < (s.count u).accumulatedPts - (s.count u).accumulatedPtsCount)
include h hu hsub hrunning hpostponed hgap

/-- The update was the next one, but there is another gap behind it. -/
theorem addCounted_next (hnext : s.pts = u.pts - u.ptsCount) :
    ∃ front back s', (s.count u).addCounted u = some s' ∧ Synced log (done ++ front) back s' ∧
      emplace u s.pendingPtsUpdates = front ++ s'.pendingPtsUpdates ∧
      s'.postponedPtsUpdates = [] ∧ s'.runningGetDifference = false := by
  obtain ⟨hcount, hle, v, hv, hmax⟩ := h.counted hu
  have hlt := h.rest_inARow.lt_stop hu
  have hpos := h.pts_pos
  have hle_u := hle u (mem_emplace.mpr (.inl rfl))
  obtain ⟨front, back, left, last, retry, processed, rfl, hpart, hleft, hback, hloop⟩ :=
    processPendingLoop_ok
      (s := { s.count u with pendingPtsUpdates := emplace u s.pendingPtsUpdates })
      h.rest_inARow hsub hpos (fun u hu => h.rest_bounded hu)
      (by show (s.count u).accumulatedPts ≠ -1; omega) hle (Int.le_of_eq hcount.symm) false
  obtain ⟨hfront, hbehind⟩ := Tiled.append_iff.mp h.rest_inARow
  have hsum : counts (emplace u s.pendingPtsUpdates) = counts front + counts left := by
    rw [hpart]
    exact widths_append ..
  -- the last update that waits is behind the gap
  have hmax_left : v ∈ left := by
    rw [hpart, mem_append] at hv
    refine hv.resolve_left fun hv => ?_
    have hv_le : v.pts ≤ ptsAfter s.pts front := hfront.stop_le_endOf.2 v hv
    cases left with
    | nil =>
      have hcover : ptsAfter s.pts front = s.pts + counts front := hfront.endOf_eq
      have : counts ([] : List (PendingPtsUpdate υ)) = 0 := rfl
      omega
    | cons w left =>
      have : ptsAfter s.pts front < w.pts := hbehind.lt_stop (hleft.subset mem_cons_self)
      have := hle w (hpart ▸ mem_append_right front mem_cons_self)
      omega
  have hcounted : (s.count u).pts = s.pts := rfl
  obtain ⟨timeout, hadd⟩ : ∃ timeout, (s.count u).addCounted u = some { s.count u with
      pts := ptsAfter s.pts front
      processed := s.processed ++ front
      accumulatedPtsCount := (s.count u).accumulatedPtsCount - counts front
      lastGetDifferencePts := last
      retryTimeout := retry
      pendingPtsUpdates := left
      ptsGapTimeout := timeout } := by
    refine ⟨(s.ptsGapTimeout && !processed) || !left.isEmpty, ?_⟩
    unfold addCounted
    dsimp only
    rw [if_neg (by omega), if_pos (by omega), if_pos (by omega)]
    exact congrArg (bind · _) hloop
  refine ⟨front, back, _, hadd, ?_, hpart, hpostponed, hrunning⟩
  · exact {
      updates_eq := by rw [h.updates_eq, append_assoc]
      processed_eq := congrArg (· ++ front) h.processed_eq
      pts_eq := by
        rw [h.pts_eq]
        exact (endOf_append ..).symm
      pending := hleft
      missing := hback
      count_eq := by
        show (s.count u).accumulatedPtsCount - counts front = counts left
        omega
      nothing := fun hnil => absurd hmax_left (eq_nil_iff_forall_not_mem.mp hnil v)
      le_accumulated := fun w hw => hle w (hpart ▸ mem_append_right front hw)
      accumulated := fun _ => ⟨v, hmax_left, hmax⟩
      postponed := h.postponed
      apart := fun _ _ hin => absurd (hpostponed ▸ hin) not_mem_nil
      running := fun hrun => absurd (hrunning.symm.trans hrun) (by simp) }

/-- Something is missing before the update. -/
theorem addCounted_wait (hnext : s.pts ≠ u.pts - u.ptsCount) :
    ∃ s', (s.count u).addCounted u = some s' ∧ Synced log done rest s' ∧
      s'.pendingPtsUpdates = emplace u s.pendingPtsUpdates ∧
      s'.postponedPtsUpdates = [] ∧ s'.runningGetDifference = false := by
  obtain ⟨hcount, hle, v, hv, hmax⟩ := h.counted hu
  have hcounted : (s.count u).pts = s.pts := rfl
  refine ⟨({ s.count u with pendingPtsUpdates := emplace u s.pendingPtsUpdates } :
    UpdatesManager υ).setPtsGapTimeout, ?_, ?_, rfl, hpostponed, hrunning⟩
  · unfold addCounted
    dsimp only
    rw [if_neg (by omega), if_pos (by omega), if_neg (by omega)]
    rfl
  exact {
    h with
    pending := hsub
    missing := by
      intro w l hl hw
      rcases mem_emplace.mp hw with rfl | hw
      · subst hl
        exact hnext (by have := h.rest_inARow.2.1; omega)
      · exact h.missing w l hl hw
    count_eq := hcount
    nothing := fun hnil => absurd hv (eq_nil_iff_forall_not_mem.mp hnil v)
    le_accumulated := hle
    accumulated := fun _ => ⟨v, hv, hmax⟩
    apart := fun _ _ hin => absurd (hpostponed ▸ hin) not_mem_nil
    running := fun hrun => absurd (hrunning.symm.trans hrun) (by simp) }

end

/-- What becomes of an update of the rest: everything that waits can be processed, or a part of it,
or the update waits too. -/
theorem addCounted_ok (h : Synced log done rest s) (hu : u ∈ rest)
    (hsub : (emplace u s.pendingPtsUpdates).Sublist rest)
    (hsum : s.pts ≤ (s.count u).accumulatedPts - (s.count u).accumulatedPtsCount)
    (hrunning : s.runningGetDifference = false) (hpostponed : s.postponedPtsUpdates = []) :
    ∃ front back s', (s.count u).addCounted u = some s' ∧ Synced log (done ++ front) back s' ∧
      (∀ v, v ∈ front ∨ v ∈ s'.pendingPtsUpdates ↔ v ∈ emplace u s.pendingPtsUpdates) ∧
      s'.postponedPtsUpdates = [] ∧ s'.runningGetDifference = false := by
  obtain ⟨hcount, hle, hmax⟩ := h.counted hu
  by_cases hall : s.pts = (s.count u).accumulatedPts - (s.count u).accumulatedPtsCount
  · obtain ⟨back, rfl⟩ := (h.rest_inARow.part_le hsub hle hmax).2
      (by show s.pts + counts (emplace u s.pendingPtsUpdates) = _; omega)
    have hend : ptsAfter s.pts (emplace u s.pendingPtsUpdates)
        = s.pts + counts (emplace u s.pendingPtsUpdates) :=
      (Tiled.append_iff.mp h.rest_inARow).1.endOf_eq
    obtain ⟨s', hadd, hsynced, hnil, hpost, hrun⟩ := h.addCounted_all hall (by omega)
    exact ⟨_, back, s', hadd, hsynced, fun v => by simp [hnil], hpost.trans hpostponed,
      hrun.trans hrunning⟩
  have hgap : s.pts < (s.count u).accumulatedPts - (s.count u).accumulatedPtsCount := by omega
  by_cases hnext : s.pts = u.pts - u.ptsCount
  · obtain ⟨front, back, s', hadd, hsynced, hpart, hpost, hrun⟩ :=
      h.addCounted_next hu hsub hrunning hpostponed hgap hnext
    exact ⟨front, back, s', hadd, hsynced, fun v => by rw [hpart, mem_append], hpost, hrun⟩
  · obtain ⟨s', hadd, hsynced, hpart, hpost, hrun⟩ :=
      h.addCounted_wait hu hsub hrunning hpostponed hgap hnext
    exact ⟨[], rest, s', hadd, by rwa [append_nil], fun v => by simp [hpart], hpost, hrun⟩

/-- What is said of a client after an update: the update was processed or it waits, and nothing
else is lost. -/
structure Added (kind : Kind υ) (u : PendingPtsUpdate υ) (after : Bool)
    (done done' : List (PendingPtsUpdate υ)) (s s' : UpdatesManager υ) : Prop where
  more : done <+: done'
  mem_iff : ∀ v, v ∈ done' ∨ s'.Waits v ↔ v ∈ done ∨ s.Waits v ∨ v = u
  waits : ∀ v, s'.Waits v → s.Waits v ∨ v = u
  running_eq : s'.runningGetDifference = s.runningGetDifference
  postponed_nil : s.runningGetDifference = false → s.postponedPtsUpdates = [] →
    (after = true → kind.isAcceptable u.update = true) → s'.postponedPtsUpdates = []

section

variable (h : Synced log done rest s) (hu : u ∈ log.updates) (hfresh : ¬ s.Waits u) (after : Bool)
include h hu hfresh after

theorem addChecked_ok :
    ∃ done' rest' s', s.addChecked kind u after = some s' ∧ Synced log done' rest' s' ∧
      Added kind u after done done' s s' := by
  have hbound := log.bounded u hu
  unfold addChecked
  by_cases hold : u.pts ≤ s.pts
  · -- it has been processed already
    have hdone := (h.pts_le_iff hu).mp hold
    rw [if_pos (.inl hold)]
    refine ⟨done, rest, s, rfl, h, prefix_rfl, fun v => ?_, fun _ => .inl, rfl,
      fun _ hpost _ => hpost⟩
    constructor
    · exact fun hv => hv.imp_right .inl
    · rintro (hv | hv | rfl)
      · exact .inl hv
      · exact .inr hv
      · exact .inl hdone
  have hrest : u ∈ rest := (mem_append.mp (h.updates_eq ▸ hu)).resolve_left
    fun hdone => hold ((h.pts_le_iff hu).mpr hdone)
  have hpostpone := h.postpone hu hfresh
  rw [if_neg (by omega)]
  by_cases hbusy : s.runningGetDifference = true ∨ s.postponedPtsUpdates ≠ []
  · rw [if_pos hbusy]
    refine ⟨done, rest, _, rfl, hpostpone, prefix_rfl, fun v => or_congr_right postponed_waits,
      fun v => postponed_waits.mp, rfl, fun hrun hpost => ?_⟩
    exact absurd hbusy (by simp [hrun, hpost])
  rw [not_or, Bool.not_eq_true, not_not] at hbusy
  rw [if_neg (by simp [hbusy.1, hbusy.2])]
  by_cases hstrange : after = true ∧ ¬ kind.isAcceptable u.update = true
  · rw [if_pos hstrange]
    exact ⟨done, rest, _, rfl, hpostpone.gapTimeout true, prefix_rfl,
      fun v => or_congr_right (postponed_waits (s := s)), fun v =>
        (postponed_waits (s := s)).mp, rfl,
      fun _ _ hacceptable => absurd (hacceptable hstrange.1) hstrange.2⟩
  -- it is counted, and the counts fit
  have hbegin := h.rest_inARow.le_start hrest
  have hsub := sublist_emplace h.rest_inARow h.pending hrest fun hin => hfresh (.inl hin)
  obtain ⟨hcount, hle, hmax⟩ := h.counted hrest
  have hsum : s.pts + counts (emplace u s.pendingPtsUpdates) ≤ _ :=
    (h.rest_inARow.part_le hsub hle hmax).1
  obtain ⟨front, back, s', hadd, hsynced, hmem, hpost, hrun⟩ := h.addCounted_ok hrest hsub
    (by omega) hbusy.1 hbusy.2
  rw [if_neg hstrange, if_neg (by omega), if_neg (by omega)]
  have hnew : ∀ v, v ∈ front ∨ s'.Waits v ↔ s.Waits v ∨ v = u := by
    intro v
    rw [Waits, hpost, Waits, hbusy.2]
    simpa using (hmem v).trans (mem_emplace.trans or_comm)
  refine ⟨done ++ front, back, s', hadd, hsynced, prefix_append .., fun v => ?_,
    fun v hv => (hnew v).mp (.inr hv), hrun.trans hbusy.1.symm, fun _ _ _ => hpost⟩
  rw [mem_append, or_assoc]
  exact or_congr_right (hnew v)

/-- **`add_pending_pts_update` keeps the client in step with the server**, for an update of the
server that does not wait already. -/
theorem add_ok :
    ∃ done' rest' s', s.addPendingPtsUpdate kind u after = some s' ∧ Synced log done' rest' s' ∧
      Added kind u after done done' s s' := by
  have hstart := log.inARow.le_start hu
  have := log.start_pos
  unfold addPendingPtsUpdate
  rw [if_neg (by omega), if_neg (by simp [log.isPtsUpdate u hu])]
  unfold warnOld
  split
  · obtain ⟨done', rest', s', hadd, hsynced, hadded⟩ :=
      (h.gapTimeout true).addChecked_ok hu hfresh after
    exact ⟨done', rest', s', hadd, hsynced, { hadded with }⟩
  · exact h.addChecked_ok hu hfresh after

end

end Synced

/-! ## Arrival in any order -/

namespace UpdatesManager

/-- The updates arrive one after the other, and no `getDifference` is needed. -/
def receive (kind : Kind υ) (pts : Int) (arrived : List (PendingPtsUpdate υ)) :
    Option (UpdatesManager υ) :=
  arrived.foldlM (fun s u => s.addPendingPtsUpdate kind u false) (.new pts)

/-- Every update arrives at most once: what was processed or waits is what has arrived. -/
theorem receive_ok (log : ServerLog kind) {arrived : List (PendingPtsUpdate υ)}
    (hmem : ∀ u ∈ arrived, u ∈ log.updates) (hnodup : arrived.Nodup) :
    ∃ done rest s, receive kind log.start arrived = some s ∧ Synced log done rest s ∧
      s.runningGetDifference = false ∧ s.postponedPtsUpdates = [] ∧
      ∀ v, v ∈ done ∨ s.Waits v ↔ v ∈ arrived := by
  induction arrived using reverseRecOn with
  | nil =>
    refine ⟨[], log.updates, .new log.start, rfl, .new log, rfl, rfl, fun v => ?_⟩
    simp [Waits, new]
  | append_singleton arrived u ih =>
    obtain ⟨done, rest, s, hs, hsynced, hrun, hpost, hiff⟩ :=
      ih ((forall_mem_append.1 hmem).1) (nodup_append.mp hnodup).1
    have hfresh : u ∉ arrived := fun hin =>
      (nodup_append.mp hnodup).2.2 u hin u mem_cons_self rfl
    obtain ⟨done', rest', s', hadd, hsynced', hadded⟩ :=
      hsynced.add_ok (hmem u (mem_append_right _ mem_cons_self))
        (fun hw => hfresh ((hiff u).mp (.inr hw))) false
    refine ⟨done', rest', s', ?_, hsynced', hadded.running_eq.trans hrun,
      hadded.postponed_nil hrun hpost (nofun), fun v => ?_⟩
    · rw [receive, foldlM_append]
      show (receive kind log.start arrived).bind _ = _
      rw [hs]
      simpa using hadd
    · rw [hadded.mem_iff, ← or_assoc, hiff, mem_append, mem_singleton]

end UpdatesManager

/-- The updates of the log that have arrived, up to the first one that has not. -/
def ServerLog.arrivedUpTo [DecidableEq υ] (log : ServerLog kind)
    (arrived : List (PendingPtsUpdate υ)) : List (PendingPtsUpdate υ) :=
  log.updates.takeWhile (· ∈ arrived)

theorem ServerLog.nodup (log : ServerLog kind) : log.updates.Nodup :=
  log.inARow.sorted.imp fun hlt heq => absurd hlt (by simp [heq])

/-- The client is as far as it can be. -/
theorem Synced.done_eq [DecidableEq υ] {log : ServerLog kind}
    {done arrived : List (PendingPtsUpdate υ)} (h : Synced log done rest s)
    (hpost : s.postponedPtsUpdates = []) (hiff : ∀ v, v ∈ done ∨ s.Waits v ↔ v ∈ arrived) :
    done = log.arrivedUpTo arrived := by
  have hdone : ∀ v ∈ done, decide (v ∈ arrived) = true :=
    fun v hv => decide_eq_true ((hiff v).mp (.inl hv))
  rw [ServerLog.arrivedUpTo, h.updates_eq, takeWhile_append_of_pos hdone]
  cases hrest : rest with
  | nil => simp
  | cons u l =>
    -- the first update of the rest is neither processed nor waiting
    have hmissing : u ∉ arrived := by
      rw [← hiff, Waits, hpost]
      rintro (hu | hu | hu)
      · have hnodup := log.nodup
        rw [h.updates_eq, hrest] at hnodup
        exact (nodup_append.mp hnodup).2.2 u hu u mem_cons_self rfl
      · exact h.missing u l hrest hu
      · cases hu
    rw [takeWhile_cons_of_neg (by simpa using hmissing), append_nil]

/-- **In whatever order the updates arrive, each is processed once and in the order of the server.**
At every moment the client has processed the longest initial piece of the log that has arrived,
and its pts is the end of this piece. No check fails. -/
theorem processed_in_order [DecidableEq υ] (log : ServerLog kind)
    {order : List (PendingPtsUpdate υ)} (horder : order.Perm log.updates) :
    (∀ arrived, arrived <+: order → ∃ s, UpdatesManager.receive kind log.start arrived = some s ∧
      s.processed = log.arrivedUpTo arrived ∧
      s.pts = ptsAfter log.start (log.arrivedUpTo arrived)) ∧
    ∃ s, UpdatesManager.receive kind log.start order = some s ∧ s.processed = log.updates := by
  have hnodup : order.Nodup := horder.nodup_iff.mpr log.nodup
  have hevery : ∀ arrived, arrived <+: order →
      ∃ s, receive kind log.start arrived = some s ∧
        s.processed = log.arrivedUpTo arrived ∧
        s.pts = ptsAfter log.start (log.arrivedUpTo arrived) := by
    intro arrived harrived
    obtain ⟨done, rest, s, hs, hsynced, hrun, hpost, hiff⟩ := receive_ok log
      (fun u hu => horder.subset (harrived.subset hu)) (hnodup.sublist harrived.sublist)
    have hdone : done = log.arrivedUpTo arrived := hsynced.done_eq hpost hiff
    exact ⟨s, hs, hdone ▸ hsynced.processed_eq, hdone ▸ hsynced.pts_eq⟩
  obtain ⟨s, hs, hprocessed, -⟩ := hevery order prefix_rfl
  refine ⟨hevery, s, hs, hprocessed.trans ?_⟩
  exact takeWhile_eq_self_iff.mpr fun u hu => decide_eq_true (horder.mem_iff.mpr hu)

/-- Three updates of a server, numbered. -/
def threeUpdates : ServerLog (⟨fun _ => true, fun _ => true⟩ : Kind Nat) where
  start := 1
  updates := [⟨1, 2, 1⟩, ⟨2, 4, 2⟩, ⟨3, 5, 1⟩]
  start_pos := by decide
  inARow := by simp [Tiled]
  start_bounded := by decide
  bounded := by simp
  isPtsUpdate := by simp

theorem processed_in_order_last_first :
    [⟨3, 5, 1⟩, ⟨1, 2, 1⟩, ⟨2, 4, 2⟩].Perm threeUpdates.updates ∧
    ∃ s, UpdatesManager.receive ⟨fun _ => true, fun _ => true⟩ 1
      [⟨3, 5, 1⟩, ⟨1, 2, 1⟩, ⟨2, 4, 2⟩] = some s ∧
        s.processed = [⟨1, 2, 1⟩, ⟨2, 4, 2⟩, ⟨3, 5, 1⟩] := by
  have horder : [⟨3, 5, 1⟩, ⟨1, 2, 1⟩, ⟨2, 4, 2⟩].Perm threeUpdates.updates := by decide
  exact ⟨horder, (processed_in_order threeUpdates horder).2⟩

end Tdlib.Updates
