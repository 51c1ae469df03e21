import Tdlib.Updates.PtsProof

/-!
# Updates that arrive again

The client asks the server for what it misses, and the server may deliver an
update more than once. Deliveries, the start of `getDifference`, its answer and
the work after it can follow one another in any way.

An update that was processed is recognised by its pts. One that waits is not: a
copy of it is put beside it and is counted with it, and the counts may then reach
over a gap. As long as no update arrives while a copy of it waits, the client
stays in step with the server, in every run:

* an update is added as in `Synced.add_ok`;
* what is pending when `getDifference` starts is postponed (`getDifference_ok`);
* an answer brings the next updates of the log, and `process_postponed_pts_updates`
  takes runs of updates without a gap (`postponedLoop_ok`);
* what is left is added again (`afterGetDifference_ok`).
-/

namespace Tdlib.Updates

open Lib List UpdatesManager

variable {υ : Type} {kind : Kind υ} {rest : List (PendingPtsUpdate υ)}
  {u : PendingPtsUpdate υ} {s s' : UpdatesManager υ}

/-! ## The client and the server -/

/-- What can happen. -/
inductive Action (υ : Type) where
  | deliver (u : PendingPtsUpdate υ)
  | getDifference
  | answer (difference : UpdatesManager.Difference υ)
  | afterGetDifference

/-- One thing happens. -/
def UpdatesManager.step (kind : Kind υ) (s : UpdatesManager υ) :
    Action υ → Option (UpdatesManager υ)
  | .deliver u => s.addPendingPtsUpdate kind u false
  | .getDifference => s.getDifference
  | .answer difference => s.onGetDifference kind difference
  | .afterGetDifference => s.afterGetDifference kind

/-- The updates a client with this pts misses. -/
def ServerLog.updatesAfter (log : ServerLog kind) (pts : Int) : List (PendingPtsUpdate υ) :=
  log.updates.filter fun u => pts < u.pts

/-- The difference brings the next updates. A server that has forgotten them is left out. -/
def UpdatesManager.Difference.Honest (log : ServerLog kind) (pts : Int) :
    UpdatesManager.Difference υ → Prop
  | .empty => True
  | .difference updates state => updates <+: log.updatesAfter pts ∧ state = ptsAfter pts updates
  | .slice updates state _ => updates <+: log.updatesAfter pts ∧ state = ptsAfter pts updates
  | .tooLong _ => False
  | .failed => True

/-- The server delivers updates of its log, and an answer is the answer to a question. -/
def Action.Honest (log : ServerLog kind) (s : UpdatesManager υ) : Action υ → Prop
  | .deliver u => u ∈ log.updates
  | .getDifference => True
  | .answer difference => s.runningGetDifference = true ∧ difference.Honest log s.pts
  | .afterGetDifference => s.runningGetDifference = false

/-- No update is delivered while a copy of it waits. -/
def Action.NoCopy (s : UpdatesManager υ) : Action υ → Prop
  | .deliver u => ¬ s.Waits u
  | _ => True

/-- The states of the client in a run whose steps are all `allowed`. -/
inductive Reachable (log : ServerLog kind) (allowed : UpdatesManager υ → Action υ → Prop) :
    UpdatesManager υ → Prop where
  | start : Reachable log allowed (.new log.start)
  | step {s s' : UpdatesManager υ} {a : Action υ} (h : Reachable log allowed s) (ha : allowed s a)
      (hs : s.step kind a = some s') : Reachable log allowed s'

/-- No update was processed twice, and none was passed over. -/
structure Harmless (log : ServerLog kind) (s : UpdatesManager υ) : Prop where
  once : s.processed.Nodup
  reached : ∀ u ∈ log.updates, u.pts ≤ s.pts → u ∈ s.processed

/-! ## Runs of postponed updates -/

namespace UpdatesManager

variable {oldPts newPts ptsCount : Int} {i : Nat}
    {taken taken' left l : List (PendingPtsUpdate υ)}

/-- A run that was found covers the distance to its last update. -/
theorem findRun_ok (h : findRun oldPts i newPts ptsCount taken l = some (taken', left))
    (hcount : ptsCount = counts taken)
    (hlast : taken.getLast?.map PendingPtsUpdate.pts = some newPts) :
    taken' ++ left = taken ++ l ∧
      taken'.getLast?.map PendingPtsUpdate.pts = some (oldPts + counts taken') := by
  induction l generalizing i newPts ptsCount taken with
  | nil =>
    rw [findRun] at h
    split at h
    · cases h
      exact ⟨rfl, by rw [hlast]; congr; omega⟩
    · split at h
      · cases h
      · cases h
  | cons v l ih =>
    rw [findRun] at h
    split at h
    · cases h
      exact ⟨rfl, by rw [hlast]; congr; omega⟩
    split at h
    · cases h
    · have hmore : counts (taken ++ [v]) = counts taken + v.ptsCount :=
        (widths_append ..).trans (by rw [widths, widths, Int.add_zero])
      obtain ⟨happ, hend⟩ := ih h (by omega) (by simp)
      exact ⟨by rw [happ, append_assoc]; rfl, hend⟩

end UpdatesManager

theorem sublist_of_not_mem {done l : List (PendingPtsUpdate υ)} (h : l.Sublist (done ++ rest))
    (hnot : ∀ v ∈ l, v ∉ done) : l.Sublist rest := by
  obtain ⟨l1, l2, rfl, hl1, hl2⟩ := sublist_append_iff.mp h
  have hnil : l1 = [] := eq_nil_iff_forall_not_mem.mpr fun v hv =>
    hnot v (mem_append_left _ hv) (hl1.subset hv)
  rw [hnil]
  exact hl2

namespace Synced

variable {log : ServerLog kind} {done : List (PendingPtsUpdate υ)}

/-- A part of the rest that covers the distance to its last update is the next piece. -/
theorem run_next {p : Int} {taken : List (PendingPtsUpdate υ)} (h : InARow p rest)
    (hsub : taken.Sublist rest)
    (hlast : taken.getLast?.map PendingPtsUpdate.pts = some (p + counts taken)) :
    taken <+: rest := by
  obtain ⟨last, hlast, hpts⟩ := Option.map_eq_some_iff.mp hlast
  obtain ⟨front, rfl⟩ : ∃ front, taken = front ++ [last] := getLast?_eq_some_iff.mp hlast
  refine (h.part_le hsub (fun v hv => ?_) ⟨last, by simp, hpts⟩).2 rfl
  rw [← hpts]
  rcases mem_append.mp hv with hv | hv
  · have := (pairwise_append.mp (h.sorted.sublist hsub)).2.2 v hv last mem_cons_self
    omega
  · exact Int.le_of_eq (congrArg _ (mem_singleton.mp hv))

variable {l updates : List (PendingPtsUpdate υ)}

/-- **The loop of `process_postponed_pts_updates`** takes the next updates of the log, and keeps
the updates behind a gap. -/
theorem postponedLoop_ok {p start : Int} (passes : Nat) (h : InARow start (done ++ rest))
    (hp : p = ptsAfter start done) (hpos : 1 ≤ p)
    (hbound : ∀ u ∈ done ++ rest, u.pts < 0x40000000) (hl : l.Sublist (done ++ rest)) :
    ∃ front back left, rest = front ++ back ∧ left.Sublist l ∧ (∀ u ∈ front, u ∈ l) ∧
      postponedLoop passes p l = (ptsAfter p front, front, left) := by
  induction passes generalizing p l done rest with
  | zero => exact ⟨[], rest, l, rfl, .refl l, forall_mem_nil _, rfl⟩
  | succ passes ih =>
    cases l with
    | nil => exact ⟨[], rest, [], rfl, .slnil, forall_mem_nil _, rfl⟩
    | cons u l =>
      obtain ⟨hdone, hrest⟩ : InARow start done ∧ InARow (ptsAfter start done) rest :=
        Tiled.append_iff.mp h
      rw [← hp] at hrest
      rw [postponedLoop]
      by_cases hold : u.pts ≤ p
      · obtain ⟨front, back, left, hsplit, hleft, hfront, hloop⟩ :=
          ih h hp hpos hbound ((sublist_cons_self u l).trans hl)
        rw [if_pos (.inl hold)]
        exact ⟨front, back, left, hsplit, hleft.cons u,
          fun v hv => mem_cons_of_mem _ (hfront v hv), hloop⟩
      have hu := hbound u (hl.subset mem_cons_self)
      rw [if_neg (by omega)]
      cases hrun : findRun p 1 u.pts u.ptsCount [u] l with
      | none =>
        exact ⟨[], rest, u :: l, rfl, .refl _, forall_mem_nil _, rfl⟩
      | some run =>
        obtain ⟨taken, later⟩ := run
        obtain ⟨happ, hlast⟩ := findRun_ok hrun (by simp [widths]) (by simp)
        -- what was not skipped is not processed yet
        have hsub : (u :: l).Sublist rest := by
          refine sublist_of_not_mem hl fun v hv hin => ?_
          have hv_le : v.pts ≤ ptsAfter start done := hdone.stop_le_endOf.2 v hin
          rcases mem_cons.mp hv with rfl | hv
          · omega
          · have := (pairwise_cons.mp (h.sorted.sublist hl)).1 v hv
            omega
        have happ : taken ++ later = u :: l := happ
        have htaken : taken.Sublist (u :: l) := happ ▸ sublist_append_left ..
        have hlater : later.Sublist (u :: l) := happ ▸ sublist_append_right ..
        obtain ⟨back, rfl⟩ := run_next hrest (htaken.trans hsub) hlast
        have hnext : InARow p taken := (Tiled.append_iff.mp hrest).1
        have hend : ptsAfter p taken = p + counts taken := hnext.endOf_eq
        have hcounts : taken.filter (fun v => v.ptsCount > 0) = taken :=
          filter_eq_self.mpr fun v hv => decide_eq_true (hnext.le_start hv).1
        rw [← append_assoc] at h hbound hl
        obtain ⟨front, back, left, rfl, hleft, hfront, hloop⟩ :=
          ih (p := ptsAfter p taken) h (by rw [hp]; exact (endOf_append ..).symm)
            (by have := hnext.stop_le_endOf.1; show 1 ≤ endOf _ p taken; omega) hbound
            (hlater.trans hl)
        refine ⟨taken ++ front, back, left, (append_assoc ..).symm, hleft.trans hlater,
          fun v hv => ?_, ?_⟩
        · rcases mem_append.mp hv with hv | hv
          · exact htaken.subset hv
          · exact hlater.subset (hfront v hv)
        · dsimp only
          rw [hlast, Option.getD_some, ← hend, hloop, hcounts]
          rw [show ptsAfter p (taken ++ front) = ptsAfter (ptsAfter p taken) front from
            endOf_append ..]

/-- The pts is set to the end of the next updates. -/
theorem setPts_next {front back : List (PendingPtsUpdate υ)}
    (h : Synced log done (front ++ back) s) (hpts : s'.pts = s.pts) :
    ∃ last retry, s'.setPts (ptsAfter s.pts front) = some { s' with
      pts := ptsAfter s.pts front, lastGetDifferencePts := last, retryTimeout := retry } := by
  have hpos := h.pts_pos
  have hs : s.pts < 0x40000000 := by
    rw [h.pts_eq]
    exact endOf_lt log.start_bounded fun u hu =>
      log.bounded u (h.updates_eq ▸ mem_append_left _ hu)
  have hbound : ptsAfter s.pts front < 0x40000000 :=
    endOf_lt hs fun u hu => h.rest_bounded (mem_append_left back hu)
  have hle : s.pts ≤ ptsAfter s.pts front := (Tiled.append_iff.mp h.rest_inARow).1.stop_le_endOf.1
  by_cases hlt : s.pts < ptsAfter s.pts front
  · exact setPts_ok (by omega) (by omega) hbound
  · have heq : ptsAfter s.pts front = s'.pts := by omega
    have hmax : int32Max = 2147483647 := rfl
    refine ⟨s'.lastGetDifferencePts, s'.retryTimeout, ?_⟩
    rw [setPts, heq, if_neg (by omega), if_neg (by omega)]

theorem processPostponed_ok (h : Synced log done rest s) (hnil : s.pendingPtsUpdates = [])
    (hrun : s.runningGetDifference = false) :
    ∃ front back s', s.processPostponedPtsUpdates = some s' ∧ rest = front ++ back ∧
      Synced log (done ++ front) back s' ∧ s'.runningGetDifference = false := by
  have hlog := log.inARow
  have hbound := log.bounded
  have hpost := h.postponed
  rw [h.updates_eq] at hlog hbound hpost
  obtain ⟨front, back, left, rfl, hleft, hfront, hloop⟩ :=
    postponedLoop_ok s.postponedPtsUpdates.length hlog h.pts_eq h.pts_pos hbound hpost
  unfold processPostponedPtsUpdates
  by_cases hempty : s.postponedPtsUpdates = []
  · rw [if_pos hempty]
    exact ⟨[], front ++ back, s, rfl, rfl, by rwa [append_nil], hrun⟩
  rw [if_neg hempty, hloop]
  dsimp only
  rw [foldl_process]
  let s1 : UpdatesManager υ := { s with
    processed := s.processed ++ front
    postponedPtsUpdates := left }
  obtain ⟨last, retry, hset⟩ : ∃ last retry,
      (if ptsAfter s.pts front ≠ s.pts then s1.setPts (ptsAfter s.pts front) else some s1) = some
        { s1 with
          pts := ptsAfter s.pts front, lastGetDifferencePts := last, retryTimeout := retry } := by
    split
    · exact h.setPts_next rfl
    · rename_i heq
      rw [not_not] at heq
      exact ⟨s.lastGetDifferencePts, s.retryTimeout, by rw [heq]⟩
  refine ⟨front, back, _, (congrArg (bind · _) hset).trans (if_neg ?_), rfl,
    h.advance rfl rfl hnil ?_ (h.nothing hnil) (hleft.trans h.postponed), hrun⟩
  · simp [s1, hrun]
  · rw [h.count_eq, hnil]
    rfl

/-! ## getDifference -/

/-- Updates that do not wait yet are postponed one after the other. -/
theorem foldl_emplace_sublist {part : List (PendingPtsUpdate υ)} (hnodup : part.Nodup)
    (hpart : ∀ u ∈ part, u ∈ log.updates ∧ u ∉ l) (hl : l.Sublist log.updates) :
    (part.foldl (fun l u => emplace u l) l).Sublist log.updates := by
  induction part generalizing l with
  | nil => exact hl
  | cons u part ih =>
    obtain ⟨hu, hnodup⟩ := nodup_cons.mp hnodup
    obtain ⟨hin, hnot⟩ := hpart u mem_cons_self
    refine ih hnodup (fun v hv => ?_) (sublist_emplace log.inARow hl hin hnot)
    obtain ⟨hvin, hvnot⟩ := hpart v (mem_cons_of_mem _ hv)
    refine ⟨hvin, fun hmem => ?_⟩
    rcases mem_emplace.mp hmem with rfl | hmem
    · exact hu hv
    · exact hvnot hmem

/-- What is pending when `getDifference` starts is postponed. -/
theorem runGetDifference_ok (h : Synced log done rest s) (hrun : s.runningGetDifference = false) :
    ∃ s', s.runGetDifference = some s' ∧ Synced log done rest s' := by
  have hpos := h.pts_pos
  have hin : ∀ u ∈ s.pendingPtsUpdates, u ∈ log.updates ∧ u ∉ s.postponedPtsUpdates :=
    fun u hu => ⟨h.updates_eq ▸ mem_append_right _ (h.pending.subset hu), h.apart u hu⟩
  have hnodup : s.pendingPtsUpdates.Nodup := by
    have := log.nodup
    rw [h.updates_eq] at this
    exact this.sublist (h.pending.trans (sublist_append_right ..))
  have hnone : ¬ (s.pts = -1 ∨ s.runningGetDifference = true) := by
    rw [hrun]
    rintro (h | h)
    · omega
    · cases h
  have h : Synced log done ([] ++ rest) s := h
  refine ⟨_, if_neg hnone, append_nil done ▸ ?_⟩
  exact h.advance (append_nil _).symm rfl rfl rfl rfl
    (foldl_emplace_sublist hnodup hin h.postponed)

theorem getDifference_ok (h : Synced log done rest s) :
    ∃ s', s.getDifference = some s' ∧ Synced log done rest s' := by
  have hpos := h.pts_pos
  rw [getDifference, if_neg (by omega)]
  cases hrun : s.runningGetDifference with
  | true => exact ⟨s, rfl, h⟩
  | false => exact h.runGetDifference_ok hrun

/-- The client misses what comes after the updates it has processed. -/
theorem updatesAfter_eq (h : Synced log done rest s) : log.updatesAfter s.pts = rest := by
  have hdone : done.filter (fun u => decide (s.pts < u.pts)) = [] := by
    refine filter_eq_nil_iff.mpr fun u hu => ?_
    have := (h.pts_le_iff (h.updates_eq ▸ mem_append_left rest hu)).mpr hu
    simpa using this
  have hrest : rest.filter (fun u => decide (s.pts < u.pts)) = rest :=
    filter_eq_self.mpr fun u hu => decide_eq_true (h.rest_inARow.lt_stop hu)
  rw [ServerLog.updatesAfter, h.updates_eq, filter_append, hdone, hrest, nil_append]

/-- The updates of a difference are processed one after the other. -/
theorem difference_ok (hupdates : ∀ u ∈ updates, kind.isPtsUpdate u.update = true)
    (hnil : s.pendingPtsUpdates = []) (hacc : s.accumulatedPts = -1) :
    updates.foldlM (processDifferenceUpdate kind) s
      = some { s with processed := s.processed ++ updates } := by
  induction updates generalizing s with
  | nil => rw [append_nil]; rfl
  | cons u updates ih =>
    have hone : processDifferenceUpdate kind s u = some (s.process u) := by
      rw [processDifferenceUpdate, if_neg (by simp [hupdates]), if_neg (by simp [hnil, hacc])]
    rw [foldlM_cons, hone]
    show updates.foldlM _ _ = _
    rw [ih (s := s.process u) (forall_mem_cons.1 hupdates).2 hnil hacc]
    simp [process]

section

variable (h : Synced log done rest s)
include h

/-- The updates of an honest difference are processed, and the pts is set after them. -/
theorem applied (hrun : s.runningGetDifference = true)
    (hnext : updates <+: log.updatesAfter s.pts) :
    ∃ back s1 s', updates.foldlM (processDifferenceUpdate kind)
        { s with runningGetDifference := false } = some s1 ∧
      s1.setPts (ptsAfter s.pts updates) = some s' ∧ Synced log (done ++ updates) back s' ∧
      s'.pendingPtsUpdates = [] ∧ s'.runningGetDifference = false := by
  have hnil := h.running hrun
  rw [h.updatesAfter_eq] at hnext
  obtain ⟨back, rfl⟩ := hnext
  have hin : ∀ u ∈ updates, kind.isPtsUpdate u.update = true := fun u hu =>
    log.isPtsUpdate u (h.updates_eq ▸ mem_append_right _ (mem_append_left _ hu))
  let s1 : UpdatesManager υ := { s with
    runningGetDifference := false
    processed := s.processed ++ updates }
  have hpts : s1.pts = s.pts := rfl
  obtain ⟨last, retry, hset⟩ := h.setPts_next hpts
  have hcount : s.accumulatedPtsCount = 0 := by
    rw [h.count_eq, hnil]
    rfl
  exact ⟨back, _, _, difference_ok hin hnil (h.nothing hnil), hset,
    h.advance rfl rfl hnil hcount (h.nothing hnil) h.postponed, hnil, rfl⟩

/-- **An answer of an honest server keeps the client in step.** -/
theorem onGetDifference_ok (hrun : s.runningGetDifference = true) {difference : Difference υ}
    (hd : difference.Honest log s.pts) :
    ∃ done' rest' s', s.onGetDifference kind difference = some s' ∧ Synced log done' rest' s' := by
  have hstop : Synced log done rest { s with runningGetDifference := false } :=
    { h with running := nofun }
  cases difference with
  | empty => exact ⟨done, rest, _, rfl, hstop⟩
  | failed => exact ⟨done, rest, _, rfl, { hstop with }⟩
  | tooLong pts => exact absurd hd id
  | difference updates pts =>
    obtain ⟨hnext, rfl⟩ := hd
    obtain ⟨back, s1, s', hfold, hset, hsynced, -⟩ := h.applied hrun hnext
    refine ⟨_, back, s', ?_, hsynced⟩
    rw [onGetDifference, hfold]
    exact hset
  | slice updates pts again =>
    obtain ⟨hnext, rfl⟩ := hd
    obtain ⟨back, s1, s2, hfold, hset, hsynced, hnil, hrun2⟩ := h.applied hrun hnext
    obtain ⟨front, back, s3, hpost, rfl, hsynced, hrun3⟩ := hsynced.processPostponed_ok hnil hrun2
    have hall : s.onGetDifference kind (.slice updates (ptsAfter s.pts updates) again)
        = if again = true ∧ s3.pts ≠ -1 then s3.runGetDifference else some s3 := by
      rw [onGetDifference, hfold]
      show (s1.setPts _).bind _ = _
      rw [hset]
      show (s2.processPostponedPtsUpdates).bind _ = _
      rw [hpost, Option.bind_some]
    rw [hall]
    split
    · obtain ⟨s', hs', hsynced'⟩ := hsynced.runGetDifference_ok hrun3
      exact ⟨_, back, s', hs', hsynced'⟩
    · exact ⟨_, back, s3, rfl, hsynced⟩

/-- Postponed updates are added again. -/
theorem addAgain_ok (hrun : s.runningGetDifference = false)
    (hl : ∀ u ∈ l, u ∈ log.updates ∧ ¬ s.Waits u) (hnodup : l.Nodup) :
    ∃ done' rest' s', l.foldlM (addAgain kind) s = some s' ∧
      Synced log done' rest' s' := by
  induction l generalizing s done rest with
  | nil => exact ⟨done, rest, s, rfl, h⟩
  | cons u l ih =>
    obtain ⟨hu, hnodup⟩ := nodup_cons.mp hnodup
    obtain ⟨hin, hfresh⟩ := hl u mem_cons_self
    obtain ⟨done', rest', s', hadd, hsynced, hadded⟩ := h.add_ok hin hfresh true
    have hrun' := hadded.running_eq.trans hrun
    have hone : addAgain kind s u = some s' := by
      rw [addAgain, hadd]
      exact if_neg (by simp [hrun'])
    rw [foldlM_cons, hone]
    refine ih hsynced hrun' (fun v hv => ?_) hnodup
    obtain ⟨hvin, hvfresh⟩ := hl v (mem_cons_of_mem _ hv)
    refine ⟨hvin, fun hw => ?_⟩
    rcases hadded.waits v hw with hw | rfl
    · exact hvfresh hw
    · exact hu hv

theorem afterGetDifference_ok (hrun : s.runningGetDifference = false) :
    ∃ done' rest' s', s.afterGetDifference kind = some s' ∧ Synced log done' rest' s' := by
  rw [afterGetDifference, if_neg (by simp [hrun])]
  refine addAgain_ok (s := { s with retryTimeout := false, postponedPtsUpdates := [] })
    { h with postponed := nil_sublist _, apart := fun _ _ => not_mem_nil } hrun
    (fun u hu => ⟨h.postponed.subset hu, ?_⟩) (log.nodup.sublist h.postponed)
  rintro (hin | hin)
  · exact h.apart u hin hu
  · cases hin

end

/-! ## Runs -/

/-- **Every step that is allowed succeeds and keeps the client in step with the server.** -/
theorem step_ok (h : Synced log done rest s) {a : Action υ} (ha : a.Honest log s)
    (hcopy : a.NoCopy s) :
    ∃ done' rest' s', s.step kind a = some s' ∧ Synced log done' rest' s' := by
  cases a with
  | deliver u =>
    obtain ⟨done', rest', s', hadd, hsynced, -⟩ := h.add_ok ha hcopy false
    exact ⟨done', rest', s', hadd, hsynced⟩
  | getDifference =>
    obtain ⟨s', hs', hsynced⟩ := h.getDifference_ok
    exact ⟨done, rest, s', hs', hsynced⟩
  | answer difference => exact h.onGetDifference_ok ha.1 ha.2
  | afterGetDifference => exact h.afterGetDifference_ok ha

theorem harmless (h : Synced log done rest s) : Harmless log s where
  once := by
    have hnodup := log.nodup
    rw [h.updates_eq] at hnodup
    rw [h.processed_eq]
    exact (nodup_append.mp hnodup).1
  reached u hu hle := h.processed_eq ▸ (h.pts_le_iff hu).mp hle

end Synced

/-- Whatever happens, the client is in step with the server. -/
theorem Reachable.synced {log : ServerLog kind}
    (h : Reachable log (fun s a => a.Honest log s ∧ a.NoCopy s) s) :
    ∃ done rest, Synced log done rest s := by
  induction h with
  | start => exact ⟨[], log.updates, .new log⟩
  | step _ ha hs ih =>
    obtain ⟨done, rest, hsynced⟩ := ih
    obtain ⟨done', rest', s', hs', hsynced'⟩ := hsynced.step_ok ha.1 ha.2
    rw [hs'] at hs
    cases hs
    exact ⟨done', rest', hsynced'⟩

/-- **Updates that arrive again are harmless, unless a copy of them waits.** In every run in which
no update is delivered while a copy of it waits, no update is processed twice or passed over, and
no check fails at the next step. -/
theorem repeated_harmless {log : ServerLog kind}
    (h : Reachable log (fun s a => a.Honest log s ∧ a.NoCopy s) s) :
    Harmless log s ∧ ∀ a : Action υ, a.Honest log s → a.NoCopy s →
      (s.step kind a).isSome = true := by
  obtain ⟨done, rest, hsynced⟩ := h.synced
  refine ⟨hsynced.harmless, fun a ha hcopy => ?_⟩
  obtain ⟨done', rest', s', hs', -⟩ := hsynced.step_ok ha hcopy
  exact hs' ▸ rfl

theorem repeated_harmless_twice :
    ∃ s, Reachable threeUpdates (fun s a => a.Honest threeUpdates s ∧ a.NoCopy s) s ∧
      s.processed = [⟨1, 2, 1⟩] ∧ Harmless threeUpdates s := by
  have hstart : Reachable threeUpdates (fun s a => a.Honest threeUpdates s ∧ a.NoCopy s) (.new 1) :=
    .start
  have hfirst : Reachable threeUpdates (fun s a => a.Honest threeUpdates s ∧ a.NoCopy s)
      ⟨2, 0, -1, [], [], false, false, 1, false, [⟨1, 2, 1⟩]⟩ :=
    hstart.step (a := .deliver ⟨1, 2, 1⟩)
      ⟨mem_cons_self, by simp [Action.NoCopy, Waits, new]⟩ rfl
  have hagain : Reachable threeUpdates (fun s a => a.Honest threeUpdates s ∧ a.NoCopy s)
      ⟨2, 0, -1, [], [], false, false, 1, false, [⟨1, 2, 1⟩]⟩ :=
    hfirst.step (a := .deliver ⟨1, 2, 1⟩)
      ⟨mem_cons_self, by simp [Action.NoCopy, Waits]⟩ rfl
  exact ⟨_, hagain, rfl, (repeated_harmless hagain).1⟩

/-- Four copies of the last update reach over the other two. -/
theorem copies_reach_over :
    ∃ s, Reachable threeUpdates (fun s a => a.Honest threeUpdates s) s ∧
      s.processed = replicate 4 ⟨3, 5, 1⟩ ∧ s.pts = 5 ∧ ¬ Harmless threeUpdates s := by
  have hin : ∀ s, Action.Honest threeUpdates s (.deliver ⟨3, 5, 1⟩) :=
    fun _ => mem_of_getElem? (i := 2) rfl
  have hone : Reachable threeUpdates (fun s a => a.Honest threeUpdates s)
      ⟨1, 1, 5, [⟨3, 5, 1⟩], [], false, true, 1, false, []⟩ := .step .start (hin _) rfl
  have htwo : Reachable threeUpdates (fun s a => a.Honest threeUpdates s)
      ⟨1, 2, 5, [⟨3, 5, 1⟩, ⟨3, 5, 1⟩], [], false, true, 1, false, []⟩ := .step hone (hin _) rfl
  have hthree : Reachable threeUpdates (fun s a => a.Honest threeUpdates s)
      ⟨1, 3, 5, [⟨3, 5, 1⟩, ⟨3, 5, 1⟩, ⟨3, 5, 1⟩], [], false, true, 1, false, []⟩ :=
    .step htwo (hin _) rfl
  have hfour : Reachable threeUpdates (fun s a => a.Honest threeUpdates s)
      ⟨5, 0, -1, [], [], false, false, 1, false, replicate 4 ⟨3, 5, 1⟩⟩ :=
    .step hthree (hin _) rfl
  exact ⟨_, hfour, rfl, rfl, fun h => absurd h.once (by decide)⟩

end Tdlib.Updates
