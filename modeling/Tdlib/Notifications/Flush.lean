import Tdlib.Notifications.PassRun

/-!
# Flushing pending updates

After a pass the moved deletions are put into the first group update, and neighbouring group updates
are combined. Each notification that stays is then left with its first deletions and one addition or
edit, and each one that goes with its first deletion at most. This is so after every turn of the
loop, and each turn that changes something takes off some work, so that the loop ends.
-/

namespace Tdlib.Notifications

open List Update

variable {ι C T : Type}

/-! ## The first group update -/

theorem flatMap_filterMap (us : List (Option (Update ι C T))) :
    (us.filterMap id).flatMap ops = us.flatMap optOps := by
  induction us with
  | nil => rfl
  | cons o us ih =>
    cases o with
    | none => exact ih
    | some u => exact congrArg (u.ops ++ ·) ih

variable [LinearOrder ι]

theorem opsAt_map_remove (id : ι) (ids : List ι) :
    opsAt id (ids.map .remove) = replicate (ids.count id) (.remove id : Op ι C) := by
  induction ids with
  | nil => rfl
  | cons first ids ih =>
    rw [map_cons]
    by_cases h : first = id
    · have hself : (Op.remove first : Op ι C).id = id := h
      rw [opsAt_cons_self hself, ih, h, count_cons_self, replicate_succ]
    · have hne : (Op.remove first : Op ι C).id ≠ id := h
      rw [opsAt_cons_ne hne, ih, count_cons_of_ne h]

/-! ## The end of a pass -/

variable {groupId chatId : Int} {needed : ι → Bool} {p : Pass ι C T} {us us' : List (Update ι C T)}

/-- What a turn of the loop makes of the updates. -/
structure Turned (needed : ι → Bool) (groupId chatId : Int) (us us' : List (Update ι C T)) :
    Prop where
  stays : ∀ id, needed id = true →
    opsAt id (us'.flatMap Update.ops) = collapse (opsAt id (us.flatMap Update.ops))
  goes : ∀ id, needed id = false →
    opsAt id (us'.flatMap Update.ops) = leading (opsAt id (us.flatMap Update.ops))
  later : ∀ id ∈ laterRemoved (shapesOf us'), needed id = true
  ofGroup : ∀ u ∈ us', u.OfGroup groupId chatId

omit [LinearOrder ι] in
theorem ofGroup_of_shape {u : Update ι C T} (h : OfGroupIn groupId chatId (shape (some u))) :
    u.OfGroup groupId chatId := by
  cases u with
  | edit g n => trivial
  | group u => exact h

/-- Nothing was moved. -/
theorem Between.finish_plain (h : Between needed groupId chatId p us)
    (hmoved : p.movedDeleted = []) : Turned needed groupId chatId us (p.updates.filterMap id) ∧
      workIn (shapesOf (p.updates.filterMap id)) + p.changed ≤ workIn (shapesOf us) := by
  have hleft : leftWith p [] [] = (p.updates.filterMap id).flatMap ops := by
    rw [flatMap_filterMap]
    exact append_nil _
  refine ⟨⟨fun id hid => ?_, fun id hid => ?_, ?_, fun u hu => ?_⟩, ?_⟩
  · rw [← hleft]
    exact h.1.stays id hid
  · have hgoes := h.1.goes id hid
    rw [hmoved, filter_nil, map_nil, append_nil] at hgoes
    rw [← hleft]
    exact hgoes
  · rw [laterRemoved_filterMap]
    exact h.2.later
  · obtain ⟨o, ho, rfl⟩ := mem_filterMap.mp hu
    exact ofGroup_of_shape (h.2.ofGroup _ (mem_map_of_mem ho))
  · have hwork := h.2.work
    rw [workIn_filterMap]
    rw [hmoved] at hwork
    exact hwork

omit [LinearOrder ι] in
/-- The first group update, with the updates before and after it. -/
theorem Frame.split {seen : List (Option (Shape ι))} (h : Frame needed groupId chatId p seen)
    (hne : p.firstGroup ≠ 0) :
    ∃ before u after, p.updates = before ++ some (.group u) :: after ∧
      p.firstGroup = before.length + 1 ∧ (before.map shape).any isGroup = false := by
  obtain ⟨shapes, s, shapes', hsplit, hfirst, hs, hbefore⟩ := h.firstGroup hne
  obtain ⟨before, rest, hupdates, rfl, hrest⟩ := map_eq_append_iff.mp hsplit
  obtain ⟨o, after, rfl, rfl, rfl⟩ := map_eq_cons_iff.mp hrest
  rw [length_map] at hfirst
  match o, hs with
  | some (.group u), _ => exact ⟨before, u, after, hupdates, hfirst, hbefore⟩

variable {before after : List (Option (Update ι C T))} {u : UpdateNotificationGroup ι C T}
  {removed : List ι}

/-- The operations of a list of updates with a group update in it. -/
def opsAround (before after : List (Option (Update ι C T))) (added : List (Notification ι C))
    (removed : List ι) : List (Op ι C) :=
  before.flatMap optOps ++ ((added.map .add ++ removed.map .remove) ++ after.flatMap optOps)

theorem opsAt_opsAround (id : ι) (added : List (Notification ι C)) :
    opsAt id (opsAround before after added removed)
      = opsAt id (before.flatMap optOps) ++ ((opsAt id (added.map .add)
        ++ replicate (removed.count id) (.remove id)) ++ opsAt id (after.flatMap optOps)) := by
  unfold opsAround
  rw [opsAt_append, opsAt_append, opsAt_append, opsAt_map_remove]

/-- The updates, with other deletions in the first group update. -/
def withRemoved (before after : List (Option (Update ι C T))) (u : UpdateNotificationGroup ι C T)
    (removed : List ι) : List (Option (Update ι C T)) :=
  before ++ some (.group { u with removedNotificationIds := removed }) :: after

omit [LinearOrder ι] in
theorem flatMap_withRemoved : (withRemoved before after u removed).flatMap optOps
    = opsAround before after u.addedNotifications removed := by
  unfold withRemoved
  rw [flatMap_append]
  rfl

omit [LinearOrder ι] in
theorem leftWith_eq
    (hupdates : p.updates = withRemoved before after u u.removedNotificationIds) :
    leftWith p [] [] = opsAround before after u.addedNotifications u.removedNotificationIds := by
  show p.updates.flatMap optOps ++ [] = _
  rw [append_nil, hupdates, flatMap_withRemoved]

section Moved

variable {ops : List (Op ι C)} {i : ι} (h : Inv needed p [] [] ops)
  (hupdates : p.updates = withRemoved before after u u.removedNotificationIds)
  (hperm : removed.Perm (u.removedNotificationIds ++ p.movedDeleted))

include h hupdates hperm

theorem Inv.stays_moved (hi : needed i = true) :
    opsAt i (opsAround before after u.addedNotifications removed) = collapse (opsAt i ops) := by
  have hnone : p.movedDeleted.count i = 0 := by
    refine count_eq_zero.mpr fun hmem => ?_
    exact Bool.false_ne_true ((h.movedGoes i hmem).symm.trans hi)
  have hcount : removed.count i = u.removedNotificationIds.count i := by
    rw [hperm.count_eq, count_append, hnone, add_zero]
  rw [← h.stays i hi, leftWith_eq hupdates, opsAt_opsAround, opsAt_opsAround, hcount]

/-- A list of deletions is known by its length. -/
theorem Inv.goes_moved (hi : needed i = false) :
    opsAt i (opsAround before after u.addedNotifications removed) = leading (opsAt i ops) := by
  have hgoes := h.goes i hi
  rw [leftWith_eq hupdates] at hgoes
  have hmoved : ((p.movedDeleted.filter (· = i)).map (Op.remove : ι → Op ι C)).length
      = p.movedDeleted.count i := by
    rw [length_map, ← countP_eq_length_filter]
    exact countP_congr fun j _ => by simp
  have hremove : ∀ op ∈ opsAt i (opsAround before after u.addedNotifications
      u.removedNotificationIds), op = .remove i := by
    intro op hop
    have hwrite : op.isWrite = false :=
      isWrite_of_mem_leading (by rw [← hgoes]; exact mem_append_left _ hop)
    have hopid := (mem_opsAt.mp hop).2
    cases op with
    | remove id' => exact congrArg _ hopid
    | add n | edit n => cases hwrite
  have hleading : ∀ op ∈ leading (opsAt i ops), op = .remove i := by
    intro op hop
    rw [← hgoes] at hop
    rcases mem_append.mp hop with hop | hop
    · exact hremove op hop
    · obtain ⟨j, hj, rfl⟩ := mem_map.mp hop
      exact congrArg _ (of_decide_eq_true (mem_filter.mp hj).2)
  have hlength : (opsAt i (opsAround before after u.addedNotifications removed)).length
      = (leading (opsAt i ops)).length := by
    rw [← hgoes, length_append, hmoved, opsAt_opsAround, opsAt_opsAround, hperm.count_eq,
      count_append]
    simp only [length_append, length_replicate]
    omega
  have hall : ∀ op ∈ opsAt i (opsAround before after u.addedNotifications removed),
      op = .remove i := by
    intro op hop
    rw [opsAt_opsAround, mem_append, mem_append, mem_append] at hop
    rw [opsAt_opsAround] at hremove
    rcases hop with hop | (hop | hop) | hop
    · exact hremove op (mem_append_left _ hop)
    · exact hremove op (mem_append_right _ (mem_append_left _ (mem_append_left _ hop)))
    · exact (mem_replicate.mp hop).2
    · exact hremove op (mem_append_right _ (mem_append_right _ hop))
  exact (eq_replicate_iff.mpr ⟨hlength, hall⟩).trans
    (eq_replicate_iff.mpr ⟨rfl, hleading⟩).symm

/-- No deletion is there twice. -/
theorem Inv.nodup_removed (hspaced : ∀ id, Spaced false (opsAt id ops)) : removed.Nodup := by
  refine nodup_iff_count_le_one.mpr fun id => ?_
  have hin : removed.count id
      ≤ (opsAt id (opsAround before after u.addedNotifications removed)).countP
          (fun op => !op.isWrite) := by
    have hrepl : (replicate (removed.count id) (Op.remove id : Op ι C)).countP
        (fun op => !op.isWrite) = removed.count id := by
      rw [countP_replicate]
      rfl
    rw [opsAt_opsAround, countP_append, countP_append, countP_append]
    omega
  refine hin.trans ?_
  by_cases hid : needed id = true
  · rw [h.stays_moved hupdates hperm hid]
    exact (hspaced id).countP_collapse
  · rw [h.goes_moved hupdates hperm (Bool.not_eq_true _ ▸ hid)]
    exact countP_le_length.trans (hspaced id).length_leading

omit h in
/-- **The moved deletions are put into the first group update.** -/
theorem Between.finish_moved (h : Between needed groupId chatId p us)
    (hbefore : (before.map shape).any isGroup = false) :
    Turned needed groupId chatId us ((withRemoved before after u removed).filterMap id) ∧
      workIn (shapesOf ((withRemoved before after u removed).filterMap id)) + p.changed
        ≤ workIn (shapesOf us) := by
  have hshapes : ∀ ids, (withRemoved before after u ids).map shape = before.map shape
      ++ shape (some (.group { u with removedNotificationIds := ids })) :: after.map shape :=
    fun _ => map_append
  have hlater : ∀ ids, laterRemoved ((withRemoved before after u ids).map shape)
      = (after.map shape).flatMap removedIn := by
    intro ids
    rw [hshapes, laterRemoved_append, hbefore]
    rfl
  have hold : p.shapes = (withRemoved before after u u.removedNotificationIds).map shape :=
    congrArg (map shape) hupdates
  refine ⟨⟨fun id hid => ?_, fun id hid => ?_, ?_, fun v hv => ?_⟩, ?_⟩
  · rw [flatMap_filterMap, flatMap_withRemoved]
    exact h.1.stays_moved hupdates hperm hid
  · rw [flatMap_filterMap, flatMap_withRemoved]
    exact h.1.goes_moved hupdates hperm hid
  · rw [laterRemoved_filterMap, hlater, ← hlater u.removedNotificationIds, ← hold]
    exact h.2.later
  · have hof := h.2.ofGroup
    rw [hold, hshapes] at hof
    obtain ⟨o, ho, rfl⟩ := mem_filterMap.mp hv
    rcases mem_append.mp ho with ho | ho
    · exact ofGroup_of_shape (hof _ (mem_append_left _ (mem_map_of_mem ho)))
    rcases mem_cons.mp ho with ho | ho
    · cases ho
      exact hof _ (mem_append_right _ mem_cons_self)
    · exact ofGroup_of_shape
        (hof _ (mem_append_right _ (mem_cons_of_mem _ (mem_map_of_mem ho))))
  · have hwork := h.2.work
    have hlength := hperm.length_eq
    rw [length_append] at hlength
    rw [hold] at hwork
    rw [workIn_filterMap]
    unfold workIn at hwork ⊢
    rw [hlater, hshapes, map_append, sum_append, map_cons, sum_cons] at hwork ⊢
    have hcost : ∀ ids, costIn (shape (some (.group { u with removedNotificationIds := ids })))
        = 1 + u.addedNotifications.length + ids.length + loud u.isSilent := by
      intro ids
      show 1 + (u.addedNotifications.map _).length + ids.length + loud u.isSilent = _
      rw [length_map]
    rw [hcost] at hwork ⊢
    omega

end Moved

theorem Between.finish (h : Between needed groupId chatId p us)
    (hspaced : ∀ id, Spaced false (opsAt id (us.flatMap ops))) :
    ∃ us', p.finish = some us' ∧ Turned needed groupId chatId us us' ∧
      workIn (shapesOf us') + p.changed ≤ workIn (shapesOf us) := by
  unfold Pass.finish
  by_cases hmoved : p.movedDeleted = []
  · rw [if_pos hmoved]
    exact ⟨_, rfl, h.finish_plain hmoved⟩
  have hne : p.firstGroup ≠ 0 := fun hzero => hmoved (h.1.moved hzero)
  obtain ⟨before, u, after, hupdates, hfirst, hbefore⟩ := h.2.split hne
  have hpos : p.firstGroup - 1 = before.length := by omega
  have hget : p.updates[before.length]? = some (some (.group u)) := by
    rw [hupdates, getElem?_append_right le_rfl, Nat.sub_self]
    rfl
  have hset : ∀ o, p.updates.set before.length o = before ++ o :: after := by
    intro o
    rw [hupdates, set_append_right _ _ le_rfl, Nat.sub_self]
    rfl
  have hperm := mergeSort_perm (u.removedNotificationIds ++ p.movedDeleted)
    (fun a b => decide (a ≤ b))
  rw [if_neg hmoved, if_neg hne, hpos, hget]
  dsimp only
  rw [if_pos (h.1.nodup_removed hupdates hperm hspaced), hset]
  exact ⟨_, rfl, Between.finish_moved hupdates hperm h hbefore⟩

/-! ## Combining -/

/-- What combining makes of the updates. -/
structure Combined (us us' : List (Update ι C T)) (isChanged : Bool) : Prop where
  ops : ∀ id, opsAt id (us'.flatMap Update.ops) = opsAt id (us.flatMap Update.ops)
  removed : (shapesOf us').flatMap removedIn = (shapesOf us).flatMap removedIn
  later : laterRemoved (shapesOf us') <:+ laterRemoved (shapesOf us)
  cost : ((shapesOf us').map costIn).sum + (if isChanged then 1 else 0)
    ≤ ((shapesOf us).map costIn).sum
  ofGroup : ∀ groupId chatId, (∀ u ∈ us, u.OfGroup groupId chatId) →
    ∀ u ∈ us', u.OfGroup groupId chatId

namespace Combined

variable {us'' : List (Update ι C T)} {isChanged : Bool} {last : UpdateNotificationGroup ι C T}

omit [LinearOrder ι] in
theorem sum_shapesOf_cons (v : Update ι C T) (us : List (Update ι C T)) :
    ((shapesOf (v :: us)).map costIn).sum
      = costIn (shape (some v)) + ((shapesOf us).map costIn).sum := sum_cons

theorem refl (us : List (Update ι C T)) : Combined us us false :=
  ⟨fun _ => rfl, rfl, suffix_refl _, le_rfl, fun _ _ h => h⟩

theorem cons (h : Combined us us' isChanged) (v : Update ι C T) :
    Combined (v :: us) (v :: us') isChanged where
  ops id := by rw [flatMap_cons, flatMap_cons, opsAt_append, opsAt_append, h.ops]
  removed := congrArg (removedIn (shape (some v)) ++ ·) h.removed
  later := by
    cases v with
    | edit g n => exact h.later
    | group u =>
      show (shapesOf us').flatMap removedIn <:+ _
      rw [h.removed]
      exact suffix_refl _
  cost := by
    have hcost := h.cost
    rw [sum_shapesOf_cons, sum_shapesOf_cons]
    omega
  ofGroup groupId chatId hof u hu := by
    rcases mem_cons.mp hu with rfl | hu
    · exact hof u mem_cons_self
    · exact h.ofGroup groupId chatId (forall_mem_cons.1 hof).2 u hu

theorem trans (h : Combined us us' true) (h' : Combined us' us'' isChanged) :
    Combined us us'' true where
  ops id := (h'.ops id).trans (h.ops id)
  removed := h'.removed.trans h.removed
  later := h'.later.trans h.later
  cost := by
    have hcost := h.cost
    have hcost' := h'.cost
    omega
  ofGroup groupId chatId hof := h'.ofGroup groupId chatId (h.ofGroup groupId chatId hof)

/-- Additions of the second update are not deleted by the first one, so their order does not
matter. -/
theorem opsAt_swap {ns : List (Notification ι C)} {ids : List ι}
    (h : hasCommonNotifications ns ids = false) (id : ι) :
    opsAt id (ids.map .remove) ++ opsAt id (ns.map .add)
      = opsAt id (ns.map .add) ++ opsAt id (ids.map .remove) := by
  by_cases hin : id ∈ ids
  · have hnone : opsAt id (ns.map Op.add) = [] := by
      refine filter_eq_nil_iff.mpr fun op hop => ?_
      obtain ⟨n, hn, rfl⟩ := mem_map.mp hop
      have hout := any_eq_false.mp h n hn
      rw [decide_eq_true_eq] at hout ⊢
      rintro rfl
      exact hout hin
    rw [hnone, append_nil, nil_append]
  · rw [opsAt_map_remove, count_eq_zero.mpr hin]
    exact (append_nil _).symm

/-- **Two neighbouring group updates are combined.** -/
theorem one (h : canCombine last u = true) :
    Combined (.group last :: .group u :: us) (.group (combined last u) :: us) true where
  ops id := by
    obtain ⟨-, -, hcommon⟩ := of_decide_eq_true h
    have hswap := opsAt_swap (C := C) hcommon id
    rw [flatMap_cons, flatMap_cons, flatMap_cons, ← append_assoc, opsAt_append, opsAt_append]
    congr 1
    show opsAt id ((last.addedNotifications ++ u.addedNotifications).map .add
      ++ (last.removedNotificationIds ++ u.removedNotificationIds).map .remove)
      = opsAt id ((last.addedNotifications.map .add ++ last.removedNotificationIds.map .remove)
        ++ (u.addedNotifications.map .add ++ u.removedNotificationIds.map .remove))
    rw [map_append, map_append, opsAt_append, opsAt_append, opsAt_append, opsAt_append,
      opsAt_append, opsAt_append, append_assoc, append_assoc, ← append_assoc
        (opsAt id (last.removedNotificationIds.map .remove)), hswap, append_assoc]
  removed := by
    show (last.removedNotificationIds ++ u.removedNotificationIds) ++ _
      = last.removedNotificationIds ++ (u.removedNotificationIds ++ _)
    rw [append_assoc]
  later := suffix_append u.removedNotificationIds _
  cost := by
    show 1 + ((last.addedNotifications ++ u.addedNotifications).map _).length
        + (last.removedNotificationIds ++ u.removedNotificationIds).length
        + loud (last.isSilent && u.isSilent) + _ + 1
      ≤ 1 + (last.addedNotifications.map _).length + last.removedNotificationIds.length
        + loud last.isSilent + (1 + (u.addedNotifications.map _).length
        + u.removedNotificationIds.length + loud u.isSilent + _)
    have hloud : loud (last.isSilent && u.isSilent) ≤ loud last.isSilent + loud u.isSilent := by
      cases last.isSilent <;> cases u.isSilent <;> decide
    rw [map_append, length_append, length_append]
    omega
  ofGroup groupId chatId hof v hv := by
    rcases mem_cons.mp hv with rfl | hv
    · exact hof (.group last) mem_cons_self
    · exact hof v (mem_cons_of_mem _ (mem_cons_of_mem _ hv))

end Combined

/-- **Combining never fails.** -/
theorem combine_spec (last : Update ι C T) (us : List (Update ι C T))
    (hof : ∀ u ∈ last :: us, u.OfGroup groupId chatId) :
    ∃ us' isChanged, combine last us = some (us', isChanged) ∧
      Combined (last :: us) us' isChanged := by
  induction us generalizing last with
  | nil => exact ⟨_, _, by cases last <;> rfl, .refl _⟩
  | cons v us ih =>
    have hrest : ∀ w ∈ v :: us, w.OfGroup groupId chatId :=
      (forall_mem_cons.1 hof).2
    have hnext : ∃ us' isChanged, (combine v us).map (fun r => (last :: r.1, r.2))
        = some (us', isChanged) ∧ Combined (last :: v :: us) us' isChanged := by
      obtain ⟨us', isChanged, hcombine, h⟩ := ih v hrest
      exact ⟨_, _, by rw [hcombine]; rfl, h.cons last⟩
    cases last with
    | edit g n => cases v <;> exact hnext
    | group last =>
      cases v with
      | edit g n => exact hnext
      | group u =>
        rw [combine]
        by_cases hcan : canCombine last u = true
        · have hlast := hof _ mem_cons_self
          have hu := hrest _ mem_cons_self
          have hsame : ¬(last.notificationGroupId ≠ u.notificationGroupId ∨
              last.chatId ≠ u.chatId) :=
            not_or.mpr ⟨not_not.mpr (hlast.1.trans hu.1.symm),
              not_not.mpr (hlast.2.trans hu.2.symm)⟩
          have hone : Combined (.group last :: .group u :: us) _ true := .one hcan
          obtain ⟨us', isChanged, hcombine, h⟩ :=
            ih (.group (combined last u)) (hone.ofGroup groupId chatId hof)
          rw [if_pos hcan, if_neg hsame, hcombine]
          exact ⟨_, _, rfl, hone.trans h⟩
        · rw [if_neg hcan]
          exact hnext

/-! ## One turn -/

variable {s : LastState ι} {c : Client ι C} {isHidden isChanged : Bool}

theorem Combined.workIn_le (h : Combined us us' isChanged) :
    workIn (shapesOf us') + (if isChanged then 1 else 0) ≤ workIn (shapesOf us) := by
  have hcost := h.cost
  have hlater := h.later.length_le
  unfold workIn
  omega

theorem Turned.combined {us'' : List (Update ι C T)} (h : Turned needed groupId chatId us us')
    (hcombined : Combined us' us'' isChanged) : Turned needed groupId chatId us us'' where
  stays id hid := (hcombined.ops id).trans (h.stays id hid)
  goes id hid := (hcombined.ops id).trans (h.goes id hid)
  later id hid := h.later id (hcombined.later.subset hid)
  ofGroup := hcombined.ofGroup groupId chatId h.ofGroup

/-- **A turn never fails**, and unless it is the last one it takes off some work. -/
theorem turn_spec (hwell : c.WellFormed (us.flatMap ops))
    (hspaced : ∀ id, Spaced false (opsAt id (us.flatMap ops)))
    (hof : ∀ u ∈ us, u.OfGroup groupId chatId) :
    ∃ us' again, turn s isHidden us = some (us', again) ∧
      Turned s.isNeeded groupId chatId us us' ∧ (again = true → work us' < work us) := by
  have hstart : Between s.isNeeded groupId chatId (Pass.initial : Pass ι C T) [] :=
    ⟨.initial _, .initial _ _ _⟩
  obtain ⟨p, hall, h⟩ := hstart.updateAll us.length isHidden
    (decide (s.added = ∅ ∧ s.edited = ∅)) hwell hof
  obtain ⟨us1, hfinish, hturned, hwork⟩ := h.finish hspaced
  unfold turn
  dsimp only
  rw [hall]
  dsimp only
  rw [hfinish]
  cases us1 with
  | nil => exact ⟨[], false, rfl, hturned, nofun⟩
  | cons u us1 =>
    obtain ⟨us2, isChanged, hcombine, hcombined⟩ := combine_spec u us1 hturned.ofGroup
    refine ⟨us2, p.isChanged || isChanged, by dsimp only; rw [hcombine]; rfl,
      hturned.combined hcombined, fun hagain => ?_⟩
    have hless := hcombined.workIn_le
    rw [work_eq, work_eq]
    rw [nil_append] at hwork
    unfold Pass.changed at hwork
    rcases Bool.or_eq_true _ _ |>.mp hagain with hchanged | hchanged
    · rw [if_pos hchanged] at hwork
      omega
    · rw [if_pos hchanged] at hless
      omega

/-! ## All turns -/

section OneNotification

variable {x : Option (Notification ι C)} {ops : List (Op ι C)} {op : Op ι C}
  {n : Notification ι C}

/-- The notifications differ in nothing but the type. -/
def SameButType (n m : Notification ι C) : Prop :=
  n.id = m.id ∧ n.date = m.date ∧ n.isSilent = m.isSilent

omit [LinearOrder ι] in
theorem mem_collapse (hop : op ∈ collapse ops) (hn : op.Writes n) :
    ∃ op' ∈ ops, ∃ m, op'.Writes m ∧ SameButType n m := by
  induction ops with
  | nil => cases hop
  | cons first ops ih =>
    cases first with
    | remove id =>
      rcases mem_cons.mp hop with rfl | hop
      · rcases hn with hn | hn <;> cases hn
      · obtain ⟨op', hop', hm⟩ := ih hop
        exact ⟨op', mem_cons_of_mem _ hop', hm⟩
    | add m | edit m =>
      refine ⟨_, mem_cons_self, m, by simp [Op.Writes], ?_⟩
      rw [mem_singleton.mp hop] at hn
      rcases hn with hn | hn <;> cases hn
      exact ⟨rfl, rfl, rfl⟩

omit [LinearOrder ι] in
theorem endsWrite_collapse (h : ops.any Op.isWrite = true) : endsWrite (collapse ops) = true := by
  induction ops with
  | nil => cases h
  | cons first ops ih =>
    cases first with
    | add m | edit m => rfl
    | remove id =>
      have hrest : endsWrite (collapse ops) = true := ih h
      unfold endsWrite at hrest ⊢
      rw [collapse, getLast?_cons]
      cases hlast : (collapse ops).getLast? with
      | none =>
        rw [hlast] at hrest
        cases hrest
      | some op =>
        rw [hlast] at hrest
        exact hrest

omit [LinearOrder ι] in
theorem exists_of_endsWrite (h : endsWrite ops = true) :
    ∃ pre w m, ops = pre ++ [w] ∧ w.Writes m := by
  cases ops using reverseRecOn with
  | nil => cases h
  | append_singleton pre w =>
    rw [endsWrite_concat] at h
    cases w with
    | add m => exact ⟨pre, _, m, rfl, .inl rfl⟩
    | edit m => exact ⟨pre, _, m, rfl, .inr rfl⟩
    | remove id => cases h

omit [LinearOrder ι] in
theorem runAt_of_writes {pre : List (Op ι C)} {w : Op ι C} (h : WellFormedAt x (pre ++ [w]))
    (hw : w.Writes n) : runAt x (pre ++ [w]) = some n := by
  obtain ⟨m, hm, hwm⟩ := runAt_concat_write h hw.isWrite
  rw [hm]
  rcases hw with rfl | rfl <;> rcases hwm with hwm | hwm <;> cases hwm <;> rfl

/-- What is kept by the turns of the loop of the operations `ops0` on one notification. -/
structure KeptAt (isNeeded : Bool) (x : Option (Notification ι C)) (ops0 ops : List (Op ι C)) :
    Prop where
  wellFormed : WellFormedAt x ops
  spaced : Spaced false ops
  needed : isNeeded = endsWrite ops
  type : (runAt x ops).map (·.type) = (runAt x ops0).map (·.type)
  goes : isNeeded = false → runAt x ops = runAt x ops0
  writes : ∀ op ∈ ops, ∀ n, op.Writes n → ∃ op' ∈ ops0, ∃ m, op'.Writes m ∧ SameButType n m

omit [LinearOrder ι] in
/-- A turn merges what is said about a notification that stays. -/
theorem KeptAt.collapse {ops0 : List (Op ι C)} (h : KeptAt true x ops0 ops) :
    KeptAt true x ops0 (collapse ops) := by
  obtain ⟨pre, w, m, hops, hw⟩ := exists_of_endsWrite h.needed.symm
  have hwell := h.wellFormed
  rw [hops] at hwell
  obtain ⟨hcollapse, op, hop, n, hn, hrun⟩ := runAt_collapse hwell hw
  rw [← hops] at hcollapse hop hrun
  have hany : ops.any Op.isWrite = true := any_eq_true.mpr ⟨op, hop, hn.isWrite⟩
  refine ⟨hcollapse, h.spaced.collapse, (endsWrite_collapse hany).symm, ?_, nofun, ?_⟩
  · rw [← h.type, hrun, hops, runAt_of_writes hwell hw]
    rfl
  intro op hop n hn
  obtain ⟨op', hop', m, hm, hsame⟩ := mem_collapse hop hn
  obtain ⟨op'', hop'', m', hm', hsame'⟩ := h.writes op' hop' m hm
  exact ⟨op'', hop'', m', hm', hsame.1.trans hsame'.1, hsame.2.1.trans hsame'.2.1,
    hsame.2.2.trans hsame'.2.2⟩

omit [LinearOrder ι] in
/-- A turn leaves the first deletions of a notification that goes. -/
theorem KeptAt.leading {ops0 : List (Op ι C)} (h : KeptAt false x ops0 ops) :
    KeptAt false x ops0 (leading ops) := by
  have hremoves : ∀ op ∈ Notifications.leading ops, op.isWrite = false :=
    fun op hop => isWrite_of_mem_leading hop
  have hnot : endsWrite (Notifications.leading ops) = false := by
    by_contra hwrite
    rw [Bool.not_eq_false] at hwrite
    obtain ⟨pre, w, m, hops, hw⟩ := exists_of_endsWrite hwrite
    have hfalse := hremoves w (by rw [hops]; exact mem_append_right _ mem_cons_self)
    exact Bool.false_ne_true (hfalse.symm.trans hw.isWrite)
  have hrun : runAt x (Notifications.leading ops) = runAt x ops0 := by
    rw [← h.goes rfl]
    cases ops using reverseRecOn with
    | nil => rfl
    | append_singleton pre w =>
      have hlast := h.needed
      rw [endsWrite_concat] at hlast
      cases w with
      | remove id => rw [runAt_leading h.wellFormed, runAt_concat, stepAt]
      | add m | edit m => cases hlast
  refine ⟨wellFormedAt_of_removes hremoves, h.spaced.leading, hnot.symm, by rw [hrun],
    fun _ => hrun, fun op hop n hn => ?_⟩
  exact absurd ((hremoves op hop).symm.trans hn.isWrite) nofun

end OneNotification

/-- What is kept by the turns of the loop. -/
structure Kept (needed : ι → Bool) (groupId chatId : Int) (c : Client ι C) (ops0 : List (Op ι C))
    (us : List (Update ι C T)) : Prop where
  at_id : ∀ id, KeptAt (needed id) (c id) (opsAt id ops0) (opsAt id (us.flatMap Update.ops))
  ofGroup : ∀ u ∈ us, u.OfGroup groupId chatId

/-- What is so after each turn. -/
structure Settled (needed : ι → Bool) (us : List (Update ι C T)) : Prop where
  writes : ∀ id, writesAt id (us.flatMap Update.ops) ≤ 1
  goes : ∀ id, needed id = false → writesAt id (us.flatMap Update.ops) = 0
  later : ∀ id ∈ laterRemoved (shapesOf us), needed id = true

variable {ops0 : List (Op ι C)}

theorem Kept.turned (h : Kept needed groupId chatId c ops0 us)
    (hturned : Turned needed groupId chatId us us') : Kept needed groupId chatId c ops0 us' := by
  refine ⟨fun id => ?_, hturned.ofGroup⟩
  have hid := h.at_id id
  cases hneeded : needed id with
  | true =>
    rw [hneeded] at hid
    rw [hturned.stays id hneeded]
    exact hid.collapse
  | false =>
    rw [hneeded] at hid
    rw [hturned.goes id hneeded]
    exact hid.leading

theorem Turned.settled (h : Turned needed groupId chatId us us') : Settled needed us' := by
  have hgoes : ∀ id, needed id = false → writesAt id (us'.flatMap ops) = 0 := by
    intro id hid
    unfold writesAt
    rw [h.goes id hid, countP_eq_zero]
    intro op hop
    rw [isWrite_of_mem_leading hop]
    exact nofun
  refine ⟨fun id => ?_, hgoes, h.later⟩
  cases hneeded : needed id with
  | true =>
    unfold writesAt
    rw [h.stays id hneeded]
    exact countP_collapse_le _
  | false => exact (hgoes id hneeded).le.trans (Nat.zero_le 1)

/-- **The loop ends**, after no more turns than there is work. -/
theorem loop_spec (isHidden : Bool) {fuel : Nat}
    (h : Kept s.isNeeded groupId chatId c ops0 us) (hfuel : work us < fuel) :
    ∃ us', loop s isHidden fuel us = some us' ∧ Kept s.isNeeded groupId chatId c ops0 us' ∧
      Settled s.isNeeded us' := by
  induction fuel generalizing us with
  | zero => omega
  | succ fuel ih =>
    have hwell : c.WellFormed (us.flatMap ops) :=
      (Client.wellFormed_iff c _).mpr fun id => (h.at_id id).wellFormed
    obtain ⟨us', again, hturn, hturned, hless⟩ :=
      turn_spec (s := s) hwell (fun id => (h.at_id id).spaced) h.ofGroup
    have h' := h.turned hturned
    cases again with
    | false =>
      refine ⟨us', ?_, h', hturned.settled⟩
      rw [loop, hturn]
    | true =>
      obtain ⟨us'', hloop, h''⟩ := ih h' (by have hlt := hless rfl; omega)
      refine ⟨us'', ?_, h''⟩
      rw [loop, hturn]
      exact hloop

/-! ## Sorting -/

/-- A list with one element at most has only one order. -/
theorem eq_of_perm_of_length_le {α : Type} {l l' : List α} (h : l.Perm l')
    (hlength : l'.length ≤ 1) : l = l' := by
  match l' with
  | [] => exact h.eq_nil
  | [a] => exact perm_singleton.mp h

theorem opsAt_sorted {u : Update ι C T} {id : ι} (h : writesAt id u.ops ≤ 1) :
    opsAt id (sorted u).ops = opsAt id u.ops := by
  cases u with
  | edit g n => rfl
  | group u =>
    have hadds := (mergeSort_perm u.addedNotifications fun a b => decide (a.id ≤ b.id)).map
      Op.add
    have hadds' :
        opsAt id ((u.addedNotifications.mergeSort fun a b => decide (a.id ≤ b.id)).map .add)
        = opsAt id (u.addedNotifications.map .add) := by
      have hperm := hadds.filter fun op => decide (op.id = id)
      have hlength : (opsAt id (u.addedNotifications.map Op.add)).length ≤ 1 := by
        have hall : (opsAt id (u.addedNotifications.map Op.add)).length
            = writesAt id (u.addedNotifications.map Op.add) := by
          refine (countP_eq_length.mpr fun op hop => ?_).symm
          obtain ⟨n, -, rfl⟩ := mem_map.mp (mem_opsAt.mp hop).1
          rfl
        rw [ops, writesAt_append] at h
        omega
      exact eq_of_perm_of_length_le hperm hlength
    have hcount := (mergeSort_perm u.removedNotificationIds fun a b => decide (a ≤ b)).count_eq id
    show opsAt id (_ ++ _) = opsAt id (_ ++ _)
    rw [opsAt_append, opsAt_append, hadds', opsAt_map_remove, opsAt_map_remove, hcount]

theorem opsAt_map_sorted {id : ι} (h : writesAt id (us.flatMap ops) ≤ 1) :
    opsAt id ((us.map sorted).flatMap ops) = opsAt id (us.flatMap ops) := by
  induction us with
  | nil => rfl
  | cons u us ih =>
    rw [flatMap_cons, writesAt_append] at h
    rw [map_cons, flatMap_cons, flatMap_cons, opsAt_append, opsAt_append,
      opsAt_sorted (by omega), ih (by omega)]

/-! ## What a client sees -/

/-- After the first group update nothing is said about a notification that goes. -/
theorem Settled.opsAt_after {before after : List (Update ι C T)} {id : ι}
    (h : Settled needed (before ++ after)) (hgroup : (shapesOf before).any isGroup = true)
    (hid : needed id = false) : opsAt id (after.flatMap ops) = [] := by
  refine eq_nil_iff_forall_not_mem.mpr fun op hop => ?_
  obtain ⟨hop, hopid⟩ := mem_opsAt.mp hop
  have hwrite : op.isWrite = false := by
    have hzero := h.goes id hid
    rw [flatMap_append] at hzero
    exact writesAt_eq_zero.mp hzero op (mem_append_right _ hop) hopid
  obtain ⟨u, hu, hop⟩ := mem_flatMap.mp hop
  have hremoved : id ∈ (shapesOf after).flatMap removedIn := by
    refine mem_flatMap.mpr ⟨shape (some u), mem_map_of_mem hu, ?_⟩
    cases u with
    | edit g n =>
      rw [mem_singleton.mp hop] at hwrite
      cases hwrite
    | group u =>
      rcases mem_append.mp hop with hop | hop
      · obtain ⟨n, -, rfl⟩ := mem_map.mp hop
        cases hwrite
      · obtain ⟨i, hi, rfl⟩ := mem_map.mp hop
        exact hopid ▸ hi
  refine Bool.false_ne_true (hid.symm.trans (h.later id ?_))
  have hshapes : shapesOf (before ++ after) = shapesOf before ++ shapesOf after := map_append
  rw [hshapes, laterRemoved_append, hgroup]
  exact mem_append_right _ hremoved

/-- Notifications with one identifier differ in nothing but the type. -/
def Agree (ops : List (Op ι C)) : Prop :=
  ∀ op ∈ ops, ∀ op' ∈ ops, ∀ n m, op.Writes n → op'.Writes m → n.id = m.id →
    n.date = m.date ∧ n.isSilent = m.isSilent

omit [LinearOrder ι] in
theorem Op.Writes.id_eq {op : Op ι C} {n : Notification ι C} (h : op.Writes n) : op.id = n.id := by
  rcases h with rfl | rfl <;> rfl

/-- If notifications differ in nothing but the type, they are the same in the end. -/
theorem KeptAt.run_eq {isNeeded : Bool} {x : Option (Notification ι C)}
    {ops : List (Op ι C)} {id : ι}
    (h : KeptAt isNeeded x (opsAt id ops0) (opsAt id ops)) (hwell : WellFormedAt x (opsAt id ops0))
    (hneeded : isNeeded = endsWrite (opsAt id ops0)) (hagree : Agree ops0) :
    runAt x (opsAt id ops) = runAt x (opsAt id ops0) := by
  cases isNeeded with
  | false => exact h.goes rfl
  | true =>
    obtain ⟨pre, w, n, hops, hw⟩ := exists_of_endsWrite h.needed.symm
    obtain ⟨pre0, w0, n0, hops0, hw0⟩ := exists_of_endsWrite hneeded.symm
    have hin : w ∈ opsAt id ops := by
      rw [hops]
      exact mem_append_right _ mem_cons_self
    have hin0 : w0 ∈ opsAt id ops0 := by
      rw [hops0]
      exact mem_append_right _ mem_cons_self
    have hrun : runAt x (opsAt id ops) = some n := by
      have hwell' := h.wellFormed
      rw [hops] at hwell' ⊢
      exact runAt_of_writes hwell' hw
    have hrun0 : runAt x (opsAt id ops0) = some n0 := by
      rw [hops0] at hwell ⊢
      exact runAt_of_writes hwell hw0
    obtain ⟨op', hop', m, hm, hsame⟩ := h.writes w hin n hw
    have hid : n.id = id := hw.id_eq.symm.trans (mem_opsAt.mp hin).2
    have hid0 : n0.id = id := hw0.id_eq.symm.trans (mem_opsAt.mp hin0).2
    have htype := h.type
    rw [hrun, hrun0] at htype
    obtain ⟨hdate, hsilent⟩ := hagree op' (mem_opsAt.mp hop').1 w0 (mem_opsAt.mp hin0).1 m n0 hm hw0
      (hsame.1.symm.trans (hid.trans hid0.symm))
    have heq : n = n0 := by
      exact (Notification.mk.injEq ..).mpr ⟨hid.trans hid0.symm, hsame.2.1.trans hdate,
        hsame.2.2.trans hsilent, Option.some.inj htype⟩
    rw [hrun, hrun0, heq]

theorem TracksAll.mem {ops : List (Op ι C)} {op : Op ι C} (h : TracksAll c s ops0 ops)
    (hop : op ∈ ops) : op ∈ ops0 :=
  (mem_opsAt.mp ((h op.id).sublist.subset (mem_opsAt.mpr ⟨hop, rfl⟩))).1

theorem any_isGroup_of_sorted (h : ∃ u, .group u ∈ us.map sorted) :
    (shapesOf us).any isGroup = true := by
  obtain ⟨u, hu⟩ := h
  obtain ⟨v, hv, hsorted⟩ := mem_map.mp hu
  refine any_eq_true.mpr ⟨shape (some v), mem_map_of_mem hv, ?_⟩
  cases v with
  | edit g n => cases hsorted
  | group v => rfl

theorem TracksAll.kept (h : TracksAll c s ops0 (us.flatMap ops))
    (hof : ∀ u ∈ us, u.OfGroup groupId chatId) :
    Kept s.isNeeded groupId chatId c (us.flatMap ops) us := by
  refine ⟨fun id => ⟨(h id).wellFormed, (h id).spaced, ?_, rfl, fun _ => rfl, ?_⟩, hof⟩
  · exact Bool.eq_iff_iff.mpr (decide_eq_true_iff.trans (h id).needed)
  · exact fun op hop n hn => ⟨op, hop, n, hn, rfl, rfl, rfl⟩

/-- **Flushing keeps the meaning of pending updates.** If notifications are added only when absent
and edited only when present, no `CHECK` fails, what is sent is again such a sequence, and a client
ends with the same contents; with the same notifications, if those with one identifier have one date
and sound. After the first group update no notification is shown that does not stay. -/
theorem flush_pending_updates_same_meaning (isHidden : Bool) (groupId chatId : Int) (c : Client ι C)
    (us : List (Update ι C T)) (hof : ∀ u ∈ us, u.OfGroup groupId chatId)
    (hwell : c.WellFormed (us.flatMap Update.ops)) :
    ∃ sent, flushPendingUpdates isHidden us = some sent ∧
      c.WellFormed (sent.flatMap Update.ops) ∧
      (∀ id, (c.run (sent.flatMap Update.ops) id).map (·.type)
        = (c.run (us.flatMap Update.ops) id).map (·.type)) ∧
      (Agree (us.flatMap Update.ops) →
        c.run (sent.flatMap Update.ops) = c.run (us.flatMap Update.ops)) ∧
      ∀ before after, sent = before ++ after → (∃ u, .group u ∈ before) →
        ∀ id, c.run (before.flatMap Update.ops) id ≠ none →
          c.run (us.flatMap Update.ops) id ≠ none := by
  obtain ⟨s, us1, hlast, htracks⟩ := (tracksAll_initial c).updateAll hwell
  rw [nil_append, nil_append] at htracks
  have hkept := htracks.kept (LastState.ofGroup_updateAll hlast hof)
  obtain ⟨us2, hloop, hkept, hsettled⟩ :=
    loop_spec isHidden hkept (Nat.lt_succ_self (work us1))
  have hsorted : ∀ id, opsAt id ((us2.map sorted).flatMap ops)
      = opsAt id (us2.flatMap ops) := fun id => opsAt_map_sorted (hsettled.writes id)
  have hsent : ∀ id, c.run ((us2.map sorted).flatMap ops) id
      = runAt (c id) (opsAt id (us2.flatMap ops)) := by
    intro id
    rw [Client.run_apply, hsorted]
  have hfirst : ∀ id, c.run (us.flatMap ops) id
      = runAt (c id) (opsAt id (us1.flatMap ops)) := by
    intro id
    rw [Client.run_apply, (htracks id).run]
  refine ⟨us2.map sorted, ?_, ?_, ?_, ?_, ?_⟩
  · unfold flushPendingUpdates
    rw [hlast]
    dsimp only
    rw [hloop]
    rfl
  · refine (Client.wellFormed_iff c _).mpr fun id => ?_
    rw [hsorted]
    exact (hkept.at_id id).wellFormed
  · intro id
    rw [hsent, hfirst]
    exact (hkept.at_id id).type
  · intro hagree
    funext id
    have hagree1 : Agree (us1.flatMap ops) := fun op hop op' hop' =>
      hagree op (htracks.mem hop) op' (htracks.mem hop')
    rw [hsent, hfirst]
    exact (hkept.at_id id).run_eq (htracks id).wellFormed
      (Bool.eq_iff_iff.mpr (decide_eq_true_iff.trans (htracks id).needed)) hagree1
  · intro before after hsplit hgroup id hshown
    obtain ⟨before, after, rfl, rfl, rfl⟩ := map_eq_append_iff.mp hsplit
    cases hneeded : s.isNeeded id with
    | true =>
      rw [hfirst]
      exact runAt_of_endsWrite (htracks id).wellFormed
        ((htracks id).needed.mp (of_decide_eq_true hneeded))
    | false =>
      -- Nothing more is said about it, so it is what it is in the end.
      have hafter := hsettled.opsAt_after (any_isGroup_of_sorted hgroup) hneeded
      have hwrites := hsettled.writes id
      rw [flatMap_append, writesAt_append] at hwrites
      rw [Client.run_apply, opsAt_map_sorted (by omega)] at hshown
      have hall := (hkept.at_id id).goes hneeded
      rw [flatMap_append, opsAt_append, hafter, append_nil] at hall
      rw [hfirst, ← hall]
      exact hshown

/-- Two notifications are added, one is edited and the other one deleted. -/
theorem flush_pending_updates_add_edit_remove :
    ∃ sent, flushPendingUpdates false
        ([.group ⟨1, (), 5, 5, false, 2, [⟨1, 0, false, 10⟩, ⟨2, 0, false, 20⟩], []⟩,
          .edit 1 ⟨1, 0, false, 11⟩, .group ⟨1, (), 5, 5, true, 1, [], [2]⟩] :
            List (Update Nat Nat Unit)) = some sent ∧
      ((Client.run (fun _ => none) (sent.flatMap Update.ops) 1).map (·.type) = some 11) ∧
      (Client.run (fun _ => none) (sent.flatMap Update.ops) 2).map (·.type) = none := by
  obtain ⟨sent, hflush, -, htype, -⟩ := flush_pending_updates_same_meaning false 1 5 (fun _ => none)
    ([.group ⟨1, (), 5, 5, false, 2, [⟨1, 0, false, 10⟩, ⟨2, 0, false, 20⟩], []⟩,
      .edit 1 ⟨1, 0, false, 11⟩, .group ⟨1, (), 5, 5, true, 1, [], [2]⟩] :
        List (Update Nat Nat Unit))
    (by simp [OfGroup]) ⟨rfl, rfl, rfl, trivial, trivial⟩
  exact ⟨sent, hflush, htype 1, htype 2⟩

end Tdlib.Notifications
