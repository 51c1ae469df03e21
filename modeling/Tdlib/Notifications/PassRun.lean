import Tdlib.Notifications.PassProof

/-!
# A pass over all updates

A pass over the updates never fails, and what it leaves is known for every notification. Deletions
that are not in the first group update are those of notifications that stay, since all others are
moved there. The work that is left is counted so that a pass that changes something makes it less.
-/

namespace Tdlib.Notifications

open List Update Pass

variable {ι C T : Type}

/-! ## What is counted -/

def isGroup : Option (Shape ι) → Bool
  | some (.group _ _ _ _ _) => true
  | _ => false

def removedIn : Option (Shape ι) → List ι
  | some (.group _ _ _ removed _) => removed
  | _ => []

def costIn : Option (Shape ι) → Nat
  | some (.group _ _ added removed isSilent) =>
    1 + added.length + removed.length + (if isSilent then 0 else 1)
  | some (.edit _) => 1
  | none => 0

/-- The shape is that of an update of the group. -/
def OfGroupIn (groupId chatId : Int) : Option (Shape ι) → Prop
  | some (.group groupId' chatId' _ _ _) => groupId' = groupId ∧ chatId' = chatId
  | _ => True

/-- The deletions that are not in the first group update. -/
def laterRemoved : List (Option (Shape ι)) → List ι
  | [] => []
  | s :: shapes => if isGroup s then shapes.flatMap removedIn else laterRemoved shapes

def workIn (shapes : List (Option (Shape ι))) : Nat :=
  (shapes.map costIn).sum + (laterRemoved shapes).length

/-- Behind a group update all deletions are later ones. -/
theorem laterRemoved_append (shapes more : List (Option (Shape ι))) :
    laterRemoved (shapes ++ more) = if shapes.any isGroup then
      laterRemoved shapes ++ more.flatMap removedIn else laterRemoved more := by
  induction shapes with
  | nil => rfl
  | cons first shapes ih =>
    rw [cons_append, laterRemoved, laterRemoved, any_cons]
    cases isGroup first with
    | true => exact flatMap_append
    | false => exact ih

theorem laterRemoved_concat (shapes : List (Option (Shape ι))) (s : Option (Shape ι)) :
    laterRemoved (shapes ++ [s])
      = laterRemoved shapes ++ if shapes.any isGroup then removedIn s else [] := by
  rw [laterRemoved_append]
  split
  · exact congrArg _ (append_nil _)
  · rename_i hnone
    have hnil := laterRemoved_append shapes []
    rw [append_nil, if_neg hnone] at hnil
    rw [hnil]
    exact ite_self _

theorem workIn_concat (shapes : List (Option (Shape ι))) (s : Option (Shape ι)) :
    workIn (shapes ++ [s])
      = workIn shapes + costIn s + if shapes.any isGroup then (removedIn s).length else 0 := by
  have hlength : (if shapes.any isGroup then removedIn s else []).length
      = if shapes.any isGroup then (removedIn s).length else 0 := by split <;> rfl
  unfold workIn
  rw [laterRemoved_concat, map_append, sum_append, length_append]
  show _ + (costIn s + 0) + _ = _
  omega

def shapesOf (us : List (Update ι C T)) : List (Option (Shape ι)) := us.map fun u => shape (some u)

theorem cost_eq (u : Update ι C T) : cost u = costIn (shape (some u)) := by
  cases u with
  | edit g n => rfl
  | group u => simp [cost, costIn, shape]

theorem laterDeletions_eq (us : List (Update ι C T)) :
    laterDeletions us = (laterRemoved (shapesOf us)).length := by
  have hdeletions : ∀ us : List (Update ι C T),
      (us.map deletions).sum = ((shapesOf us).flatMap removedIn).length := by
    intro us
    induction us with
    | nil => rfl
    | cons u us ih =>
      rw [shapesOf, map_cons, map_cons, flatMap_cons, sum_cons, length_append, ih]
      cases u <;> rfl
  induction us with
  | nil => rfl
  | cons u us ih =>
    cases u with
    | edit g n => exact ih
    | group u => exact hdeletions us

theorem work_eq (us : List (Update ι C T)) : work us = workIn (shapesOf us) := by
  unfold work workIn
  rw [laterDeletions_eq, shapesOf, map_map]
  congr 2
  exact map_congr_left fun u _ => cost_eq u

/-- Removed updates do not count. -/
theorem laterRemoved_filterMap (us : List (Option (Update ι C T))) :
    laterRemoved (shapesOf (us.filterMap id)) = laterRemoved (us.map shape) := by
  have hremoved : ∀ us : List (Option (Update ι C T)),
      (shapesOf (us.filterMap id)).flatMap removedIn = (us.map shape).flatMap removedIn := by
    intro us
    induction us with
    | nil => rfl
    | cons o us ih =>
      cases o with
      | none => exact ih
      | some u => exact congrArg (removedIn (shape (some u)) ++ ·) ih
  induction us with
  | nil => rfl
  | cons o us ih =>
    match o with
    | none => exact ih
    | some (.edit g n) => exact ih
    | some (.group u) => exact hremoved us

theorem workIn_filterMap (us : List (Option (Update ι C T))) :
    workIn (shapesOf (us.filterMap id)) = workIn (us.map shape) := by
  have hcost : ((shapesOf (us.filterMap id)).map costIn).sum = ((us.map shape).map costIn).sum := by
    induction us with
    | nil => rfl
    | cons o us ih =>
      cases o with
      | none => exact ih.trans (zero_add _).symm
      | some u => exact congrArg (costIn (shape (some u)) + ·) ih
  unfold workIn
  rw [hcost, laterRemoved_filterMap]

/-! ## The frame of a pass -/

variable {groupId chatId : Int} {needed : ι → Bool} {p p' : Pass ι C T}
  {seen : List (Option (Shape ι))} {s t : Option (Shape ι)}

/-- What is known of the updates before the current one, apart from the operations in them. The pass
has seen updates of the shapes `seen`. -/
structure Frame (needed : ι → Bool) (groupId chatId : Int) (p : Pass ι C T)
    (seen : List (Option (Shape ι))) : Prop where
  /-- Without a first group update there is none. -/
  noGroup : p.firstGroup = 0 → p.shapes.any isGroup = false
  /-- The first group update is where it is said to be. -/
  firstGroup : p.firstGroup ≠ 0 → ∃ before s after, p.shapes = before ++ s :: after ∧
    p.firstGroup = before.length + 1 ∧ isGroup s = true ∧ before.any isGroup = false
  /-- It was a group update from the beginning. -/
  seenGroup : p.firstGroup ≠ 0 → seen.any isGroup = true
  /-- Later deletions are of notifications that stay. -/
  later : ∀ id ∈ laterRemoved p.shapes, needed id = true
  /-- All updates are of the group. -/
  ofGroup : ∀ s ∈ p.shapes, OfGroupIn groupId chatId s
  /-- What is left is no more than what was there. -/
  work : workIn p.shapes + p.movedDeleted.length + p.changed ≤ workIn seen

namespace Frame

theorem initial (needed : ι → Bool) (groupId chatId : Int) :
    Frame needed groupId chatId (initial : Pass ι C T) [] where
  noGroup _ := rfl
  firstGroup h := absurd rfl h
  seenGroup h := absurd rfl h
  later := nofun
  ofGroup := nofun
  work := le_rfl

theorem any_isGroup (h : Frame needed groupId chatId p seen) :
    p.shapes.any isGroup = !decide (p.firstGroup = 0) := by
  by_cases hzero : p.firstGroup = 0
  · rw [h.noGroup hzero, decide_eq_true hzero]
    rfl
  · obtain ⟨before, s, after, hshapes, -, hs, -⟩ := h.firstGroup hzero
    rw [decide_eq_false hzero, hshapes, any_append, any_cons, hs, Bool.true_or, Bool.or_true]
    rfl

/-- What a deletion counts in addition, if there is a group update before. -/
def extra (p : Pass ι C T) (s : Option (Shape ι)) : Nat :=
  if p.firstGroup = 0 then 0 else (removedIn s).length

/-- **One update more.** It had the shape `s` and has now the shape `t`. -/
theorem push (h : Frame needed groupId chatId p seen) (hshapes : p'.shapes = p.shapes ++ [t])
    (hfirst : p'.firstGroup
      = if isGroup t = true ∧ p.firstGroup = 0 then p.shapes.length + 1 else p.firstGroup)
    (hgroup : isGroup t = true → isGroup s = true)
    (hlater : p.firstGroup ≠ 0 → ∀ id ∈ removedIn t, needed id = true)
    (hof : OfGroupIn groupId chatId t)
    (hwork : costIn t + extra p t + p'.movedDeleted.length + p'.changed
      ≤ costIn s + extra p s + p.movedDeleted.length + p.changed) :
    Frame needed groupId chatId p' (seen ++ [s]) where
  noGroup hzero := by
    rw [hfirst] at hzero
    split at hzero
    · omega
    · rename_i hnot
      rw [not_and, imp_not_comm, Bool.not_eq_true] at hnot
      rw [hshapes, any_append, h.noGroup hzero, any_cons, hnot hzero]
      rfl
  firstGroup hne := by
    rw [hfirst] at hne ⊢
    rw [hshapes]
    split
    · rename_i hnew
      exact ⟨p.shapes, t, [], rfl, rfl, hnew.1, h.noGroup hnew.2⟩
    rename_i hold
    rw [if_neg hold] at hne
    obtain ⟨before, s, after, hsplit, hlength, hs, hbefore⟩ := h.firstGroup hne
    exact ⟨before, s, after ++ [t], by rw [hsplit, append_assoc, cons_append], hlength, hs, hbefore⟩
  seenGroup hne := by
    rw [hfirst] at hne
    rw [any_append, any_cons, Bool.or_eq_true]
    split at hne
    · rename_i hnew
      rw [hgroup hnew.1]
      exact .inr rfl
    · exact .inl (h.seenGroup hne)
  later id hid := by
    rw [hshapes, laterRemoved_concat, h.any_isGroup] at hid
    rcases mem_append.mp hid with hid | hid
    · exact h.later id hid
    by_cases hzero : p.firstGroup = 0
    · rw [decide_eq_true hzero] at hid
      cases hid
    · rw [decide_eq_false hzero] at hid
      exact hlater hzero id hid
  ofGroup s' hs' := by
    rw [hshapes] at hs'
    rcases mem_append.mp hs' with hs' | hs'
    · exact h.ofGroup s' hs'
    · rw [mem_singleton.mp hs']
      exact hof
  work := by
    have hsize : (if p.shapes.any isGroup = true then (removedIn t).length else 0) = extra p t := by
      rw [h.any_isGroup]
      unfold extra
      by_cases hzero : p.firstGroup = 0
      · rw [decide_eq_true hzero, if_pos hzero]
        rfl
      · rw [decide_eq_false hzero, if_neg hzero]
        rfl
    have hseen : extra p s ≤ if seen.any isGroup = true then (removedIn s).length else 0 := by
      unfold extra
      by_cases hzero : p.firstGroup = 0
      · rw [if_pos hzero]
        exact Nat.zero_le _
      · rw [if_neg hzero, if_pos (h.seenGroup hzero)]
    have hbefore := h.work
    rw [hshapes, workIn_concat, workIn_concat]
    omega

end Frame

/-! ## Updates in a pass -/

variable [LinearOrder ι] {ops rest : List (Op ι C)} {added : List (Notification ι C)}
  {removed : List ι} {c : Client ι C}

/-- **What was kept of the current update is put behind the others.** -/
theorem Inv.push (h : Inv needed p added removed ops) (hleft : p'.left = leftWith p added removed)
    (hshapes : p'.shapes = p.shapes ++ [t])
    (hadded : ∀ id ∈ added.map (·.id), ∃ groupId chatId ids removed isSilent,
      t = some (.group groupId chatId ids removed isSilent) ∧ id ∈ ids)
    (hsame : p'.firstAdd = p.firstAdd ∧ p'.firstEdit = p.firstEdit ∧
      p'.canBeDeleted = p.canBeDeleted ∧ p'.movedDeleted = p.movedDeleted)
    (hfirst : p'.firstGroup = 0 → p.firstGroup = 0) : Inv needed p' [] [] ops := by
  have hlength : p'.shapes.length = p.updates.length + 1 := by
    rw [hshapes, length_append, shapes, length_map]
    rfl
  have hall : leftWith p' [] [] = leftWith p added removed := (append_nil _).trans hleft
  exact {
    stays := by
      rw [hall]
      exact h.stays
    goes := by
      rw [hall, hsame.2.2.2]
      exact h.goes
    canBeDeleted := by
      rw [hsame.2.2.1]
      exact h.canBeDeleted
    firstEdit := fun id pos hpos => by
      rw [hsame.2.1] at hpos
      rw [hshapes]
      exact (h.firstEdit id pos hpos).append _
    firstAdd := fun id pos hpos => by
      rw [hsame.1] at hpos
      rcases h.firstAdd id pos hpos with hat | ⟨hcur, hid⟩
      · rw [hshapes]
        exact .inl (hat.append _)
      obtain ⟨groupId, chatId, ids, removed, isSilent, ht, hid⟩ := hadded id hid
      refine .inl ⟨by rw [hlength, hcur]; exact le_rfl, groupId, chatId, ids, removed,
        isSilent, ?_, hid⟩
      have hpos : pos - 1 = p.shapes.length := by
        rw [hcur, shapes, length_map]
        rfl
      rw [hshapes, hpos, getElem?_concat_length, ht]
    held := by
      rw [hsame.1, hsame.2.1]
      exact h.held
    moved := fun hzero => by
      rw [hsame.2.2.2]
      exact h.moved (hfirst hzero)
    movedGoes := by
      rw [hsame.2.2.2]
      exact h.movedGoes }

theorem Inv.withChanged (h : Inv needed p added removed ops) (isChanged : Bool) :
    Inv needed { p with isChanged } added removed ops :=
  ⟨h.stays, h.goes, h.canBeDeleted, h.firstEdit, h.firstAdd, h.held, h.moved, h.movedGoes⟩

omit [LinearOrder ι] in
theorem moveTotalCount_spec {u : UpdateNotificationGroup ι C T}
    {us us' : List (Option (Update ι C T))} (h : moveTotalCount u us = some us') :
    us'.map shape = us.map shape ∧ us'.flatMap optOps = us.flatMap optOps := by
  induction us generalizing us' with
  | nil => cases h
  | cons o us ih =>
    unfold moveTotalCount at h
    cases hmove : moveTotalCount u us with
    | some us'' =>
      rw [hmove] at h
      cases h
      obtain ⟨hshape, hops⟩ := ih hmove
      exact ⟨congrArg (shape o :: ·) hshape, congrArg (optOps o ++ ·) hops⟩
    | none =>
      rw [hmove] at h
      match o with
      | some (.group v) =>
        cases h
        exact ⟨rfl, rfl⟩
      | some (.edit g n) => cases h
      | none => cases h

/-- Of an update that is not silent one takes something off by making it silent. -/
def loud (isSilent : Bool) : Nat := if isSilent then 0 else 1

omit [LinearOrder ι] in
theorem silence_spec (p : Pass ι C T) (u : UpdateNotificationGroup ι C T) :
    ∃ isChanged isSilent, p.silence u = ({ p with isChanged }, { u with isSilent }) ∧
      (if isChanged then 1 else 0) + loud isSilent ≤ p.changed + loud u.isSilent := by
  unfold silence
  split
  · rename_i h
    refine ⟨true, true, rfl, ?_⟩
    rw [h.2]
    exact Nat.le_add_left 1 _
  · exact ⟨p.isChanged, u.isSilent, rfl, le_rfl⟩

variable {u u' : UpdateNotificationGroup ι C T} {size : Nat} {isHidden isEmptyGroup : Bool}

/-- The additions and deletions of a group update have been gone through; `u'` is what is kept. -/
structure Scanned (needed : ι → Bool) (p : Pass ι C T) (u : UpdateNotificationGroup ι C T)
    (p' : Pass ι C T) (u' : UpdateNotificationGroup ι C T) (ops : List (Op ι C)) : Prop where
  inv : Inv needed p' u'.addedNotifications u'.removedNotificationIds ops
  steady : p.Steady p'
  later : p.firstGroup ≠ 0 → ∀ id ∈ u'.removedNotificationIds, needed id = true
  ofGroup : u'.notificationGroupId = u.notificationGroupId ∧ u'.chatId = u.chatId
  work : costIn (shape (some (.group u'))) + Frame.extra p (shape (some (.group u')))
      + p'.movedDeleted.length + p'.changed
    ≤ costIn (shape (some (.group u))) + Frame.extra p (shape (some (.group u)))
      + p.movedDeleted.length + p.changed

namespace Scanned

section

variable (h : Scanned needed p u p' u' ops) (hframe : Frame needed groupId chatId p seen)
include h hframe

theorem pushGroup (hu : (group u).OfGroup groupId chatId) :
    Inv needed (p'.pushGroup u') [] [] ops ∧
      Frame needed groupId chatId (p'.pushGroup u') (seen ++ [shape (some (.group u))]) := by
  have hshapes : (p'.pushGroup u').shapes = p'.shapes ++ [shape (some (group u'))] :=
    map_append
  have hfirst : (p'.pushGroup u').firstGroup
      = if p'.firstGroup = 0 then p'.curPos else p'.firstGroup := rfl
  refine ⟨h.inv.push ?_ hshapes ?_ ⟨rfl, rfl, rfl, rfl⟩ ?_,
    hframe.push (t := shape (some (group u'))) ?_ ?_ (fun _ => rfl) h.later ?_ h.work⟩
  · show (p'.updates ++ [some (group u')]).flatMap optOps = _
    rw [flatMap_append]
    exact congrArg (p'.left ++ ·) (append_nil _)
  · exact fun id hid => ⟨_, _, _, _, _, rfl, hid⟩
  · intro hzero
    rw [hfirst] at hzero
    split at hzero
    · assumption
    · exact hzero
  · rw [hshapes, h.steady.shapes]
  · rw [hfirst, h.steady.firstGroup, ← h.steady.shapes, shapes, length_map]
    exact if_congr (iff_and_self.mpr fun _ => rfl) rfl rfl
  · exact ⟨h.ofGroup.1.trans hu.1, h.ofGroup.2.trans hu.2⟩

/-- An update of which nothing is left is dropped. -/
theorem drop {updates : List (Option (Update ι C T))}
    (hempty : u'.removedNotificationIds = [] ∧ u'.addedNotifications = [])
    (hsame : updates.map shape = p'.updates.map shape ∧
      updates.flatMap optOps = p'.updates.flatMap optOps) :
    Inv needed { p' with updates := updates ++ [none], isChanged := true } [] [] ops ∧
      Frame needed groupId chatId { p' with updates := updates ++ [none], isChanged := true }
        (seen ++ [shape (some (.group u))]) := by
  have hshapes : (updates ++ [none]).map shape = p'.shapes ++ [none] := by
    rw [map_append, hsame.1]
    rfl
  refine ⟨h.inv.push ?_ hshapes ?_ ⟨rfl, rfl, rfl, rfl⟩ id, hframe.push (t := none) ?_ ?_ nofun
    (fun _ => nofun) trivial ?_⟩
  · show (updates ++ [none]).flatMap optOps = _
    rw [flatMap_append, hsame.2, hempty.1, hempty.2]
    rfl
  · rw [hempty.2]
    nofun
  · exact hshapes.trans (by rw [h.steady.shapes])
  · exact h.steady.firstGroup.trans (if_neg fun hand => Bool.false_ne_true hand.1).symm
  have hwork := h.work
  have hcost : 1 ≤ costIn (shape (some (.group u'))) := by
    show 1 ≤ 1 + _ + _ + _
    omega
  have hextra : Frame.extra p none = 0 := ite_self 0
  rw [hextra]
  show 0 + 0 + p'.movedDeleted.length + 1 ≤ _
  omega

theorem pushEmpty (hu : (group u).OfGroup groupId chatId)
    (hempty : u'.removedNotificationIds = [] ∧ u'.addedNotifications = []) :
    ∃ p'', p'.pushEmpty size isHidden isEmptyGroup u' = some p'' ∧ Inv needed p'' [] [] ops ∧
      Frame needed groupId chatId p'' (seen ++ [shape (some (.group u))]) := by
  unfold Pass.pushEmpty
  cases hmove : moveTotalCount u' p'.updates with
  | some updates => exact ⟨_, rfl, h.drop hframe hempty (moveTotalCount_spec hmove)⟩
  | none =>
    dsimp only
    split
    · rename_i hfirst
      -- There is no update before it, so nothing was moved.
      have hnil : p'.shapes = [] := by
        have hpos := hfirst.1
        rw [curPos] at hpos
        rw [shapes, map_eq_nil_iff]
        exact eq_nil_of_length_eq_zero (by omega)
      have hmoved : p'.movedDeleted = [] := by
        refine h.inv.moved ?_
        rw [h.steady.firstGroup]
        by_contra hne
        obtain ⟨before, s, after, hshapes, -⟩ := hframe.firstGroup hne
        rw [← h.steady.shapes, hnil] at hshapes
        exact append_ne_nil_of_right_ne_nil _ (cons_ne_nil _ _) hshapes.symm
      rw [if_pos hmoved]
      exact ⟨_, rfl, h.drop hframe hempty ⟨rfl, rfl⟩⟩
    · exact ⟨_, rfl, h.pushGroup hframe hu⟩

end

end Scanned

omit [LinearOrder ι] in
theorem costIn_add_extra (p : Pass ι C T) (u : UpdateNotificationGroup ι C T) :
    costIn (shape (some (.group u))) + Frame.extra p (shape (some (.group u)))
      = 1 + u.addedNotifications.length + Inv.weight p * u.removedNotificationIds.length
        + loud u.isSilent := by
  show 1 + (u.addedNotifications.map _).length + u.removedNotificationIds.length + loud u.isSilent
    + (if p.firstGroup = 0 then 0 else u.removedNotificationIds.length) = _
  unfold Inv.weight
  rw [length_map]
  split <;> omega

/-- The additions and deletions of a group update never fail. -/
theorem Inv.scan (h : Inv needed p [] [] ops)
    (hwell : c.WellFormed (ops ++ ((group u).ops ++ rest))) :
    ∃ p1 added p2 isSilent p3 removed, p.addAll needed [] u.addedNotifications = some (p1, added) ∧
      p1.silence { u with addedNotifications := added }
        = (p2, { u with addedNotifications := added, isSilent }) ∧
      p2.removeAll needed [] u.removedNotificationIds = some (p3, removed) ∧
      Scanned needed p u p3 { u with
        addedNotifications := added, isSilent, removedNotificationIds := removed }
        (ops ++ (group u).ops) := by
  rw [Update.ops, append_assoc] at hwell
  obtain ⟨p1, added, hadd, h1, hsteady1, hmoved1, hlength1⟩ :=
    h.addAll hwell (forall_mem_nil _)
  obtain ⟨isChanged, isSilent, hsilence, hloud⟩ :=
    silence_spec p1 { u with addedNotifications := added }
  obtain ⟨p3, removed, hremove, h3, hsteady3, hlater, hlength3⟩ :=
    (h1.withChanged isChanged).removeAll u.removedNotificationIds
  rw [append_assoc] at h3
  have hsteady : p.Steady p3 := hsteady1.trans ⟨hsteady3.shapes, hsteady3.firstGroup⟩
  refine ⟨p1, added, _, isSilent, p3, removed, hadd, hsilence, hremove, h3, hsteady, ?_, ⟨rfl, rfl⟩,
    ?_⟩
  · intro hne id hid
    exact (hlater (by rw [← hsteady1.firstGroup] at hne; exact hne) id hid).resolve_left not_mem_nil
  have hweight : Inv.weight { p1 with isChanged } = Inv.weight p := by
    unfold Inv.weight
    rw [← hsteady1.firstGroup]
  have hmoved : p1.movedDeleted.length = p.movedDeleted.length := congrArg length hmoved1
  have hchanged : changed { p1 with isChanged } = if isChanged then 1 else 0 := rfl
  rw [costIn_add_extra, costIn_add_extra]
  rw [hweight] at hlength3
  dsimp only at hlength3 hloud ⊢
  rw [length_nil, Nat.mul_zero] at hlength3
  rw [length_nil] at hlength1
  omega

/-- A pass between two updates: it has seen the updates `us`. -/
def Between (needed : ι → Bool) (groupId chatId : Int) (p : Pass ι C T) (us : List (Update ι C T)) :
    Prop :=
  Inv needed p [] [] (us.flatMap Update.ops) ∧ Frame needed groupId chatId p (shapesOf us)

variable {us : List (Update ι C T)} {g : Int} {n : Notification ι C}

theorem Between.of_concat {v : Update ι C T}
    (h : Inv needed p [] [] (us.flatMap Update.ops ++ v.ops) ∧
      Frame needed groupId chatId p (shapesOf us ++ [shape (some v)])) :
    Between needed groupId chatId p (us ++ [v]) := by
  unfold Between
  rw [flatMap_append, shapesOf, map_append, flatMap_cons, flatMap_nil, append_nil]
  exact h

theorem Between.group (h : Between needed groupId chatId p us)
    (hwell : c.WellFormed (us.flatMap Update.ops ++ ((group u).ops ++ rest)))
    (hu : (group u).OfGroup groupId chatId) :
    ∃ p', p.group needed size isHidden isEmptyGroup u = some p' ∧
      Between needed groupId chatId p' (us ++ [.group u]) := by
  obtain ⟨p1, added, p2, isSilent, p3, removed, hadd, hsilence, hremove, hscanned⟩ := h.1.scan hwell
  unfold Pass.group
  rw [hadd]
  dsimp only
  rw [hsilence]
  rw [hremove]
  dsimp only
  split
  · rename_i hempty
    obtain ⟨p', hpush, h'⟩ := hscanned.pushEmpty h.2 hu hempty
    exact ⟨p', hpush, .of_concat h'⟩
  · exact ⟨_, rfl, .of_concat (hscanned.pushGroup h.2 hu)⟩

/-- An edit that is dropped or merged. -/
theorem Between.drop (h : Between needed groupId chatId p us)
    (hinv : Inv needed p' [] [] (us.flatMap Update.ops ++ [.edit n])) (hsteady : p.Steady p')
    (hmoved : p'.movedDeleted = p.movedDeleted) (hchanged : p'.isChanged = true) :
    Between needed groupId chatId { p' with updates := p'.updates ++ [none] }
      (us ++ [.edit g n]) := by
  have hshapes : (p'.updates ++ [none]).map shape = p'.shapes ++ [none] := map_append
  refine .of_concat ⟨hinv.push ?_ hshapes nofun ⟨rfl, rfl, rfl, rfl⟩ id,
    h.2.push (t := none) ?_ ?_ nofun (fun _ => nofun) trivial ?_⟩
  · show (p'.updates ++ [none]).flatMap optOps = _
    rw [flatMap_append]
    rfl
  · exact hshapes.trans (by rw [hsteady.shapes])
  · exact hsteady.firstGroup.trans (if_neg fun hand => Bool.false_ne_true hand.1).symm
  have hextra : ∀ id : ι, Frame.extra p none = Frame.extra p (some (.edit id)) := fun _ => rfl
  have hone : changed { p' with updates := p'.updates ++ [none] } = 1 := if_pos hchanged
  rw [hone, hextra n.id]
  rw [hmoved]
  show 0 + _ + _ + 1 ≤ 1 + Frame.extra p (some (.edit n.id)) + _ + _
  omega

/-- The first edit of a notification that stays. -/
theorem Inv.edit_first (h : Inv needed p [] [] ops) (hneeded : needed n.id = true)
    (hnone : p.firstAdd n.id = none ∧ p.firstEdit n.id = none) :
    Inv needed { p with
      updates := p.updates ++ [some (.edit g n)]
      firstEdit := Function.update p.firstEdit n.id (some p.curPos) } [] [] (ops ++ [.edit n]) := by
  have hwrite : ¬(opsAt n.id ops).any Op.isWrite = true := by
    rw [← h.held n.id hneeded, hnone.1, hnone.2]
    exact fun h => h.elim nofun nofun
  have hleft : leftWith { p with
      updates := p.updates ++ [some (.edit g n)]
      firstEdit := Function.update p.firstEdit n.id (some p.curPos) } [] []
      = leftWith p [] [] ++ [.edit n] := by
    show (p.updates ++ [some (edit g n)]).flatMap optOps ++ [] = p.left ++ [] ++ _
    rw [flatMap_append, append_nil, append_nil]
    rfl
  have hshapes : (p.updates ++ [some (edit g n)]).map shape = p.shapes ++ [some (.edit n.id)] :=
    map_append
  refine h.of_stays (.edit n) hneeded ?_ ?_ ⟨rfl, rfl, rfl⟩ ?_ ?_ ?_ ?_
  · rw [hleft, opsAt_concat_self _ _ rfl]
    refine (congrArg (· ++ [Op.edit n]) (h.stays _ hneeded)).trans ?_
    exact (if_neg (by rw [any_isWrite_collapse]; exact hwrite)).symm
  · intro id hne
    rw [hleft, opsAt_concat_ne _ _ hne]
  · intro id pos hpos
    dsimp only at hpos
    rw [Function.update_apply] at hpos
    show EditAt ((p.updates ++ [some (edit g n)]).map shape) pos id
    rw [hshapes]
    split at hpos
    · rename_i heq
      cases hpos
      have hcur : p.curPos = p.shapes.length + 1 := by
        rw [curPos, shapes, length_map]
      refine ⟨by rw [hcur, length_append]; exact le_rfl, ?_⟩
      rw [hcur, Nat.add_sub_cancel, getElem?_concat_length, heq]
    · exact (h.firstEdit id pos hpos).append _
  · intro id pos hpos
    rcases h.firstAdd id pos hpos with hat | hcur
    · show AddAt ((p.updates ++ [some (edit g n)]).map shape) pos id ∨ _
      rw [hshapes]
      exact .inl (hat.append _)
    · cases hcur.2
  · refine iff_of_true (.inr ?_) ?_
    · show (Function.update p.firstEdit n.id (some p.curPos) n.id).isSome = true
      rw [Function.update_self]
      rfl
    · rw [any_append]
      exact Bool.or_true _
  · intro id hne
    exact ⟨rfl, Function.update_of_ne (Ne.symm hne) _ _⟩

theorem Between.edit (h : Between needed groupId chatId p us) :
    ∃ p', p.edit needed g n = some p' ∧ Between needed groupId chatId p' (us ++ [.edit g n]) := by
  unfold Pass.edit
  by_cases hneeded : needed n.id = true
  · rw [if_neg (by rw [hneeded]; exact Bool.false_ne_true.symm)]
    have hone := h.1.writesAt_le hneeded
    have hmerge : (p.firstAdd n.id).isSome ∨ (p.firstEdit n.id).isSome →
        Between needed groupId chatId
          { p.retype n with updates := (p.retype n).updates ++ [none] } (us ++ [.edit g n]) := by
      intro hheld
      have hwrite := (h.1.held n.id hneeded).mp hheld
      exact h.drop (h.1.retype (.inr rfl) hneeded hwrite nofun) ⟨shapes_retype p n, rfl⟩ rfl rfl
    cases hedit : p.firstEdit n.id with
    | some pos =>
      dsimp only
      rw [moveToEdit_eq (h.1.firstEdit _ _ hedit) hone]
      exact ⟨_, rfl, hmerge (.inr (by rw [hedit]; rfl))⟩
    | none =>
      cases hadd : p.firstAdd n.id with
      | some pos =>
        have hat := (h.1.firstAdd _ _ hadd).resolve_right fun hcur => nomatch hcur.2
        dsimp only
        rw [moveToAdd_eq hat hone]
        exact ⟨_, rfl, hmerge (.inl (by rw [hadd]; rfl))⟩
      | none =>
        refine ⟨_, rfl, .of_concat ⟨h.1.edit_first hneeded ⟨hadd, hedit⟩, h.2.push map_append
          (if_neg fun hand => Bool.false_ne_true hand.1).symm nofun (fun _ => nofun) trivial
          le_rfl⟩⟩
  · rw [Bool.not_eq_true] at hneeded
    rw [if_pos hneeded]
    refine ⟨_, rfl, h.drop (h.1.write_goes (.edit n) hneeded rfl fun id => ?_) ⟨rfl, rfl⟩ rfl rfl⟩
    exact (or_iff_left fun hadd => Bool.false_ne_true hadd.2).symm

/-- **A pass never fails.** -/
theorem Between.updateAll (size : Nat) (isHidden isEmptyGroup : Bool) {later : List (Update ι C T)}
    (h : Between needed groupId chatId p us)
    (hwell : c.WellFormed ((us ++ later).flatMap Update.ops))
    (hlater : ∀ u ∈ later, u.OfGroup groupId chatId) :
    ∃ p', p.updateAll needed size isHidden isEmptyGroup later = some p' ∧
      Between needed groupId chatId p' (us ++ later) := by
  induction later generalizing p us with
  | nil =>
    rw [append_nil]
    exact ⟨p, rfl, h⟩
  | cons v later ih =>
    have hassoc : us ++ v :: later = us ++ [v] ++ later := append_cons us v later
    have hstep : ∃ p', p.updateAll needed size isHidden isEmptyGroup (v :: later)
        = p'.updateAll needed size isHidden isEmptyGroup later ∧
        Between needed groupId chatId p' (us ++ [v]) := by
      cases v with
      | edit g n =>
        obtain ⟨p', hedit, h'⟩ := h.edit (g := g) (n := n)
        exact ⟨p', by rw [updateAll, hedit], h'⟩
      | group u =>
        rw [flatMap_append] at hwell
        obtain ⟨p', hgroup, h'⟩ := h.group hwell (hlater _ mem_cons_self)
        exact ⟨p', by rw [updateAll, hgroup], h'⟩
    obtain ⟨p', hstep, h'⟩ := hstep
    rw [hassoc] at hwell
    obtain ⟨p'', hall, h''⟩ := ih h' hwell (forall_mem_cons.1 hlater).2
    exact ⟨p'', hstep.trans hall, by rw [hassoc]; exact h''⟩

end Tdlib.Notifications
