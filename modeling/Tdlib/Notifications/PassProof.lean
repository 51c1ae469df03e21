import Tdlib.Notifications.LastStateProof

/-!
# One pass

While a pass goes over the updates, the operations that are left of those it has seen are known for
every notification: the collapsed ones if it stays, and the leading deletions if it goes. The maps
of positions lead to the one addition or edit that is left, so that it is found when another one has
to be merged into it.
-/

namespace Tdlib.Notifications

open List
open Bool (false_ne_true)

variable {ι C T : Type}

/-! ## Updates without their contents -/

/-- What merging does not change. -/
inductive Shape (ι : Type) where
  | group (groupId chatId : Int) (added removed : List ι) (isSilent : Bool)
  | edit (id : ι)

def shape : Option (Update ι C T) → Option (Shape ι)
  | some (.group u) => some (.group u.notificationGroupId u.chatId
      (u.addedNotifications.map (·.id)) u.removedNotificationIds u.isSilent)
  | some (.edit _ n) => some (.edit n.id)
  | none => none

/-- At the position there is an edit of the notification. -/
def EditAt (shapes : List (Option (Shape ι))) (pos : Nat) (id : ι) : Prop :=
  pos ≤ shapes.length ∧ shapes[pos - 1]? = some (some (.edit id))

/-- At the position there is a group update that adds the notification. -/
def AddAt (shapes : List (Option (Shape ι))) (pos : Nat) (id : ι) : Prop :=
  pos ≤ shapes.length ∧ ∃ groupId chatId added removed isSilent,
    shapes[pos - 1]? = some (some (.group groupId chatId added removed isSilent)) ∧ id ∈ added

theorem EditAt.append {shapes : List (Option (Shape ι))} {pos : Nat} {id : ι}
    (h : EditAt shapes pos id) (more : List (Option (Shape ι))) :
    EditAt (shapes ++ more) pos id := by
  obtain ⟨hpos, hget⟩ := h
  refine ⟨by rw [length_append]; omega, ?_⟩
  rw [getElem?_append_left (List.getElem?_eq_some_iff.mp hget).1, hget]

theorem AddAt.append {shapes : List (Option (Shape ι))} {pos : Nat} {id : ι}
    (h : AddAt shapes pos id) (more : List (Option (Shape ι))) : AddAt (shapes ++ more) pos id := by
  obtain ⟨hpos, groupId, chatId, added, removed, isSilent, hget, hid⟩ := h
  refine ⟨by rw [length_append]; omega, groupId, chatId, added, removed, isSilent, ?_, hid⟩
  rw [getElem?_append_left (List.getElem?_eq_some_iff.mp hget).1, hget]

/-- The operations of an update that may have been removed. -/
def optOps : Option (Update ι C T) → List (Op ι C)
  | some u => u.ops
  | none => []

variable [LinearOrder ι]

/-- A notification with the identifier gets the type. -/
def retypeNotification (id : ι) (type : C) (n : Notification ι C) : Notification ι C :=
  if n.id = id then { n with type } else n

def Update.retype (id : ι) (type : C) : Update ι C T → Update ι C T
  | .group u => .group { u with
      addedNotifications := u.addedNotifications.map (retypeNotification id type) }
  | .edit g n => .edit g (retypeNotification id type n)

def retypeOpt (id : ι) (type : C) (o : Option (Update ι C T)) : Option (Update ι C T) :=
  o.map (Update.retype id type)

def retypeOp (id : ι) (type : C) (op : Op ι C) : Op ι C :=
  if op.id = id then op.retype type else op

variable {id : ι} {type : C} {n : Notification ι C} {o : Option (Update ι C T)}
  {ops ops' : List (Op ι C)}

theorem retypeNotification_self (h : n.id = id) : retypeNotification id type n = { n with type } :=
  if_pos h

theorem retypeNotification_ne (h : n.id ≠ id) : retypeNotification id type n = n := if_neg h

theorem id_retypeNotification (id : ι) (type : C) (n : Notification ι C) :
    (retypeNotification id type n).id = n.id := by
  unfold retypeNotification
  split <;> rfl

theorem retypeOp_add (id : ι) (type : C) (n : Notification ι C) :
    retypeOp id type (.add n) = .add (retypeNotification id type n) := by
  by_cases h : n.id = id
  · rw [retypeNotification_self h]
    exact if_pos h
  · rw [retypeNotification_ne h]
    exact if_neg h

theorem retypeOp_edit (id : ι) (type : C) (n : Notification ι C) :
    retypeOp id type (.edit n) = .edit (retypeNotification id type n) := by
  by_cases h : n.id = id
  · rw [retypeNotification_self h]
    exact if_pos h
  · rw [retypeNotification_ne h]
    exact if_neg h

theorem retypeOp_remove (id : ι) (type : C) (id' : ι) :
    retypeOp id type (.remove id') = .remove id' := by
  unfold retypeOp
  split <;> rfl

theorem shape_retypeOpt (id : ι) (type : C) (o : Option (Update ι C T)) :
    shape (retypeOpt id type o) = shape o := by
  match o with
  | none => rfl
  | some (.edit g n) =>
    exact congrArg (fun i => some (Shape.edit i)) (id_retypeNotification id type n)
  | some (.group u) =>
    have hids : (u.addedNotifications.map (retypeNotification id type)).map (·.id)
        = u.addedNotifications.map (·.id) := by
      rw [map_map]
      exact map_congr_left fun n _ => id_retypeNotification id type n
    exact congrArg (fun ids => some (Shape.group u.notificationGroupId u.chatId ids
      u.removedNotificationIds u.isSilent)) hids

theorem optOps_retypeOpt (id : ι) (type : C) (o : Option (Update ι C T)) :
    optOps (retypeOpt id type o) = (optOps o).map (retypeOp id type) := by
  match o with
  | none => rfl
  | some (.edit g n) => exact congrArg (fun op => [op]) (retypeOp_edit id type n).symm
  | some (.group u) =>
    show _ ++ _ = (_ ++ _ : List (Op ι C)).map _
    rw [map_append, map_map, map_map, map_map]
    congr 1
    · exact map_congr_left fun n _ => (retypeOp_add id type n).symm
    · exact map_congr_left fun i _ => (retypeOp_remove id type i).symm

theorem opsAt_map_retypeOp_self (ops : List (Op ι C)) :
    opsAt id (ops.map (retypeOp id type)) = (opsAt id ops).map (Op.retype type) := by
  induction ops with
  | nil => rfl
  | cons op ops ih =>
    rw [map_cons]
    by_cases h : op.id = id
    · have hop : retypeOp id type op = op.retype type := if_pos h
      rw [hop, opsAt_cons_self ((Op.id_retype type op).trans h), opsAt_cons_self h, ih, map_cons]
    · have hop : retypeOp id type op = op := if_neg h
      rw [hop, opsAt_cons_ne h, opsAt_cons_ne h, ih]

theorem opsAt_map_retypeOp_ne {id' : ι} (hne : id ≠ id') (ops : List (Op ι C)) :
    opsAt id' (ops.map (retypeOp id type)) = opsAt id' ops := by
  induction ops with
  | nil => rfl
  | cons op ops ih =>
    rw [map_cons]
    by_cases h : op.id = id
    · have hop : retypeOp id type op = op.retype type := if_pos h
      have hop' : (op.retype type).id ≠ id' := by
        rw [Op.id_retype, h]
        exact hne
      rw [hop, opsAt_cons_ne hop', opsAt_cons_ne (h ▸ hne), ih]
    · have hop : retypeOp id type op = op := if_neg h
      rw [hop]
      by_cases h' : op.id = id'
      · rw [opsAt_cons_self h', opsAt_cons_self h', ih]
      · rw [opsAt_cons_ne h', opsAt_cons_ne h', ih]

/-! ## Finding what is left -/

/-- The number of additions and edits of a notification. -/
def writesAt (id : ι) (ops : List (Op ι C)) : Nat := (opsAt id ops).countP Op.isWrite

theorem writesAt_append : writesAt id (ops ++ ops') = writesAt id ops + writesAt id ops' := by
  unfold writesAt
  rw [opsAt_append, countP_append]

theorem writesAt_single (op : Op ι C) (hid : op.id = id) (hwrite : op.isWrite) :
    writesAt id [op] = 1 := by
  unfold writesAt
  rw [opsAt_cons_self hid, opsAt_nil, countP_cons_of_pos hwrite, countP_nil]

theorem writesAt_eq_zero : writesAt id ops = 0 ↔ ∀ op ∈ ops, op.id = id → op.isWrite = false := by
  unfold writesAt
  rw [countP_eq_zero]
  constructor
  · intro h op hop hid
    simpa using h op (mem_opsAt.mpr ⟨hop, hid⟩)
  · intro h op hop
    obtain ⟨hop, hid⟩ := mem_opsAt.mp hop
    simp [h op hop hid]

/-- Without additions and edits of it, nothing gets the type. -/
theorem retypeOpt_eq_self (h : writesAt id (optOps o) = 0) : retypeOpt id type o = o := by
  rw [writesAt_eq_zero] at h
  match o with
  | none => rfl
  | some (.edit g n) =>
    have hne : n.id ≠ id := fun heq =>
      absurd (h (.edit n) (mem_singleton_self _) heq) false_ne_true.symm
    exact congrArg (fun n => some (Update.edit g n)) (retypeNotification_ne hne)
  | some (.group u) =>
    have hne : ∀ n ∈ u.addedNotifications, n.id ≠ id := fun n hn heq =>
      absurd (h (.add n) (mem_append_left _ (mem_map_of_mem hn)) heq)
        false_ne_true.symm
    have hmap : u.addedNotifications.map (retypeNotification id type) = u.addedNotifications := by
      conv_rhs => rw [← map_id u.addedNotifications]
      exact map_congr_left fun n hn => retypeNotification_ne (hne n hn)
    show some (Update.group { u with addedNotifications := _ }) = _
    rw [hmap]

/-- Where there is one addition or edit, changing the type there is changing it everywhere. -/
theorem set_eq_map {us : List (Option (Update ι C T))} {i : Nat} (hget : us[i]? = some o)
    (hwrite : 0 < writesAt id (optOps o)) (hone : writesAt id (us.flatMap optOps) ≤ 1) :
    us.set i (retypeOpt id type o) = us.map (retypeOpt id type) := by
  induction us generalizing i with
  | nil => cases hget
  | cons first us ih =>
    rw [flatMap_cons, writesAt_append] at hone
    cases i with
    | zero =>
      cases hget
      rw [set_cons_zero]
      congr 1
      symm
      conv_rhs => rw [← map_id us]
      refine map_congr_left fun o' ho' => retypeOpt_eq_self ?_
      have hrest : writesAt id (us.flatMap optOps) = 0 := by omega
      rw [writesAt_eq_zero] at hrest ⊢
      exact fun op hop => hrest op (mem_flatMap.mpr ⟨o', ho', hop⟩)
    | succ i =>
      have hget' : us[i]? = some o := hget
      have hin : writesAt id (optOps o) ≤ writesAt id (us.flatMap optOps) := by
        obtain ⟨before, after, hsplit⟩ := append_of_mem (mem_of_getElem? hget')
        rw [hsplit, flatMap_append, flatMap_cons, writesAt_append, writesAt_append]
        omega
      rw [set_cons_succ, map_cons, ih hget' (by omega), retypeOpt_eq_self (by omega)]

theorem replaceType_eq {ns : List (Notification ι C)} (h : id ∈ ns.map (·.id))
    (hone : writesAt id (ns.map .add) ≤ 1) :
    replaceType id type ns = some (ns.map (retypeNotification id type)) := by
  induction ns with
  | nil => cases h
  | cons n ns ih =>
    have hcons : writesAt id ([.add n] ++ ns.map .add)
        = writesAt id [.add n] + writesAt id (ns.map .add) := writesAt_append
    rw [map_cons, ← singleton_append] at hone
    rw [replaceType, map_cons]
    by_cases hid : n.id = id
    · have hself := writesAt_single (.add n) hid rfl
      have hrest : writesAt id (ns.map .add) = 0 := by omega
      have hmap : ns.map (retypeNotification id type) = ns := by
        conv_rhs => rw [← map_id ns]
        refine map_congr_left fun m hm => retypeNotification_ne fun heq => ?_
        exact absurd (writesAt_eq_zero.mp hrest (.add m) (mem_map_of_mem hm) heq)
          false_ne_true.symm
      rw [if_pos hid, hmap, retypeNotification_self hid]
    · have hrest : id ∈ ns.map (·.id) := by
        rcases mem_cons.mp h with heq | hrest
        · exact absurd heq.symm hid
        · exact hrest
      rw [if_neg hid, ih hrest (by omega), retypeNotification_ne hid]

namespace Pass

variable {p : Pass ι C T} {pos : Nat}

/-- The operations that are left. -/
def left (p : Pass ι C T) : List (Op ι C) := p.updates.flatMap optOps

def shapes (p : Pass ι C T) : List (Option (Shape ι)) := p.updates.map shape

/-- The notification gets the type wherever it is. -/
def retype (p : Pass ι C T) (n : Notification ι C) : Pass ι C T :=
  { p with updates := p.updates.map (retypeOpt n.id n.type), isChanged := true }

theorem moveToEdit_eq (h : EditAt p.shapes pos n.id) (hone : writesAt n.id p.left ≤ 1) :
    p.moveToEdit pos n = some (p.retype n) := by
  obtain ⟨hpos, hget⟩ := h
  rw [shapes, length_map] at hpos
  rw [shapes, getElem?_map, Option.map_eq_some_iff] at hget
  obtain ⟨o, hget, hshape⟩ := hget
  unfold moveToEdit
  rw [if_neg (by unfold curPos; omega), hget]
  match o, hshape with
  | some (.edit g m), hshape =>
    have hm : m.id = n.id := Shape.edit.inj (Option.some.inj hshape)
    have hwrite : 0 < writesAt n.id (optOps (some (.edit g m : Update ι C T))) := by
      show 0 < writesAt n.id [Op.edit m]
      rw [writesAt_single (.edit m) hm rfl]
      exact one_pos
    have hset : retypeOpt n.id n.type (some (.edit g m : Update ι C T))
        = some (.edit g { m with type := n.type }) :=
      congrArg (fun m => some (Update.edit g m)) (retypeNotification_self hm)
    dsimp only
    rw [if_pos hm, ← hset, set_eq_map hget hwrite hone]
    rfl

theorem moveToAdd_eq (h : AddAt p.shapes pos n.id) (hone : writesAt n.id p.left ≤ 1) :
    p.moveToAdd pos n = some (p.retype n) := by
  obtain ⟨hpos, groupId, chatId, added, removed, isSilent, hget, hid⟩ := h
  rw [shapes, length_map] at hpos
  rw [shapes, getElem?_map, Option.map_eq_some_iff] at hget
  obtain ⟨o, hget, hshape⟩ := hget
  unfold moveToAdd
  rw [if_neg (by unfold curPos; omega), hget]
  match o, hshape with
  | some (.group u), hshape =>
    obtain ⟨-, -, rfl, -, -⟩ := Shape.group.inj (Option.some.inj hshape)
    have hin : writesAt n.id (u.addedNotifications.map .add)
        ≤ writesAt n.id (optOps (some (.group u))) := by
      show _ ≤ writesAt n.id (_ ++ _)
      rw [writesAt_append]
      exact Nat.le_add_right _ _
    have hall : writesAt n.id (optOps (some (.group u))) ≤ writesAt n.id p.left := by
      obtain ⟨before, after, hsplit⟩ := append_of_mem (mem_of_getElem? hget)
      rw [left, hsplit, flatMap_append, flatMap_cons, writesAt_append, writesAt_append]
      omega
    have hwrite : 0 < writesAt n.id (u.addedNotifications.map .add) := by
      obtain ⟨m, hm, hmid⟩ := mem_map.mp hid
      rw [Nat.pos_iff_ne_zero, ne_eq, writesAt_eq_zero]
      intro hzero
      exact absurd (hzero (.add m) (mem_map_of_mem hm) hmid) false_ne_true.symm
    dsimp only
    rw [replaceType_eq hid (by omega)]
    have hset : p.updates.set (pos - 1) (retypeOpt n.id n.type (some (.group u)))
        = p.updates.map (retypeOpt n.id n.type) := set_eq_map hget (by omega) hone
    exact congrArg (fun updates => some { p with updates, isChanged := true }) hset

/-- One if something was changed. -/
def changed (p : Pass ι C T) : Nat := if p.isChanged then 1 else 0

/-- The updates before the current one have kept their shapes. -/
structure Steady (p p' : Pass ι C T) : Prop where
  shapes : p'.shapes = p.shapes
  firstGroup : p'.firstGroup = p.firstGroup

omit [LinearOrder ι] in
theorem Steady.refl (p : Pass ι C T) : Steady p p := ⟨rfl, rfl⟩

omit [LinearOrder ι] in
theorem Steady.trans {p' p'' : Pass ι C T} (h : Steady p p') (h' : Steady p' p'') : Steady p p'' :=
  ⟨h'.shapes.trans h.shapes, h'.firstGroup.trans h.firstGroup⟩

theorem left_retype (p : Pass ι C T) (n : Notification ι C) :
    (p.retype n).left = p.left.map (retypeOp n.id n.type) := by
  show (p.updates.map _).flatMap optOps = (p.updates.flatMap optOps).map _
  rw [flatMap_map, map_flatMap]
  refine flatMap_congr fun o _ => ?_
  exact optOps_retypeOpt _ _ o

theorem shapes_retype (p : Pass ι C T) (n : Notification ι C) : (p.retype n).shapes = p.shapes := by
  show (p.updates.map _).map shape = p.updates.map shape
  rw [map_map]
  exact map_congr_left fun o _ => shape_retypeOpt _ _ o

end Pass

/-! ## The invariant -/

/-- What is left of the updates before the current one, and of the additions and deletions of the
current one. -/
def leftWith (p : Pass ι C T) (added : List (Notification ι C)) (removed : List ι) :
    List (Op ι C) := p.left ++ (added.map .add ++ removed.map .remove)

theorem opsAt_leftWith (p : Pass ι C T) (added : List (Notification ι C)) (removed : List ι) :
    opsAt id (leftWith p added removed)
      = opsAt id p.left ++ opsAt id (added.map .add ++ removed.map .remove) := opsAt_append

/-- The pass has seen the operations `ops`; of the current update `added` and `removed` are kept. -/
structure Inv (needed : ι → Bool) (p : Pass ι C T) (added : List (Notification ι C))
    (removed : List ι) (ops : List (Op ι C)) : Prop where
  /-- What stays is collapsed. -/
  stays : ∀ id, needed id = true → opsAt id (leftWith p added removed) = collapse (opsAt id ops)
  /-- Of what goes, the first deletions are left, some of them moved to the first group. -/
  goes : ∀ id, needed id = false → opsAt id (leftWith p added removed)
    ++ (p.movedDeleted.filter (· = id)).map .remove = leading (opsAt id ops)
  canBeDeleted : ∀ id, id ∈ p.canBeDeleted ↔
    needed id = false ∧ (opsAt id ops).any Op.isAdd = true
  firstEdit : ∀ id pos, p.firstEdit id = some pos → EditAt p.shapes pos id
  firstAdd : ∀ id pos, p.firstAdd id = some pos →
    AddAt p.shapes pos id ∨ pos = p.curPos ∧ id ∈ added.map (·.id)
  /-- A write has been put somewhere. -/
  held : ∀ id, needed id = true →
    (((p.firstAdd id).isSome ∨ (p.firstEdit id).isSome) ↔ (opsAt id ops).any Op.isWrite = true)
  moved : p.firstGroup = 0 → p.movedDeleted = []
  movedGoes : ∀ id ∈ p.movedDeleted, needed id = false

variable {needed : ι → Bool} {p : Pass ι C T} {added : List (Notification ι C)} {removed : List ι}

namespace Inv

theorem initial (needed : ι → Bool) : Inv needed (Pass.initial : Pass ι C T) [] [] [] where
  stays _ _ := rfl
  goes _ _ := rfl
  canBeDeleted id := iff_of_false (Finset.notMem_empty id) fun h => false_ne_true h.2
  firstEdit := nofun
  firstAdd := nofun
  held _ _ := iff_of_false nofun false_ne_true
  moved _ := rfl
  movedGoes := nofun

/-- There is at most one addition or edit left. -/
theorem writesAt_le (h : Inv needed p added removed ops) (hneeded : needed id = true) :
    writesAt id p.left ≤ 1 := by
  have hall : writesAt id (leftWith p added removed) ≤ 1 := by
    unfold writesAt
    rw [h.stays id hneeded]
    exact countP_collapse_le _
  rw [leftWith, writesAt_append] at hall
  omega

omit [LinearOrder ι] in
theorem ne_of_needed {id' : ι} (h : needed id = true) (h' : needed id' = false) : id' ≠ id := by
  rintro rfl
  exact false_ne_true (h'.symm.trans h)

/-- An addition or edit of a notification that goes. -/
theorem write_goes {canBeDeleted : Finset ι} (op : Op ι C) (h : Inv needed p added removed ops)
    (hneeded : needed op.id = false) (hwrite : op.isWrite)
    (hdeleted : ∀ id, id ∈ canBeDeleted ↔ id ∈ p.canBeDeleted ∨ id = op.id ∧ op.isAdd = true) :
    Inv needed { p with canBeDeleted, isChanged := true } added removed (ops ++ [op]) where
  stays id hid := by
    rw [opsAt_concat_ne _ _ (ne_of_needed hid hneeded)]
    exact h.stays id hid
  goes id hid := by
    by_cases heq : op.id = id
    · rw [opsAt_concat_self _ _ heq, leading_concat_write _ hwrite]
      exact h.goes id hid
    · rw [opsAt_concat_ne _ _ heq]
      exact h.goes id hid
  canBeDeleted id := by
    rw [hdeleted, h.canBeDeleted]
    by_cases heq : op.id = id
    · rw [opsAt_concat_self _ _ heq, ← heq]
      simp [hneeded]
    · rw [opsAt_concat_ne _ _ heq]
      exact or_iff_left fun hadd => heq hadd.1.symm
  firstEdit := h.firstEdit
  firstAdd := h.firstAdd
  held id hid := by
    rw [opsAt_concat_ne _ _ (ne_of_needed hid hneeded)]
    exact h.held id hid
  moved := h.moved
  movedGoes := h.movedGoes

/-- Something is said of a notification that stays. -/
theorem of_stays {p' : Pass ι C T} {added' : List (Notification ι C)} {removed' : List ι}
    (op : Op ι C) (h : Inv needed p added removed ops) (hneeded : needed op.id = true)
    (hself : opsAt op.id (leftWith p' added' removed') = absorb (collapse (opsAt op.id ops)) op)
    (hother : ∀ id, op.id ≠ id →
      opsAt id (leftWith p' added' removed') = opsAt id (leftWith p added removed))
    (hsame : p'.movedDeleted = p.movedDeleted ∧ p'.canBeDeleted = p.canBeDeleted ∧
      p'.firstGroup = p.firstGroup)
    (hEdit : ∀ id pos, p'.firstEdit id = some pos → EditAt p'.shapes pos id)
    (hAdd : ∀ id pos, p'.firstAdd id = some pos →
      AddAt p'.shapes pos id ∨ pos = p'.curPos ∧ id ∈ added'.map (·.id))
    (hheld : ((p'.firstAdd op.id).isSome ∨ (p'.firstEdit op.id).isSome) ↔
      (opsAt op.id ops ++ [op]).any Op.isWrite = true)
    (hheld' : ∀ id, op.id ≠ id → p'.firstAdd id = p.firstAdd id ∧
      p'.firstEdit id = p.firstEdit id) :
    Inv needed p' added' removed' (ops ++ [op]) where
  stays id hid := by
    by_cases heq : op.id = id
    · rw [← heq, opsAt_concat_self _ _ rfl, collapse_concat]
      exact hself
    · rw [opsAt_concat_ne _ _ heq, hother id heq]
      exact h.stays id hid
  goes id hid := by
    have hne := (ne_of_needed hneeded hid).symm
    rw [opsAt_concat_ne _ _ hne, hother id hne, hsame.1]
    exact h.goes id hid
  canBeDeleted id := by
    rw [hsame.2.1, h.canBeDeleted]
    refine and_congr_right fun hid => ?_
    rw [opsAt_concat_ne _ _ (ne_of_needed hneeded hid).symm]
  firstEdit := hEdit
  firstAdd := hAdd
  held id hid := by
    by_cases heq : op.id = id
    · rw [← heq, opsAt_concat_self _ _ rfl]
      exact hheld
    · rw [opsAt_concat_ne _ _ heq, (hheld' id heq).1, (hheld' id heq).2]
      exact h.held id hid
  moved hzero := by
    rw [hsame.1]
    exact h.moved (hsame.2.2 ▸ hzero)
  movedGoes id hid := h.movedGoes id (hsame.1 ▸ hid)

/-- **An addition or edit is merged** into the one that is left. -/
theorem retype {op : Op ι C} (h : Inv needed p added removed ops) (hop : op.Writes n)
    (hneeded : needed n.id = true) (hwrite : (opsAt n.id ops).any Op.isWrite = true)
    (hbefore : n.id ∉ added.map (·.id)) :
    Inv needed (p.retype n) added removed (ops ++ [op]) := by
  have hid : op.id = n.id := by rcases hop with rfl | rfl <;> rfl
  have hcur : (p.retype n).curPos = p.curPos := by
    unfold Pass.curPos Pass.retype
    rw [length_map]
  -- Of the current update there are only deletions.
  have htail : (opsAt n.id (added.map .add ++ removed.map .remove)).map (Op.retype n.type)
      = opsAt n.id (added.map Op.add ++ removed.map .remove) := by
    conv_rhs => rw [← map_id (opsAt n.id _)]
    refine map_congr_left fun o ho => ?_
    obtain ⟨ho, hoid⟩ := mem_opsAt.mp ho
    rcases mem_append.mp ho with ho | ho
    · obtain ⟨m, hm, rfl⟩ := mem_map.mp ho
      exact absurd (mem_map.mpr ⟨m, hm, hoid⟩) hbefore
    · obtain ⟨i, -, rfl⟩ := mem_map.mp ho
      rfl
  refine h.of_stays op (hid ▸ hneeded) ?_ ?_ ⟨rfl, rfl, rfl⟩ ?_ ?_ ?_ fun _ _ => ⟨rfl, rfl⟩
  · have habsorb : ∀ l : List (Op ι C), l.any Op.isWrite = true →
        absorb l op = l.map (Op.retype n.type) := by
      intro l hl
      rcases hop with rfl | rfl
      · exact if_pos hl
      · exact if_pos hl
    rw [hid, habsorb _ (by rw [any_isWrite_collapse]; exact hwrite), ← h.stays n.id hneeded,
      opsAt_leftWith, Pass.left_retype, opsAt_map_retypeOp_self, opsAt_leftWith, map_append,
      htail]
  · intro id hne
    rw [opsAt_leftWith, Pass.left_retype, opsAt_map_retypeOp_ne (hid ▸ hne), opsAt_leftWith]
  · intro id pos hpos
    rw [Pass.shapes_retype]
    exact h.firstEdit id pos hpos
  · intro id pos hpos
    rw [Pass.shapes_retype, hcur]
    exact h.firstAdd id pos hpos
  · rw [hid, any_append, hwrite]
    exact iff_of_true ((h.held n.id hneeded).mpr hwrite) (Bool.true_or _)

/-- The first addition of a notification that stays. -/
theorem add_first (h : Inv needed p added [] ops) (hneeded : needed n.id = true)
    (hnone : p.firstAdd n.id = none ∧ p.firstEdit n.id = none) :
    Inv needed { p with firstAdd := Function.update p.firstAdd n.id (some p.curPos) }
      (added ++ [n]) [] (ops ++ [.add n]) := by
  have hwrite : ¬(opsAt n.id ops).any Op.isWrite = true := by
    rw [← h.held n.id hneeded, hnone.1, hnone.2]
    exact fun h => h.elim false_ne_true false_ne_true
  have hleft : leftWith { p with firstAdd := Function.update p.firstAdd n.id (some p.curPos) }
      (added ++ [n]) [] = leftWith p added [] ++ [.add n] := by
    show p.left ++ _ = p.left ++ _ ++ _
    rw [map_append, map_nil, append_nil, append_nil, append_assoc]
    rfl
  refine h.of_stays (.add n) hneeded ?_ ?_ ⟨rfl, rfl, rfl⟩ h.firstEdit ?_ ?_ ?_
  · rw [hleft, opsAt_concat_self _ _ rfl]
    refine (congrArg (· ++ [Op.add n]) (h.stays _ hneeded)).trans ?_
    exact (if_neg (by rw [any_isWrite_collapse]; exact hwrite)).symm
  · intro id hne
    rw [hleft, opsAt_concat_ne _ _ hne]
  · intro id pos hpos
    dsimp only at hpos
    rw [Function.update_apply] at hpos
    rw [map_append]
    split at hpos
    · rename_i heq
      cases hpos
      exact .inr ⟨rfl, mem_append_right _ (mem_singleton.mpr heq)⟩
    · exact (h.firstAdd id pos hpos).imp_right fun hcur => ⟨hcur.1, mem_append_left _ hcur.2⟩
  · refine iff_of_true (.inl ?_) ?_
    · show (Function.update p.firstAdd n.id (some p.curPos) n.id).isSome = true
      rw [Function.update_self]
      rfl
    · rw [any_append]
      exact Bool.or_true _
  · intro id hne
    exact ⟨Function.update_of_ne (Ne.symm hne) _ _, rfl⟩

theorem any_isAdd_remove (ops : List (Op ι C)) (id id' : ι) :
    (opsAt id' (ops ++ [.remove id])).any Op.isAdd = (opsAt id' ops).any Op.isAdd := by
  by_cases h : (Op.remove id : Op ι C).id = id'
  · rw [opsAt_concat_self _ _ h, any_append]
    exact Bool.or_false _
  · rw [opsAt_concat_ne _ _ h]

theorem any_isWrite_remove (ops : List (Op ι C)) (id id' : ι) :
    (opsAt id' (ops ++ [.remove id])).any Op.isWrite = (opsAt id' ops).any Op.isWrite := by
  by_cases h : (Op.remove id : Op ι C).id = id'
  · rw [opsAt_concat_self _ _ h, any_append]
    exact Bool.or_false _
  · rw [opsAt_concat_ne _ _ h]

section

variable (h : Inv needed p added removed ops)
include h

/-- A deletion, as far as it does not matter what becomes of it. -/
theorem of_remove {p' : Pass ι C T} {removed' : List ι} (id : ι)
    (hstays : needed id = true →
      opsAt id (leftWith p' added removed') = collapse (opsAt id ops ++ [.remove id]))
    (hgoes : needed id = false → opsAt id (leftWith p' added removed')
      ++ (p'.movedDeleted.filter (· = id)).map .remove = leading (opsAt id ops ++ [.remove id]))
    (hother : ∀ id', id ≠ id' →
      opsAt id' (leftWith p' added removed') = opsAt id' (leftWith p added removed) ∧
      p'.movedDeleted.filter (· = id') = p.movedDeleted.filter (· = id'))
    (hsame : p'.updates = p.updates ∧ p'.firstAdd = p.firstAdd ∧ p'.firstEdit = p.firstEdit ∧
      p'.canBeDeleted = p.canBeDeleted)
    (hmoved : p'.firstGroup = 0 → p'.movedDeleted = [])
    (hmovedGoes : ∀ id ∈ p'.movedDeleted, needed id = false) :
    Inv needed p' added removed' (ops ++ [.remove id]) where
  stays id' hid := by
    by_cases heq : (Op.remove id : Op ι C).id = id'
    · cases heq
      rw [opsAt_concat_self _ _ rfl]
      exact hstays hid
    · rw [opsAt_concat_ne _ _ heq, (hother id' heq).1]
      exact h.stays id' hid
  goes id' hid := by
    by_cases heq : (Op.remove id : Op ι C).id = id'
    · cases heq
      rw [opsAt_concat_self _ _ rfl]
      exact hgoes hid
    · rw [opsAt_concat_ne _ _ heq, (hother id' heq).1, (hother id' heq).2]
      exact h.goes id' hid
  canBeDeleted id' := by
    rw [any_isAdd_remove, hsame.2.2.2]
    exact h.canBeDeleted id'
  firstEdit id' pos hpos := by
    rw [hsame.2.2.1] at hpos
    rw [Pass.shapes, hsame.1]
    exact h.firstEdit id' pos hpos
  firstAdd id' pos hpos := by
    rw [hsame.2.1] at hpos
    rw [Pass.shapes, Pass.curPos, hsame.1]
    exact h.firstAdd id' pos hpos
  held id' hid := by
    rw [any_isWrite_remove, hsame.2.1, hsame.2.2.1]
    exact h.held id' hid
  moved := hmoved
  movedGoes := hmovedGoes

/-- A deletion that may be dropped. -/
theorem remove_drop (id : ι) (hgoes : needed id = false → (opsAt id ops).any Op.isAdd = true)
    (hstays : needed id = true → (opsAt id ops).any Op.isWrite = true) :
    Inv needed { p with isChanged := true } added removed (ops ++ [.remove id]) := by
  refine h.of_remove id (fun hid => ?_) (fun hid => ?_) (fun _ _ => ⟨rfl, rfl⟩)
    ⟨rfl, rfl, rfl, rfl⟩ h.moved h.movedGoes
  · have hany : (collapse (opsAt id ops)).any Op.isWrite = true := by
      rw [any_isWrite_collapse]
      exact hstays hid
    rw [collapse_concat]
    exact (h.stays id hid).trans (if_pos hany).symm
  · rw [leading_concat_remove, if_pos (hgoes hid)]
    exact h.goes id hid

/-- A deletion that is moved. -/
theorem remove_move (hgroup : p.firstGroup ≠ 0) (hneeded : needed id = false)
    (hadd : (opsAt id ops).any Op.isAdd = false) :
    Inv needed { p with movedDeleted := p.movedDeleted ++ [id], isChanged := true } added removed
      (ops ++ [.remove id]) := by
  refine h.of_remove id (fun hid => ?_) (fun hid => ?_) (fun id' hne => ⟨rfl, ?_⟩)
    ⟨rfl, rfl, rfl, rfl⟩ (fun hzero => absurd hzero hgroup) fun id' hid' => ?_
  · exact absurd (hneeded.symm.trans hid) false_ne_true
  · rw [leading_concat_remove, if_neg (by rw [hadd]; exact false_ne_true), ← h.goes id hid,
      filter_append, map_append, append_assoc]
    have hself : [id].filter (fun i => i = id) = [id] := filter_cons_of_pos (by simp)
    rw [hself]
    rfl
  · have hself : [id].filter (fun i => i = id') = [] := filter_cons_of_neg (by simpa using hne)
    rw [filter_append, hself, append_nil]
  · rcases mem_append.mp hid' with hid' | hid'
    · exact h.movedGoes id' hid'
    · rw [mem_singleton.mp hid']
      exact hneeded

/-- A deletion that stays where it is. -/
theorem remove_keep (id : ι) (hstays : needed id = true → (opsAt id ops).any Op.isWrite = false)
    (hgoes : needed id = false → (opsAt id ops).any Op.isAdd = false ∧ p.movedDeleted = []) :
    Inv needed p added (removed ++ [id]) (ops ++ [.remove id]) := by
  have hleft : leftWith p added (removed ++ [id]) = leftWith p added removed ++ [.remove id] := by
    unfold leftWith
    rw [map_append, ← append_assoc, ← append_assoc, ← append_assoc]
    rfl
  refine h.of_remove id (fun hid => ?_) (fun hid => ?_) (fun id' hne => ⟨?_, rfl⟩)
    ⟨rfl, rfl, rfl, rfl⟩ h.moved h.movedGoes
  · have hany : ¬(collapse (opsAt id ops)).any Op.isWrite = true := by
      rw [any_isWrite_collapse, hstays hid]
      exact false_ne_true
    rw [hleft, opsAt_concat_remove, collapse_concat, h.stays id hid]
    exact (if_neg hany).symm
  · obtain ⟨hadd, hmoved⟩ := hgoes hid
    have hleading := h.goes id hid
    rw [hmoved, filter_nil, map_nil, append_nil] at hleading
    rw [leading_concat_remove, if_neg (by rw [hadd]; exact false_ne_true), ← hleading, hleft,
      opsAt_concat_remove, hmoved, filter_nil, map_nil, append_nil]
  · rw [hleft, opsAt_concat_ne _ (.remove id) hne]

end

/-! ## One update -/

variable {c : Client ι C} {rest : List (Op ι C)}

/-- **One addition.** What was kept of the current update is still there. -/
theorem add (h : Inv needed p added [] ops) (hwell : c.WellFormed (ops ++ .add n :: rest))
    (hcurrent : ∀ m ∈ added, endsWrite (opsAt m.id ops) = true) :
    ∃ p' added', p.add needed added n = some (p', added') ∧
      Inv needed p' added' [] (ops ++ [.add n]) ∧
      (∀ m ∈ added', endsWrite (opsAt m.id (ops ++ [.add n])) = true) ∧ p.Steady p' ∧
      p'.movedDeleted = p.movedDeleted ∧
        added'.length + p'.changed ≤ added.length + 1 + p.changed := by
  have hok : runAt (c n.id) (opsAt n.id ops) = none := hwell.ok
  have hwellAt : WellFormedAt (c n.id) (opsAt n.id ops) := by
    have hx := (Client.wellFormed_iff c _).mp hwell n.id
    rw [opsAt_append] at hx
    exact (wellFormedAt_append.mp hx).1
  have hbefore : n.id ∉ added.map (·.id) := by
    intro hin
    obtain ⟨m, hm, hid⟩ := mem_map.mp hin
    have hwrite := hcurrent m hm
    rw [hid] at hwrite
    exact runAt_of_endsWrite hwellAt hwrite hok
  have hcurrent' : ∀ m ∈ added, endsWrite (opsAt m.id (ops ++ [.add n])) = true := by
    intro m hm
    by_cases hid : (Op.add n).id = m.id
    · rw [opsAt_concat_self _ _ hid, endsWrite_concat]
      rfl
    · rw [opsAt_concat_ne _ _ hid]
      exact hcurrent m hm
  have hless : added.length + 1 ≤ added.length + 1 + p.changed := Nat.le_add_right _ _
  unfold Pass.add
  by_cases hneeded : needed n.id = true
  · rw [if_neg (by rw [hneeded]; exact false_ne_true.symm)]
    have hone := h.writesAt_le hneeded
    cases hedit : p.firstEdit n.id with
    | some pos =>
      have hwrite := (h.held n.id hneeded).mp (.inr (by rw [hedit]; rfl))
      dsimp only
      rw [Pass.moveToEdit_eq (h.firstEdit _ _ hedit) hone]
      exact ⟨_, _, rfl, h.retype (.inl rfl) hneeded hwrite hbefore, hcurrent',
        ⟨Pass.shapes_retype p n, rfl⟩, rfl, hless⟩
    | none =>
      cases hadd : p.firstAdd n.id with
      | some pos =>
        have hwrite := (h.held n.id hneeded).mp (.inl (by rw [hadd]; rfl))
        have hat := (h.firstAdd _ _ hadd).resolve_right fun hcur => hbefore hcur.2
        dsimp only
        rw [Pass.moveToAdd_eq hat hone]
        exact ⟨_, _, rfl, h.retype (.inl rfl) hneeded hwrite hbefore, hcurrent',
          ⟨Pass.shapes_retype p n, rfl⟩, rfl, hless⟩
      | none =>
        refine ⟨_, _, rfl, h.add_first hneeded ⟨hadd, hedit⟩, fun m hm => ?_, ⟨rfl, rfl⟩, rfl, ?_⟩
        · rcases mem_append.mp hm with hm | hm
          · exact hcurrent' m hm
          · rw [mem_singleton.mp hm, opsAt_concat_add, endsWrite_concat]
            rfl
        · rw [length_append]
          exact le_rfl
  · rw [Bool.not_eq_true] at hneeded
    rw [if_pos hneeded]
    refine ⟨_, _, rfl, h.write_goes (.add n) hneeded rfl fun id => ?_, hcurrent', ⟨rfl, rfl⟩, rfl,
      hless⟩
    rw [Finset.mem_insert, or_comm]
    exact or_congr_right (and_iff_left rfl).symm

theorem addAll {ns : List (Notification ι C)} (h : Inv needed p added [] ops)
    (hwell : c.WellFormed (ops ++ (ns.map .add ++ rest)))
    (hcurrent : ∀ m ∈ added, endsWrite (opsAt m.id ops) = true) :
    ∃ p' added', p.addAll needed added ns = some (p', added') ∧
      Inv needed p' added' [] (ops ++ ns.map .add) ∧ p.Steady p' ∧
      p'.movedDeleted = p.movedDeleted ∧
      added'.length + p'.changed ≤ added.length + ns.length + p.changed := by
  induction ns generalizing p added ops with
  | nil =>
    rw [map_nil, append_nil]
    exact ⟨p, added, rfl, h, .refl p, rfl, le_rfl⟩
  | cons n ns ih =>
    obtain ⟨p', added', hadd, h', hcurrent', hsteady, hmoved, hlength⟩ := h.add hwell hcurrent
    have hwell' : c.WellFormed (ops ++ [.add n] ++ (ns.map .add ++ rest)) := by
      rw [append_assoc]
      exact hwell
    obtain ⟨p'', added'', hall, h'', hsteady', hmoved', hlength'⟩ := ih h' hwell' hcurrent'
    rw [append_assoc] at h''
    refine ⟨p'', added'', by rw [Pass.addAll, hadd]; exact hall, h'', hsteady.trans hsteady',
      hmoved'.trans hmoved, ?_⟩
    rw [length_cons]
    omega

/-- What a deletion counts: twice if it can be moved. -/
def weight (p : Pass ι C T) : Nat := if p.firstGroup = 0 then 1 else 2

/-- **One deletion.** If there was a group update before, only those of notifications that stay are
kept. -/
theorem remove (h : Inv needed p added removed ops) (id : ι) :
    ∃ p' removed', p.remove needed removed id = some (p', removed') ∧
      Inv needed p' added removed' (ops ++ [.remove id]) ∧ p.Steady p' ∧
      (p.firstGroup ≠ 0 → ∀ i ∈ removed', i ∈ removed ∨ needed i = true) ∧
      p'.movedDeleted.length + weight p * removed'.length + p'.changed
        ≤ p.movedDeleted.length + weight p * removed.length + weight p + p.changed := by
  have hweight : 1 ≤ weight p := by
    unfold weight
    split <;> omega
  have hkeep : weight p * (removed ++ [id]).length = weight p * removed.length + weight p := by
    rw [length_append, length_singleton, Nat.mul_add, Nat.mul_one]
  have hdrop : p.movedDeleted.length + weight p * removed.length + 1
      ≤ p.movedDeleted.length + weight p * removed.length + weight p + p.changed := by omega
  unfold Pass.remove
  by_cases hdeleted : id ∈ p.canBeDeleted
  · obtain ⟨hneeded, hadd⟩ := (h.canBeDeleted id).mp hdeleted
    rw [if_pos hdeleted, if_neg (by rw [hneeded]; exact false_ne_true)]
    exact ⟨_, _, rfl, h.remove_drop id (fun _ => hadd)
      (fun hid => absurd (hneeded.symm.trans hid) false_ne_true), ⟨rfl, rfl⟩,
      fun _ i hi => .inl hi, hdrop⟩
  rw [if_neg hdeleted]
  by_cases hneeded : needed id = true
  · have hgoes : needed id = false → ∀ {q : Prop}, q :=
      fun hid => absurd (hid.symm.trans hneeded) false_ne_true
    rw [if_neg (by rw [hneeded]; exact false_ne_true.symm)]
    by_cases hheld : (p.firstAdd id).isSome ∨ (p.firstEdit id).isSome
    · rw [if_pos hheld]
      exact ⟨_, _, rfl, h.remove_drop id (fun hid => hgoes hid)
        (fun _ => (h.held id hneeded).mp hheld), ⟨rfl, rfl⟩, fun _ i hi => .inl hi, hdrop⟩
    rw [if_neg hheld]
    refine ⟨_, _, rfl, h.remove_keep id (fun _ => ?_) (fun hid => hgoes hid), ⟨rfl, rfl⟩,
      fun _ i hi => ?_, by omega⟩
    · rw [h.held id hneeded, Bool.not_eq_true] at hheld
      exact hheld
    · refine (mem_append.mp hi).imp_right fun hi => ?_
      rw [mem_singleton.mp hi]
      exact hneeded
  rw [Bool.not_eq_true] at hneeded
  have hadd : (opsAt id ops).any Op.isAdd = false := by
    rw [h.canBeDeleted, not_and, Bool.not_eq_true] at hdeleted
    exact hdeleted hneeded
  rw [if_pos hneeded]
  by_cases hgroup : p.firstGroup = 0
  · rw [if_neg (not_not.mpr hgroup)]
    exact ⟨_, _, rfl, h.remove_keep id
      (fun hid => absurd (hneeded.symm.trans hid) false_ne_true)
      (fun _ => ⟨hadd, h.moved hgroup⟩), ⟨rfl, rfl⟩, fun hne => absurd hgroup hne, by omega⟩
  rw [if_pos hgroup]
  refine ⟨_, _, rfl, h.remove_move hgroup hneeded hadd, ⟨rfl, rfl⟩, fun _ i hi => .inl hi, ?_⟩
  have htwo : weight p = 2 := if_neg hgroup
  rw [length_append]
  show _ + 1 + _ + 1 ≤ _
  omega

theorem removeAll (ids : List ι) (h : Inv needed p added removed ops) :
    ∃ p' removed', p.removeAll needed removed ids = some (p', removed') ∧
      Inv needed p' added removed' (ops ++ ids.map .remove) ∧ p.Steady p' ∧
      (p.firstGroup ≠ 0 → ∀ i ∈ removed', i ∈ removed ∨ needed i = true) ∧
      p'.movedDeleted.length + weight p * removed'.length + p'.changed
        ≤ p.movedDeleted.length + weight p * removed.length + weight p * ids.length +
          p.changed := by
  induction ids generalizing p removed ops with
  | nil =>
    rw [map_nil, append_nil]
    exact ⟨p, removed, rfl, h, .refl p, fun _ i hi => .inl hi, le_rfl⟩
  | cons id ids ih =>
    obtain ⟨p', removed', hremove, h', hsteady, hlater, hlength⟩ := h.remove id
    obtain ⟨p'', removed'', hall, h'', hsteady', hlater', hlength'⟩ := ih h'
    have hweight : weight p' = weight p := by
      unfold weight
      rw [hsteady.firstGroup]
    rw [append_assoc] at h''
    refine ⟨p'', removed'', by rw [Pass.removeAll, hremove]; exact hall, h'',
      hsteady.trans hsteady', fun hgroup i hi => ?_, ?_⟩
    · rcases hlater' (by rw [hsteady.firstGroup]; exact hgroup) i hi with hi | hi
      · exact hlater hgroup i hi
      · exact .inr hi
    · rw [hweight] at hlength'
      rw [length_cons, Nat.mul_succ]
      omega

end Inv

end Tdlib.Notifications
