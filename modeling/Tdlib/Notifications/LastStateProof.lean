import Tdlib.Notifications.Operations

/-!
# The last state

For each notification the sets say what the last operation on it was: an addition or an edit, or a
deletion. A deletion that follows another one without an addition in between is dropped. So no
`CHECK` fails as long as notifications are added only when absent and edited only when present.
-/

namespace Tdlib.Notifications

open List

variable {ι C T : Type} {x : Option (Notification ι C)} {op : Op ι C} {ops ops' : List (Op ι C)}

/-! ## The end of a list of operations -/

/-- There was a deletion after the last addition. -/
def endsRemoved (ops : List (Op ι C)) : Bool :=
  ops.foldl (fun removed op => match op with
    | .add _ => false
    | .edit _ => removed
    | .remove _ => true) false

/-- The last operation is an addition or an edit. -/
def endsWrite (ops : List (Op ι C)) : Bool := ops.getLast?.any Op.isWrite

theorem endsRemoved_concat (ops : List (Op ι C)) (op : Op ι C) :
    endsRemoved (ops ++ [op]) = match op with
      | .add _ => false
      | .edit _ => endsRemoved ops
      | .remove _ => true := by
  rw [endsRemoved, foldl_append]
  rfl

@[simp] theorem endsWrite_concat (ops : List (Op ι C)) (op : Op ι C) :
    endsWrite (ops ++ [op]) = op.isWrite := by
  rw [endsWrite, getLast?_concat]
  rfl

theorem runAt_concat (x : Option (Notification ι C)) (ops : List (Op ι C)) (op : Op ι C) :
    runAt x (ops ++ [op]) = stepAt (runAt x ops) op := by
  rw [runAt, foldl_append]
  rfl

theorem wellFormedAt_concat :
    WellFormedAt x (ops ++ [op]) ↔ WellFormedAt x ops ∧ OkAt (runAt x ops) op := by
  rw [wellFormedAt_append]
  exact and_congr_right fun _ => and_iff_left trivial

theorem spaced_concat : Spaced false (ops ++ [op]) ↔
    Spaced false ops ∧ ∀ id, op = .remove id → endsRemoved ops = false := by
  have hfrom : ∀ removed, Spaced removed (ops ++ [op]) ↔ Spaced removed ops ∧
      ∀ id, op = .remove id → ops.foldl (fun removed op => match op with
        | .add _ => false
        | .edit _ => removed
        | .remove _ => true) removed = false := by
    induction ops with
    | nil =>
      intro removed
      cases op with
      | remove id =>
        exact ⟨fun h => ⟨trivial, fun _ _ => h.1⟩, fun h => ⟨h.2 id rfl, trivial⟩⟩
      | add n | edit n => exact ⟨fun _ => ⟨trivial, nofun⟩, fun _ => trivial⟩
    | cons first ops ih =>
      intro removed
      cases first with
      | remove id =>
        show removed = false ∧ Spaced true (ops ++ [op]) ↔ (removed = false ∧ Spaced true ops) ∧ _
        rw [ih, and_assoc]
        rfl
      | add n => exact ih false
      | edit n => exact ih removed
  exact hfrom false

/-- What was removed and not added again is not there. -/
theorem runAt_of_endsRemoved (h : WellFormedAt x ops) (hremoved : endsRemoved ops = true) :
    runAt x ops = none := by
  induction ops using reverseRecOn with
  | nil => cases hremoved
  | append_singleton ops op ih =>
    obtain ⟨hops, hok⟩ := wellFormedAt_concat.mp h
    rw [endsRemoved_concat] at hremoved
    cases op with
    | remove id => exact runAt_concat x ops _
    | add n => cases hremoved
    | edit n =>
      -- An edit after the deletion would not be allowed.
      rw [ih hops hremoved] at hok
      cases hok

theorem runAt_of_endsWrite (h : WellFormedAt x ops) (hwrite : endsWrite ops = true) :
    runAt x ops ≠ none := by
  cases ops using reverseRecOn with
  | nil => cases hwrite
  | append_singleton ops op =>
    rw [endsWrite_concat] at hwrite
    obtain ⟨n, hn, -⟩ := runAt_concat_write h hwrite
    rw [hn]
    exact Option.some_ne_none n

/-! ## One notification -/

variable {s s' : LastState ι} {id : ι}

/-- The sets are right about a notification, of which the operations were `ops` and are now
`ops'`. -/
structure Tracks (x : Option (Notification ι C)) (id : ι) (s : LastState ι)
    (ops ops' : List (Op ι C)) : Prop where
  run : runAt x ops' = runAt x ops
  wellFormed : WellFormedAt x ops'
  spaced : Spaced false ops'
  /-- The last operation is a deletion. -/
  removed : id ∈ s.removed ↔ endsRemoved ops' = true
  /-- The last operation is an addition or an edit. -/
  needed : (id ∈ s.added ∨ id ∈ s.edited) ↔ endsWrite ops' = true
  sublist : ops'.Sublist ops

/-- Other notifications are not affected. -/
theorem Tracks.other (h : Tracks x id s ops ops') (hremoved : id ∈ s'.removed ↔ id ∈ s.removed)
    (hneeded : (id ∈ s'.added ∨ id ∈ s'.edited) ↔ (id ∈ s.added ∨ id ∈ s.edited)) :
    Tracks x id s' ops ops' :=
  { h with removed := hremoved.trans h.removed, needed := hneeded.trans h.needed }

/-- An operation that is kept. -/
theorem Tracks.keep (h : Tracks x id s ops ops') (hok : OkAt (runAt x ops) op)
    (hspaced : ∀ id', op = .remove id' → endsRemoved ops' = false)
    (hremoved : id ∈ s'.removed ↔ endsRemoved (ops' ++ [op]) = true)
    (hneeded : (id ∈ s'.added ∨ id ∈ s'.edited) ↔ op.isWrite = true) :
    Tracks x id s' (ops ++ [op]) (ops' ++ [op]) where
  run := by rw [runAt_concat, runAt_concat, h.run]
  wellFormed := wellFormedAt_concat.mpr ⟨h.wellFormed, h.run ▸ hok⟩
  spaced := spaced_concat.mpr ⟨h.spaced, hspaced⟩
  removed := hremoved
  needed := by rw [endsWrite_concat, hneeded]
  sublist := h.sublist.append (.refl _)

/-- A deletion that is dropped. -/
theorem Tracks.drop {id' : ι} (h : Tracks x id s ops ops') (hin : id ∈ s.removed)
    (hremoved : id ∈ s'.removed) (hneeded : ¬(id ∈ s'.added ∨ id ∈ s'.edited)) :
    Tracks x id s' (ops ++ [.remove id']) ops' where
  run := by
    rw [runAt_concat]
    exact runAt_of_endsRemoved h.wellFormed (h.removed.mp hin)
  wellFormed := h.wellFormed
  spaced := h.spaced
  removed := iff_of_true hremoved (h.removed.mp hin)
  needed := by
    refine iff_of_false hneeded fun hwrite => ?_
    exact runAt_of_endsWrite h.wellFormed hwrite
      (runAt_of_endsRemoved h.wellFormed (h.removed.mp hin))
  sublist := h.sublist.trans (sublist_append_left _ _)

/-! ## All notifications -/

variable [LinearOrder ι] {c : Client ι C} {rest : List (Op ι C)} {n : Notification ι C}

/-- The sets are right about all notifications. -/
def TracksAll (c : Client ι C) (s : LastState ι) (ops ops' : List (Op ι C)) : Prop :=
  ∀ id, Tracks (c id) id s (opsAt id ops) (opsAt id ops')

theorem opsAt_concat_self (ops : List (Op ι C)) (op : Op ι C) (h : op.id = id) :
    opsAt id (ops ++ [op]) = opsAt id ops ++ [op] := by
  rw [opsAt_append, opsAt_cons_self h, opsAt_nil]

theorem opsAt_concat_remove (ops : List (Op ι C)) (id : ι) :
    opsAt id (ops ++ [.remove id]) = opsAt id ops ++ [.remove id] := opsAt_concat_self _ _ rfl

theorem opsAt_concat_add (ops : List (Op ι C)) (n : Notification ι C) :
    opsAt n.id (ops ++ [.add n]) = opsAt n.id ops ++ [.add n] := opsAt_concat_self _ _ rfl

theorem opsAt_concat_ne (ops : List (Op ι C)) (op : Op ι C) (h : op.id ≠ id) :
    opsAt id (ops ++ [op]) = opsAt id ops := by
  rw [opsAt_append, opsAt_cons_ne h, opsAt_nil, append_nil]

/-- The last operation is about one notification only. -/
theorem TracksAll.of_one (op : Op ι C) (op' : List (Op ι C)) (h : TracksAll c s ops ops')
    (hop' : ∀ o ∈ op', o = op)
    (hself : Tracks (c op.id) op.id s' (opsAt op.id ops ++ [op]) (opsAt op.id ops' ++ op'))
    (hother : ∀ id, op.id ≠ id → (id ∈ s'.removed ↔ id ∈ s.removed) ∧
      ((id ∈ s'.added ∨ id ∈ s'.edited) ↔ (id ∈ s.added ∨ id ∈ s.edited))) :
    TracksAll c s' (ops ++ [op]) (ops' ++ op') := by
  intro id
  by_cases hid : op.id = id
  · subst hid
    have hop : opsAt op.id op' = op' :=
      filter_eq_self.mpr fun o ho => by rw [hop' o ho]; exact decide_eq_true rfl
    rw [opsAt_concat_self _ _ rfl, opsAt_append, hop]
    exact hself
  · have hop : opsAt id op' = [] :=
      filter_eq_nil_iff.mpr fun o ho => by rw [hop' o ho]; simpa using hid
    rw [opsAt_concat_ne _ _ hid, opsAt_append, hop, append_nil]
    exact (h id).other (hother id hid).1 (hother id hid).2

theorem TracksAll.add (h : TracksAll c s ops ops') (hwell : c.WellFormed (ops ++ .add n :: rest)) :
    ∃ s', s.add n = some s' ∧ TracksAll c s' (ops ++ [.add n]) (ops' ++ [.add n]) := by
  have hself := h n.id
  have hok : runAt (c n.id) (opsAt n.id ops) = none := hwell.ok
  have hfresh : ¬(n.id ∈ s.added ∨ n.id ∈ s.edited) := by
    rw [hself.needed]
    intro hwrite
    exact runAt_of_endsWrite hself.wellFormed hwrite (hself.run.trans hok)
  rw [not_or] at hfresh
  refine ⟨_, by rw [LastState.add, if_neg hfresh.1, if_neg hfresh.2], ?_⟩
  refine h.of_one (.add n) [.add n] (fun o ho => mem_singleton.mp ho) ?_ fun id hid => ⟨?_, ?_⟩
  · refine hself.keep hok nofun ?_ ?_
    · rw [endsRemoved_concat]
      exact iff_of_false (Finset.notMem_erase _ _) nofun
    · exact iff_of_true (.inl (Finset.mem_insert_self _ _)) rfl
  · exact Finset.mem_erase.trans (and_iff_right (Ne.symm hid))
  · exact or_congr_left (Finset.mem_insert.trans (or_iff_right (Ne.symm hid)))

theorem TracksAll.edit {g : Int} (h : TracksAll c s ops ops')
    (hwell : c.WellFormed (ops ++ .edit n :: rest)) :
    ∃ s', s.update (.edit g n : Update ι C T) = some (s', .edit g n) ∧
      TracksAll c s' (ops ++ [.edit n]) (ops' ++ [.edit n]) := by
  have hself := h n.id
  have hok : (runAt (c n.id) (opsAt n.id ops)).isSome := hwell.ok
  have hnot : n.id ∉ s.removed := by
    rw [hself.removed]
    intro hremoved
    rw [← hself.run, runAt_of_endsRemoved hself.wellFormed hremoved] at hok
    cases hok
  refine ⟨_, by rw [LastState.update, if_neg hnot], ?_⟩
  refine h.of_one (.edit n) [.edit n] (fun o ho => mem_singleton.mp ho) ?_
    fun id hid => ⟨Iff.rfl, ?_⟩
  · refine hself.keep hok nofun ?_ ?_
    · rw [endsRemoved_concat]
      exact hself.removed
    · exact iff_of_true (.inr (Finset.mem_insert_self _ _)) rfl
  · exact or_congr (Finset.mem_erase.trans (and_iff_right (Ne.symm hid)))
      (Finset.mem_insert.trans (or_iff_right (Ne.symm hid)))

/-- A deletion is kept or dropped. -/
theorem TracksAll.remove (id : ι) (h : TracksAll c s ops ops') :
    TracksAll c ⟨s.added.erase id, s.edited.erase id, insert id s.removed⟩ (ops ++ [.remove id])
      (ops' ++ if id ∈ s.removed then [] else [.remove id]) := by
  have hself := h id
  have hgone : ¬(id ∈ s.added.erase id ∨ id ∈ s.edited.erase id) :=
    not_or.mpr ⟨Finset.notMem_erase _ _, Finset.notMem_erase _ _⟩
  refine h.of_one (.remove id) _ ?_ ?_ fun id' hid => ⟨?_, ?_⟩
  · intro o ho
    split at ho
    · cases ho
    · exact mem_singleton.mp ho
  · split
    · rename_i hin
      rw [append_nil]
      exact hself.drop hin (Finset.mem_insert_self _ _) hgone
    · rename_i hout
      refine hself.keep trivial ?_ ?_ ?_
      · intro _ _
        rw [hself.removed, Bool.not_eq_true] at hout
        exact hout
      · rw [endsRemoved_concat]
        exact iff_of_true (Finset.mem_insert_self _ _) rfl
      · exact iff_of_false hgone nofun
  · exact Finset.mem_insert.trans (or_iff_right (Ne.symm hid))
  · exact or_congr (Finset.mem_erase.trans (and_iff_right (Ne.symm hid)))
      (Finset.mem_erase.trans (and_iff_right (Ne.symm hid)))

/-! ## Updates -/

theorem TracksAll.addAll {ns : List (Notification ι C)} (h : TracksAll c s ops ops')
    (hwell : c.WellFormed (ops ++ (ns.map .add ++ rest))) :
    ∃ s', s.addAll ns = some s' ∧ TracksAll c s' (ops ++ ns.map .add) (ops' ++ ns.map .add) := by
  induction ns generalizing s ops ops' with
  | nil =>
    refine ⟨s, rfl, ?_⟩
    rwa [map_nil, append_nil, append_nil]
  | cons n ns ih =>
    obtain ⟨s', hadd, h'⟩ := h.add hwell
    have hwell' : c.WellFormed (ops ++ [.add n] ++ (ns.map .add ++ rest)) := by
      rw [append_assoc]
      exact hwell
    obtain ⟨s'', hall, h''⟩ := ih h' hwell'
    refine ⟨s'', by rw [LastState.addAll, hadd]; exact hall, ?_⟩
    rwa [append_assoc, append_assoc] at h''

theorem TracksAll.removeAll (ids : List ι) (h : TracksAll c s ops ops') :
    TracksAll c (s.removeAll ids).1 (ops ++ ids.map .remove)
      (ops' ++ (s.removeAll ids).2.map .remove) := by
  induction ids generalizing s ops ops' with
  | nil => rwa [LastState.removeAll, map_nil, append_nil, append_nil]
  | cons id ids ih =>
    have h' := ih (h.remove id)
    rw [LastState.removeAll]
    rw [append_assoc, append_assoc] at h'
    dsimp only
    split at h'
    · rename_i hin
      rw [if_pos hin]
      exact h'
    · rename_i hout
      rw [if_neg hout]
      exact h'

theorem TracksAll.update {u : Update ι C T} (h : TracksAll c s ops ops')
    (hwell : c.WellFormed (ops ++ (u.ops ++ rest))) :
    ∃ s' u', s.update u = some (s', u') ∧ TracksAll c s' (ops ++ u.ops) (ops' ++ u'.ops) := by
  cases u with
  | edit g n =>
    obtain ⟨s', hupdate, h'⟩ := h.edit (g := g) hwell
    exact ⟨s', _, hupdate, h'⟩
  | group u =>
    rw [Update.ops, append_assoc] at hwell
    obtain ⟨s', hadd, h'⟩ := h.addAll hwell
    have h'' := h'.removeAll u.removedNotificationIds
    rw [append_assoc, append_assoc] at h''
    let kept := (s'.removeAll u.removedNotificationIds).2
    refine ⟨_, .group { u with removedNotificationIds := kept }, ?_, h''⟩
    rw [LastState.update, hadd]

/-- **No `CHECK` fails**, and the sets are right in the end. -/
theorem TracksAll.updateAll {us : List (Update ι C T)} (h : TracksAll c s ops ops')
    (hwell : c.WellFormed (ops ++ us.flatMap Update.ops)) :
    ∃ s' us', s.updateAll us = some (s', us') ∧
      TracksAll c s' (ops ++ us.flatMap Update.ops) (ops' ++ us'.flatMap Update.ops) := by
  induction us generalizing s ops ops' with
  | nil =>
    refine ⟨s, [], rfl, ?_⟩
    rwa [flatMap_nil, append_nil, append_nil]
  | cons u us ih =>
    rw [flatMap_cons] at hwell
    obtain ⟨s', u', hupdate, h'⟩ := h.update hwell
    rw [← append_assoc] at hwell
    obtain ⟨s'', us', hall, h''⟩ := ih h' hwell
    refine ⟨s'', u' :: us', by rw [LastState.updateAll, hupdate]; dsimp only; rw [hall], ?_⟩
    rwa [append_assoc, append_assoc] at h''

/-- The updates are about one group of one chat. -/
def Update.OfGroup (groupId chatId : Int) : Update ι C T → Prop
  | .group u => u.notificationGroupId = groupId ∧ u.chatId = chatId
  | .edit _ _ => True

theorem LastState.ofGroup_updateAll {groupId chatId : Int} {us us' : List (Update ι C T)}
    (h : s.updateAll us = some (s', us')) (hus : ∀ u ∈ us, u.OfGroup groupId chatId) :
    ∀ u ∈ us', u.OfGroup groupId chatId := by
  induction us generalizing s us' with
  | nil =>
    cases h
    exact hus
  | cons u us ih =>
    rw [LastState.updateAll] at h
    cases hupdate : s.update u with
    | none =>
      rw [hupdate] at h
      cases h
    | some r =>
      rw [hupdate] at h
      dsimp only at h
      cases hall : r.1.updateAll us with
      | none =>
        rw [hall] at h
        cases h
      | some r' =>
        rw [hall] at h
        cases h
        intro v hv
        rcases mem_cons.mp hv with rfl | hv
        · have hu := hus u mem_cons_self
          cases u with
          | edit g n =>
            rw [LastState.update] at hupdate
            split at hupdate
            · cases hupdate
            · cases hupdate
              trivial
          | group u =>
            rw [LastState.update] at hupdate
            split at hupdate
            · cases hupdate
              exact hu
            · cases hupdate
        · exact ih hall (forall_mem_cons.1 hus).2 v hv

theorem tracksAll_initial (c : Client ι C) : TracksAll c LastState.initial [] [] := fun id =>
  { run := rfl
    wellFormed := trivial
    spaced := trivial
    removed := iff_of_false (Finset.notMem_empty id) nofun
    needed := iff_of_false (not_or.mpr ⟨Finset.notMem_empty id, Finset.notMem_empty id⟩)
      nofun
    sublist := .slnil }

end Tdlib.Notifications
