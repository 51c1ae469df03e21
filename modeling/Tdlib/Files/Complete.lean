import Tdlib.Files.Initial

/-!
# A transfer that is ready is complete

What holds of every transfer, from its beginning to the first error: the counters count, no part is
started twice, and when the sum of what was reported is the size of the file, every part is there
and the reported bytes are the file from its first byte to its last.
-/

namespace Tdlib.Files

open Tdlib.Lib PartsManager

namespace PartsManager

variable {d : PartsManager} {i : Nat}

theorem startPartAt_some (hlt : i < d.partCount) (hempty : d.partStatus[i]? = some .empty) :
    ∃ r, d.startPartAt i = some r := by
  unfold startPartAt
  rw [if_neg (not_le.mpr hlt)]
  split
  · exact ⟨_, rfl⟩
  · rw [if_neg (fun hne => hne hempty)]
    exact ⟨_, rfl⟩

/-- A cursor that has stopped before the end is at a part that is empty. -/
theorem empty_of_skip (hlength : d.partStatus.length = d.partCount) {first : Nat}
    (hlt : skipWhile (fun status => status ≠ .empty) d.partStatus first < d.partCount) :
    d.partStatus[skipWhile (fun status => status ≠ .empty) d.partStatus first]? = some .empty := by
  rw [← hlength] at hlt
  have hget := List.getElem?_eq_getElem hlt
  have hstop := skipWhile_stop hget
  rw [hget]
  simpa using hstop

theorem firstStreamingEmptyPart_eq (d : PartsManager) :
    d.updateFirstEmptyPart.firstStreamingEmptyPart =
      skipWhile (fun status => status ≠ .empty) d.partStatus
        (if d.streamingOffset = 0 then d.firstEmptyPart else d.firstStreamingEmptyPart) := by
  unfold updateFirstEmptyPart
  split <;> rfl

/-- **`start_part` fails no check.** -/
theorem startPart_some (h : Book d) : ∃ r, d.startPart = some r := by
  have hbook := h.updateFirstEmptyPart
  unfold startPart
  dsimp only
  split
  · exact ⟨_, rfl⟩
  split
  · rename_i hend
    split
    · unfold startNewPart
      by_cases hmany : maxPartCount +
          (if d.updateFirstEmptyPart.usePartCountLimit then 0 else 64) <
          d.updateFirstEmptyPart.partCount + 1
      · rw [if_pos hmany]
        split <;> exact ⟨_, rfl⟩
      -- the part that is appended is empty
      rw [if_neg hmany]
      refine startPartAt_some (d := d.updateFirstEmptyPart.grow 1) ?_ ?_
      · rw [hend]
        exact Nat.lt_succ_self _
      rw [hend]
      show (d.partStatus ++ [PartStatus.empty])[d.partCount]? = _
      rw [← h.length]
      exact List.getElem?_concat_length
    · split
      · rename_i hlt
        exact startPartAt_some hlt (empty_of_skip h.length hlt)
      · exact ⟨_, rfl⟩
  · rename_i hend
    have hlt : d.updateFirstEmptyPart.firstStreamingEmptyPart < d.partCount :=
      lt_of_le_of_ne hbook.streamingEmpty_le hend
    refine startPartAt_some hlt ?_
    rw [firstStreamingEmptyPart_eq] at hlt ⊢
    exact empty_of_skip h.length hlt

/-- **A part that is returned was neither pending nor ready.** -/
theorem startPart_empty {d' : PartsManager} {part : Part} (h : d.startPart = some (d', .ok part))
    (hid : part.id = some i) : d.partStatus[i]? = some .empty ∨ d.partStatus[i]? = none := by
  obtain ⟨n, -, ⟨rfl, -⟩ | ⟨j, hempty, -, rfl, -⟩⟩ := startPart_cases h
  · cases hid
  cases hid
  cases hi : d.partStatus[i]? with
  | none => exact .inr rfl
  | some status =>
    have hget : (d.updateFirstEmptyPart.grow n).partStatus[i]? = some status := status_grow hi
    rw [hempty] at hget
    exact .inl hget.symm

end PartsManager

namespace Transfer

variable {t t' : Transfer} {event : Event}

/-- A transfer that was stopped stays stopped. -/
theorem running_of_step (hallowed : t.Allowed event) (hstep : t.step event = some t')
    (hstop : t'.stopFlag = false) : t.stopFlag = false := by
  cases event with
  | startPart | setNeedCheck | setCheckedPrefixSize size => exact hallowed
  | partOk i actualSize | partFailed i => exact hallowed.1
  | setStreamingOffset offset limit =>
    obtain ⟨r, -, rfl⟩ := Option.map_eq_some_iff.mp hstep
    exact hstop
  | setStreamingLimit limit =>
    cases hstep
    exact hstop

/-- What no step of a transfer that goes on can do: change the size of the parts, or forget the size
of the file. -/
structure Frame (d d' : PartsManager) : Prop where
  partSize : d'.partSize = d.partSize
  unknown : d'.unknownSizeFlag = true → d.unknownSizeFlag = true

variable {d d' : PartsManager} {i actualSize size : Nat}

theorem setStreamingOffset_frame {offset limit : Int} {r : Nat}
    (h : d.setStreamingOffset offset limit = some (d', r)) : Frame d d' := by
  obtain ⟨n, off, first, notReady, rfl, -⟩ := setStreamingOffset_cases h
  exact ⟨rfl, id⟩

theorem step_startPart {r : Except Error Part} (h : t.parts.startPart = some (d, r)) :
    t.step .startPart = some (t.onStarted d r) := by
  show t.parts.startPart.map _ = _
  rw [h]
  rfl

theorem step_partOk {r : Except Error Unit}
    (h : t.parts.onPartOk i (t.askedSize i) actualSize = some (d, r)) :
    t.step (.partOk i actualSize) = some (t.onOk d i actualSize r) := by
  show (t.parts.onPartOk i (t.askedSize i) actualSize).map _ = _
  rw [h]
  rfl

theorem step_setStreamingOffset {offset limit : Int} {n : Nat}
    (h : t.parts.setStreamingOffset offset limit = some (d, n)) :
    t.step (.setStreamingOffset offset limit) = some { t with parts := d } := by
  show (t.parts.setStreamingOffset offset limit).map _ = _
  rw [h]
  rfl

theorem onStarted_parts (t : Transfer) (d : PartsManager) (r : Except Error Part) :
    (t.onStarted d r).parts = d := by
  unfold onStarted
  split
  · split <;> rfl
  · rfl
  · rfl

theorem onPartOk_frame (h : d.onPartOk i size actualSize = some (d', .ok ())) : Frame d d' := by
  cases hflag : d.unknownSizeFlag with
  | true =>
    obtain ⟨-, -, minSize, maxSize, -, -, -, rfl⟩ := onPartOk_unknown h hflag
    exact ⟨rfl, fun _ => hflag⟩
  | false =>
    obtain ⟨-, -, -, rfl⟩ := onPartOk_known h hflag
    exact ⟨rfl, id⟩

theorem frame_of_step (hstep : t.step event = some t') (hstop : t'.stopFlag = false) :
    Frame t.parts t'.parts := by
  cases event with
  | startPart =>
    obtain ⟨⟨d, r⟩, hstart, rfl⟩ := Option.map_eq_some_iff.mp hstep
    rw [onStarted_parts]
    cases r with
    | ok part =>
      obtain ⟨n, -, ⟨-, rfl⟩ | ⟨i, -, -, -, rfl⟩⟩ := startPart_cases hstart
      · exact ⟨rfl, id⟩
      · exact ⟨rfl, id⟩
    | error error =>
      have hcode : error.code = 1 := not_not.mp (of_decide_eq_false hstop)
      obtain rfl := startPart_error hstart hcode
      exact ⟨rfl, id⟩
  | partOk i actualSize =>
    obtain ⟨⟨d, r⟩, hok, rfl⟩ := Option.map_eq_some_iff.mp hstep
    cases r with
    | ok => exact onPartOk_frame hok
    | error error => cases hstop
  | partFailed i =>
    obtain ⟨d, hfailed, rfl⟩ := Option.map_eq_some_iff.mp hstep
    obtain ⟨-, first, -, rfl⟩ := onPartFailed_cases hfailed
    exact ⟨rfl, id⟩
  | setStreamingOffset offset limit =>
    obtain ⟨⟨d, r⟩, hset, rfl⟩ := Option.map_eq_some_iff.mp hstep
    exact setStreamingOffset_frame hset
  | setStreamingLimit limit | setCheckedPrefixSize size =>
    cases hstep
    exact ⟨rfl, id⟩
  | setNeedCheck =>
    obtain ⟨d, r, hset, rfl⟩ := step_setNeedCheck hstep
    have hframe := setStreamingOffset_frame hset
    exact ⟨hframe.partSize, hframe.unknown⟩

variable {ok : Transfer → Event → Prop} {t0 : Transfer} {restored : Nat → Prop}

/-- **What holds at the beginning holds of every transfer that was not stopped**, if a part that is
short is always behind those that were restored. -/
theorem Run.kept (h : Run ok t0 t) (h0 : Kept restored t0) (hstop : t.stopFlag = false)
    (hlast : ∀ t i actualSize, Run ok t0 t → t.stopFlag = false → Kept restored t →
      t.parts.unknownSizeFlag = true → t.Allowed (.partOk i actualSize) →
      ok t (.partOk i actualSize) → actualSize < t.parts.partSize → ∀ j, restored j → j < i) :
    Kept restored t := by
  induction h with
  | refl => exact h0
  | @step t t' event hrun hallowed hok hstep ih =>
    have hrunning := running_of_step hallowed hstep hstop
    have hkept := ih hrunning
    refine hkept.step hallowed ?_ hstep hstop
    rintro hunknown i actualSize rfl hshort
    exact hlast t i actualSize hrun hrunning hkept hunknown hallowed hok hshort

theorem Run.frame (h : Run ok t0 t) (hstop : t.stopFlag = false) : Frame t0.parts t.parts := by
  induction h with
  | refl => exact ⟨rfl, id⟩
  | step event hrun hallowed hok hstep ih =>
    have hbefore := ih (running_of_step hallowed hstep hstop)
    have hframe := frame_of_step hstep hstop
    exact ⟨hframe.partSize.trans hbefore.partSize, fun h => hbefore.unknown (hframe.unknown h)⟩

/-- What holds of every transfer whose restored parts are at the beginning of the file, if its size
is not known. -/
theorem Run.kept_of_fresh {expectedSize : Nat} {parts : List Nat} (h : Run ok (start d) t)
    (hfresh : Fresh size expectedSize parts d) (hnodup : parts.Nodup)
    (hfirst : size = 0 → ∀ i ∈ parts, ∀ j < i, j ∈ parts) (hstop : t.stopFlag = false) :
    Kept (fun i => i ∈ parts) t := by
  refine h.kept (hfresh.kept hnodup) hstop ?_
  intro t i actualSize hrun hstop hkept hunknown hallowed _ _ j hj
  have hzero : size = 0 := by
    have h0 : d.unknownSizeFlag = true := (hrun.frame hstop).unknown hunknown
    rw [hfresh.unknown] at h0
    exact of_decide_eq_true h0
  obtain ⟨-, asked, hasked, -⟩ := hallowed
  -- the part under way was not restored, and neither was any behind it
  have hnot : i ∉ parts := by
    intro hmem
    have hready := hkept.sized.restored_ready i hmem
    rw [(hkept.sized.asked i asked hasked).1] at hready
    cases hready
  by_contra hge
  rcases lt_or_eq_of_le (not_lt.mp hge) with hlt | rfl
  · exact hnot (hfirst hzero j hj i hlt)
  · exact hnot hj

end Transfer

namespace Kept

variable {restored : Nat → Prop} {t : Transfer}

section

variable (h : Kept restored t) (hknown : t.parts.unknownSizeFlag = false)
include h hknown

/-- If the sum is the size, then no part is missing. -/
theorem all_ready (hsum : t.parts.readySize = t.parts.size) {i : Nat}
    (hi : i * t.parts.partSize < t.parts.size) : t.parts.partStatus[i]? = some .ready := by
  have hshare : ∑ i ∈ readyParts t.parts.partStatus,
      blockSize t.parts.partSize t.parts.size i = t.parts.size := by
    refine Eq.trans ?_ (h.counted.symm.trans hsum)
    refine Finset.sum_congr rfl ?_
    intro i hi
    rw [h.sized.share i (mem_readyParts.mp hi), totalSize_known hknown]
  have hsub := h.book.readyParts_subset
  have hlt : i < t.parts.partCount := by
    have hle := Finset.sum_le_sum_of_subset (f := blockSize t.parts.partSize t.parts.size) hsub
    rw [sum_blockSize] at hle
    by_contra hge
    have := Nat.mul_le_mul_right t.parts.partSize (not_lt.mp hge)
    omega
  exact mem_readyParts.mp (mem_of_sum_blockSize h.sized.partSize_pos hsub hshare hlt hi)

/-- **The reported bytes tile the file.** -/
theorem tiled (hsum : t.parts.readySize = t.parts.size) {x : Nat} (hx : x < t.parts.size) :
    ∃! i, t.parts.partStatus[i]? = some .ready ∧ i * t.parts.partSize ≤ x ∧
      x < i * t.parts.partSize + t.reported i := by
  have htotal := totalSize_known hknown
  obtain ⟨i, ⟨hle, hlt⟩, hunique⟩ := existsUnique_block h.sized.partSize_pos hx
  have hready := h.all_ready hknown hsum (lt_of_le_of_lt hle hx)
  refine ⟨i, ⟨hready, hle, ?_⟩, ?_⟩
  · rw [h.sized.share i hready, htotal]
    exact hlt
  · rintro j ⟨hj, hle, hlt⟩
    rw [h.sized.share j hj, htotal] at hlt
    exact hunique j ⟨hle, hlt⟩

/-- No byte is reported from behind the end of the file. -/
theorem reported_le {i : Nat} (hi : t.parts.partStatus[i]? = some .ready) (hne : t.reported i ≠ 0) :
    i * t.parts.partSize + t.reported i ≤ t.parts.size := by
  rw [h.sized.share i hi, totalSize_known hknown] at hne ⊢
  have hlt := (blockSize_pos h.sized.partSize_pos).mp (pos_of_ne_zero hne)
  exact blockSize_end hlt.le

end

end Kept

/-- **The bookkeeping of a transfer.** Whatever happens to a transfer before its first error, its
counters count, no part is started that is pending or ready, and when it is ready it is complete:
every part is there, and the reported bytes tile the file. -/
theorem bookkeeping {size expectedSize partSize : Nat} {parts : List Nat}
    {usePartCountLimit isUpload : Bool} {d : PartsManager} {t : Transfer}
    (hinit : PartsManager.init size expectedSize true partSize parts usePartCountLimit isUpload =
      some (.ok d))
    (hnodup : parts.Nodup) (hfirst : size = 0 → ∀ i ∈ parts, ∀ j < i, j ∈ parts)
    (hrun : Transfer.Run (fun _ _ => True) (Transfer.start d) t) (hstop : t.stopFlag = false) :
    t.parts.pendingCount = t.parts.partStatus.countP (fun status => status = .pending) ∧
    (∃ r, t.parts.startPart = some r) ∧
    (∀ (d' : PartsManager) (part : Part) (i : Nat), t.parts.startPart = some (d', .ok part) →
      part.id = some i → t.parts.partStatus[i]? ≠ some .pending ∧
        t.parts.partStatus[i]? ≠ some .ready) ∧
    t.parts.readySize = ∑ i ∈ readyParts t.parts.partStatus, t.reported i ∧
    (∀ i : Nat, t.parts.partStatus[i]? = some .empty → t.parts.firstEmptyPart ≤ i) ∧
    (∀ (i : Nat) (status : PartStatus), t.parts.partStatus[i]? = some status → status ≠ .ready →
      t.parts.firstNotReadyPart ≤ i) ∧
    (t.parts.ready = true → t.parts.needCheck = false →
      (∀ i : Nat, i * t.parts.partSize < t.parts.size → t.parts.partStatus[i]? = some .ready) ∧
      (∀ x < t.parts.size, ∃! i, t.parts.partStatus[i]? = some .ready ∧
        i * t.parts.partSize ≤ x ∧ x < i * t.parts.partSize + t.reported i) ∧
      ∀ i : Nat, t.parts.partStatus[i]? = some .ready → t.reported i ≠ 0 →
        i * t.parts.partSize + t.reported i ≤ t.parts.size) := by
  have hfresh := init_fresh hinit
  have hkept := hrun.kept_of_fresh hfresh hnodup hfirst hstop
  refine ⟨hkept.book.pendingCount, startPart_some hkept.book, ?_, hkept.counted,
    hkept.book.firstEmpty, hkept.book.firstNotReady, ?_⟩
  · intro d' part i hstart hid
    rcases startPart_empty hstart hid with hi | hi <;> rw [hi] <;> decide
  intro hready _
  unfold ready uncheckedReady at hready
  simp only [Bool.and_eq_true, Bool.not_eq_true', beq_iff_eq] at hready
  obtain ⟨⟨hknown, hsum⟩, -⟩ := hready
  refine ⟨?_, ?_, ?_⟩
  · intro i hi
    exact hkept.all_ready hknown hsum hi
  · intro x hx
    exact hkept.tiled hknown hsum hx
  · intro i hi hne
    exact hkept.reported_le hknown hi hne

/-- A file of unknown size whose first part was restored. The second part is short, so it is the
last one. -/
theorem bookkeeping_of_three_bytes :
    ∃ t : Transfer, t.stopFlag = false ∧ t.parts.ready = true ∧ t.parts.size = 3 ∧
      ∀ x < t.parts.size, ∃! i, t.parts.partStatus[i]? = some .ready ∧
        i * t.parts.partSize ≤ x ∧ x < i * t.parts.partSize + t.reported i := by
  let d : PartsManager :=
    { unknownSizeFlag := true, maxSize := int64Max, partSize := 2, partCount := 1, readySize := 2,
      partStatus := [.ready], firstNotReadyPart := 1, firstStreamingNotReadyPart := 1,
      checkedPrefixSize := 2 }
  let started : Transfer :=
    { Transfer.start d with
      parts := { d with
        partCount := 2, partStatus := [.ready, .pending], pendingCount := 1, firstEmptyPart := 1,
        firstStreamingEmptyPart := 1 }
      partMap := [(1, 2)] }
  let done : Transfer :=
    { started with
      parts := { started.parts with
        partStatus := [.ready, .ready], pendingCount := 0, readySize := 3, minSize := 3,
        maxSize := 3, size := 3, unknownSizeFlag := false }
      partMap := []
      reported := Function.update started.reported 1 1 }
  have hinit : init 0 0 true 2 [0] false false = some (.ok d) := by decide +kernel
  have hstarted : Transfer.Run (fun _ _ => True) (Transfer.start d) started :=
    .step .startPart .refl rfl trivial rfl
  have hdone : Transfer.Run (fun _ _ => True) (Transfer.start d) done :=
    .step (.partOk 1 1) hstarted ⟨rfl, 2, List.mem_singleton_self _, by decide⟩ trivial rfl
  obtain ⟨-, -, -, -, -, -, hready⟩ := bookkeeping hinit (by decide) (by decide) hdone rfl
  exact ⟨done, rfl, rfl, rfl, (hready rfl rfl).2.1⟩

end Tdlib.Files
