import Tdlib.Files.UnknownSize

/-!
# When a file of unknown size completes

An honest server gives no reason to stop. It is the number of parts that may be too big: a part is
appended when no part is empty, and parts are started up to twice of what is ready, or up to
512 KB. So the parts reach at most to twice the size of the file.
-/

namespace Tdlib.Files

open Tdlib.Lib PartsManager Transfer

/-! ## Runs -/

variable {d d' : PartsManager} {i n expectedSize : Nat} {restored : Nat → Prop}

/-- While the size is not known, a part must have been asked for in full. -/
theorem PartsManager.onPartOk_full {size actualSize : Nat} {r : Except Error Unit}
    (h : d.onPartOk i size actualSize = some (d', r)) (hunknown : d.unknownSizeFlag = true) :
    size = d.partSize := by
  unfold onPartOk at h
  split at h
  · cases h
  rw [if_pos (show (d.onPartReady i actualSize).unknownSizeFlag = true from hunknown)] at h
  split at h
  · cases h
  rename_i hsize
  exact not_not.mp hsize

theorem Fresh.download {parts : List Nat} (h : Fresh 0 expectedSize parts d)
    (hnodup : parts.Nodup) (hfits : n + d.partSize ≤ int64Max)
    (hinside : ∀ i ∈ parts, (i + 1) * d.partSize ≤ n) :
    Download n (fun i => i ∈ parts) (start d) where
  kept := h.kept hnodup
  fits := hfits
  inside := hinside
  streamingOffset := h.streamingOffset
  streamingLimit := h.streamingLimit
  knownPrefixFlag := h.knownPrefixFlag
  needCheck := h.needCheck
  answered := by
    intro i hi
    have hle := hinside i (h.ready_iff.mp hi)
    show (d.getPart i).size = blockSize d.partSize n i
    rw [getPart_size, totalSize_unknown h.unknown, h.maxSize rfl,
      blockSize_full hle, blockSize_full (by omega)]
  unknown := by
    intro _
    show d.minSize ≤ n ∧ n ≤ d.maxSize
    rw [h.minSize rfl, h.maxSize rfl]
    omega
  known := by
    intro hknown
    have hunknown : (start d).parts.unknownSizeFlag = true := h.unknown
    rw [hknown] at hunknown
    cases hunknown
  behind := by
    intro i hi
    rcases h.status_or hi with ⟨-, hs⟩ | ⟨-, hs⟩ <;> cases hs

/-- A download does not stop if its next part can be started. -/
theorem Download.running {t t' : Transfer} {event : Event} (h : Download n restored t)
    (hstop : t.stopFlag = false)
    (herror : CanStart t)
    (hallowed : t.Allowed event) (hhonest : Honest n t event) (hstep : t.step event = some t') :
    t'.stopFlag = false := by
  cases event with
  | startPart =>
    obtain ⟨⟨d, r⟩, hstart, rfl⟩ := Option.map_eq_some_iff.mp hstep
    cases r with
    | error error => exact absurd hstart (herror d error)
    | ok part =>
      show (t.onStarted d (.ok part)).stopFlag = false
      unfold onStarted
      split
      · split <;> exact hstop
      · exact hstop
      · rename_i heq
        cases heq
  | partOk i actualSize =>
    cases hhonest
    obtain ⟨-, size, hasked, -⟩ := hallowed
    obtain ⟨⟨d, r⟩, hok, rfl⟩ := Option.map_eq_some_iff.mp hstep
    rw [h.kept.askedSize_eq hasked] at hok
    obtain ⟨d', hok'⟩ := h.partOk_some hasked fun hunknown =>
      onPartOk_full hok hunknown
    rw [hok'] at hok
    cases hok
    exact hstop
  | partFailed i =>
    obtain ⟨d, -, rfl⟩ := Option.map_eq_some_iff.mp hstep
    exact hstop
  | setStreamingOffset offset limit | setStreamingLimit limit | setNeedCheck
  | setCheckedPrefixSize size => cases hhonest

/-- What holds at the beginning of a download holds throughout. -/
theorem Download.run {t0 t : Transfer} (h0 : Download n restored t0)
    (hrunning : t0.stopFlag = false) (hrun : Run (Honest n) t0 t)
    (herror : ∀ t, Run (Honest n) t0 t → CanStart t) : Download n restored t ∧
    t.stopFlag = false := by
  induction hrun with
  | refl => exact ⟨h0, hrunning⟩
  | @step t t' event hrun hallowed hhonest hstep ih =>
    obtain ⟨h, hstop⟩ := ih
    have hstop' := h.running hstop (herror t hrun) hallowed hhonest hstep
    exact ⟨h.step hallowed hhonest hstep hstop', hstop'⟩

/-! ## The number of parts -/

/-- The parts do not go far behind the end of the file. -/
structure Narrow (n : Nat) (d : PartsManager) : Prop where
  touched : ∀ (i : Nat) (status : PartStatus), d.partStatus[i]? = some status →
    status ≠ .empty → i * d.partSize < max 0x80000 (n * 2)
  /-- The last part but one was not empty when the last one was appended. -/
  count : ∀ c, d.partCount = c + 2 → c * d.partSize < max 0x80000 (n * 2)
  few : (max 0x80000 (n * 2) - 1) / d.partSize + 2 ≤
    maxPartCount + (if d.usePartCountLimit then 0 else 64)

/-- The only error of a download is that there are too many parts. -/
theorem PartsManager.startPart_error_full {error : Error}
    (h : d.startPart = some (d', .error error)) (hflag : d.knownPrefixFlag = false)
    (hoffset : d.streamingOffset = 0) :
    d.firstEmpty = d.partCount ∧
      maxPartCount + (if d.usePartCountLimit then 0 else 64) < d.partCount + 1 := by
  have hfirst : d.updateFirstEmptyPart.firstStreamingEmptyPart = d.firstEmpty := by
    rw [firstStreamingEmptyPart_eq, if_pos hoffset]
    rfl
  unfold startPart at h
  dsimp only at h
  rw [hfirst, if_neg (by
    rintro ⟨hpre, -⟩
    have hpre : d.knownPrefixFlag = true := hpre
    rw [hflag] at hpre
    cases hpre)] at h
  split at h
  · rename_i hend
    refine ⟨hend, ?_⟩
    split at h
    · by_contra hfew
      unfold startNewPart at h
      rw [if_neg (show ¬maxPartCount +
        (if d.updateFirstEmptyPart.usePartCountLimit then 0 else 64) <
        d.updateFirstEmptyPart.partCount + 1 from hfew)] at h
      exact startPartAt_ne_error h
    · split at h
      · exact absurd h startPartAt_ne_error
      · cases h
  · exact absurd h startPartAt_ne_error

namespace Narrow

variable {n : Nat} {restored : Nat → Prop} {t t' : Transfer} {event : Event}

/-- The last part is not empty if none is. -/
theorem last (h : Narrow n t.parts) (hbook : Book t.parts)
    (hfull : t.parts.firstEmpty = t.parts.partCount)
    {c : Nat} (hc : t.parts.partCount = c + 1) : c * t.parts.partSize < max 0x80000 (n * 2) := by
  have hlt : c < t.parts.firstEmpty := by omega
  rcases of_lt_firstEmpty hbook hlt with hs | hs
  · exact h.touched c _ hs (by decide)
  · exact h.touched c _ hs (by decide)

/-- **The next part can be started.** -/
theorem startPart_ne_error (h : Narrow n t.parts) (hd : Download n restored t) (d : PartsManager)
    (error : Error) : t.parts.startPart ≠ some (d, .error error) := by
  intro hstart
  obtain ⟨hfull, hmany⟩ := startPart_error_full hstart hd.knownPrefixFlag
    hd.streamingOffset
  have hfew := h.few
  cases hc : t.parts.partCount with
  | zero =>
    unfold maxPartCount at hmany
    omega
  | succ c =>
    have hlt := h.last hd.kept.book hfull hc
    have hdiv : c ≤ (max 0x80000 (n * 2) - 1) / t.parts.partSize :=
      (Nat.le_div_iff_mul_le hd.size_pos).mpr (by omega)
    omega

theorem readySize_le (hd : Download n restored t) : t.parts.readySize ≤ n := by
  calc t.parts.readySize
      = ∑ i ∈ readyParts t.parts.partStatus, blockSize t.parts.partSize n i := hd.readySize_eq
    _ ≤ ∑ i ∈ Finset.range t.parts.partCount, blockSize t.parts.partSize n i :=
        Finset.sum_le_sum_of_subset hd.kept.book.readyParts_subset
    _ ≤ n := by
        rw [sum_blockSize]
        exact min_le_left _ _

theorem expectedSize_le (hd : Download n restored t) :
    t.parts.getExpectedSize ≤ max 0x80000 (n * 2) := by
  have hsum := readySize_le hd
  unfold getExpectedSize
  cases hflag : t.parts.unknownSizeFlag with
  | true =>
    rw [if_pos rfl]
    omega
  | false =>
    rw [if_neg (by decide), (hd.known hflag).1]
    omega

theorem startPart (h : Narrow n t.parts) (hd : Download n restored t) {d : PartsManager}
    {part : Part} (hstart : t.parts.startPart = some (d, .ok part)) : Narrow n d := by
  have hfirst : t.parts.updateFirstEmptyPart.firstStreamingEmptyPart = t.parts.firstEmpty := by
    rw [firstStreamingEmptyPart_eq, if_pos hd.streamingOffset]
    rfl
  obtain ⟨m, hm, hcases⟩ := startPart_cases hstart
  have hcount : ∀ c, t.parts.partCount + m = c + 2 →
      c * t.parts.partSize < max 0x80000 (n * 2) := by
    intro c hc
    rcases hm with rfl | ⟨rfl, hend⟩
    · exact h.count c hc
    · exact h.last hd.kept.book (hfirst.symm.trans hend) (by omega)
  rcases hcases with ⟨-, rfl⟩ | ⟨i, hempty, hlimit, -, rfl⟩
  · refine ⟨?_, hcount, h.few⟩
    intro j status hj hne
    exact h.touched j status (status_of_grow hj hne) hne
  refine ⟨?_, hcount, h.few⟩
  intro j status hj hne
  rcases getElem?_set_or hempty hj with ⟨rfl, -⟩ | ⟨-, hj⟩
  · have hlt := expected_of_wanted hlimit
    exact lt_of_lt_of_le hlt (expectedSize_le hd)
  · exact h.touched j status (status_of_grow hj hne) hne

/-- A part that was not empty changes its state. -/
theorem set {d d' : PartsManager} (h : Narrow n d) {i : Nat} {old new : PartStatus}
    (hi : d.partStatus[i]? = some old) (hold : old ≠ .empty)
    (hstatus : d'.partStatus = d.partStatus.set i new) (hsize : d'.partSize = d.partSize)
    (hcount : d'.partCount = d.partCount)
    (hlimit : d'.usePartCountLimit = d.usePartCountLimit) : Narrow n d' := by
  refine ⟨?_, ?_, ?_⟩
  · intro j status hj hne
    rw [hstatus] at hj
    rw [hsize]
    rcases getElem?_set_or hi hj with ⟨rfl, -⟩ | ⟨-, hj⟩
    · exact h.touched j old hi hold
    · exact h.touched j status hj hne
  · intro c hc
    rw [hsize]
    exact h.count c (hcount.symm.trans hc)
  · rw [hsize, hlimit]
    exact h.few

theorem step (h : Narrow n t.parts) (hd : Download n restored t) (hallowed : t.Allowed event)
    (hhonest : Honest n t event) (hstep : t.step event = some t') : Narrow n t'.parts := by
  cases event with
  | startPart =>
    obtain ⟨⟨d, r⟩, hstart, rfl⟩ := Option.map_eq_some_iff.mp hstep
    cases r with
    | error error => exact absurd hstart (h.startPart_ne_error hd d error)
    | ok part =>
      rw [onStarted_parts]
      exact h.startPart hd hstart
  | partOk i actualSize =>
    cases hhonest
    obtain ⟨-, size, hasked, -⟩ := hallowed
    obtain ⟨⟨d, r⟩, hok, rfl⟩ := Option.map_eq_some_iff.mp hstep
    rw [hd.kept.askedSize_eq hasked] at hok
    have hi := (hd.kept.sized.asked i size hasked).1
    obtain ⟨d', hok'⟩ := hd.partOk_some hasked fun hunknown =>
      onPartOk_full hok hunknown
    rw [hok'] at hok
    cases hok
    cases hflag : t.parts.unknownSizeFlag with
    | true =>
      obtain ⟨-, -, minSize, maxSize, -, -, -, rfl⟩ :=
        onPartOk_unknown hok' hflag
      exact h.set hi (by decide) rfl rfl rfl rfl
    | false =>
      obtain ⟨-, -, -, rfl⟩ := onPartOk_known hok' hflag
      exact h.set hi (by decide) rfl rfl rfl rfl
  | partFailed i =>
    obtain ⟨d, hfailed, rfl⟩ := Option.map_eq_some_iff.mp hstep
    obtain ⟨hi, first, -, rfl⟩ := onPartFailed_cases hfailed
    exact h.set hi (by decide) rfl rfl rfl rfl
  | setStreamingOffset offset limit | setStreamingLimit limit | setNeedCheck
  | setCheckedPrefixSize size => cases hhonest

/-- **If there are few parts, every part can be started.** -/
theorem run {t0 : Transfer} (h0 : Narrow n t0.parts) (hd0 : Download n restored t0)
    (hrunning : t0.stopFlag = false) (hrun : Run (Honest n) t0 t) :
    CanStart t := by
  have hall : Narrow n t.parts ∧ Download n restored t ∧ t.stopFlag = false := by
    induction hrun with
    | refl => exact ⟨h0, hd0, hrunning⟩
    | @step t t' event hrun hallowed hhonest hstep ih =>
      obtain ⟨h, hd, hstop⟩ := ih
      have hstop' := hd.running hstop (h.startPart_ne_error hd) hallowed hhonest hstep
      exact ⟨h.step hd hallowed hhonest hstep, hd.step hallowed hhonest hstep hstop', hstop'⟩
  exact hall.1.startPart_ne_error hall.2.1

end Narrow

theorem foldl_max_or (parts : List Nat) (a : Nat) :
    parts.foldl (fun a b => max a (b + 1)) a = a ∨
      ∃ i ∈ parts, parts.foldl (fun a b => max a (b + 1)) a = i + 1 := by
  induction parts generalizing a with
  | nil => exact .inl rfl
  | cons i parts ih =>
    rw [List.foldl_cons]
    rcases ih (max a (i + 1)) with heq | ⟨j, hj, heq⟩
    · rw [heq]
      rcases le_total a (i + 1) with hle | hle
      · exact .inr ⟨i, List.mem_cons_self, max_eq_right hle⟩
      · exact .inl (max_eq_left hle)
    · exact .inr ⟨j, List.mem_cons_of_mem i hj, heq⟩

theorem Fresh.narrow {parts : List Nat} (h : Fresh 0 expectedSize parts d)
    (hinside : ∀ i ∈ parts, (i + 1) * d.partSize ≤ n)
    (hfew : (max 0x80000 (n * 2) - 1) / d.partSize + 2 ≤
      maxPartCount + (if d.usePartCountLimit then 0 else 64)) :
    Narrow n d := by
  have hready : ∀ i ∈ parts, i * d.partSize < max 0x80000 (n * 2) := by
    intro i hi
    have := hinside i hi
    rw [Nat.succ_mul] at this
    omega
  refine ⟨?_, ?_, hfew⟩
  · intro i status hi hne
    rcases h.status_or hi with ⟨hmem, -⟩ | ⟨-, hs⟩
    · exact hready i hmem
    · exact absurd hs hne
  intro c hc
  have hcount := h.partCount
  rw [if_pos rfl] at hcount
  rcases foldl_max_or parts 0 with hzero | ⟨i, hi, heq⟩
  · omega
  · have hlt := hready i hi
    have hmul := Nat.mul_le_mul_right d.partSize (show c ≤ i by omega)
    omega

/-- **A download of a file of unknown size completes if and only if** its size is not a multiple of
the part size or the last part was not restored. -/
theorem completes_iff {n expectedSize partSize : Nat} {parts : List Nat} {usePartCountLimit : Bool}
    {d : PartsManager}
    (hinit : PartsManager.init 0 expectedSize true partSize parts usePartCountLimit false =
      some (.ok d))
    (hnodup : parts.Nodup) (hn : 0 < n) (hfits : n + d.partSize ≤ int64Max)
    (hinside : ∀ i ∈ parts, (i + 1) * d.partSize ≤ n)
    (herror : ∀ t, Transfer.Run (Honest n) (Transfer.start d) t →
      ∀ (d' : PartsManager) (error : Error), t.parts.startPart ≠ some (d', .error error)) :
    (∀ t, Transfer.Run (Honest n) (Transfer.start d) t → Idle t →
        t.parts.ready = true ∧ t.parts.getSize = some n) ↔
      (d.partSize ∣ n → n / d.partSize - 1 ∉ parts) := by
  have hfresh := init_fresh hinit
  have h0 := hfresh.download hnodup hfits hinside
  constructor
  · intro hall hdvd hmem
    have hlow : d.partSize ≤ n := Nat.le_of_dvd hn hdvd
    have hlost : Download.Lost n (fun i => i ∈ parts) (start d) :=
      ⟨h0, hfresh.unknown, by
        show d.minSize + d.partSize ≤ n
        rw [hfresh.minSize rfl]
        omega, hdvd, hmem, rfl, rfl⟩
    obtain ⟨t, hrun, hidle, hunknown⟩ := hlost.idle .refl herror
    have hget := (hall t hrun hidle).2
    unfold getSize at hget
    rw [if_pos hunknown] at hget
    cases hget
  · intro hlast t hrun hidle
    obtain ⟨h, hstop⟩ := h0.run rfl hrun herror
    have hsize : t.parts.partSize = d.partSize := (hrun.frame hstop).partSize
    have hknown := h.idle_known hn hidle (herror t hrun) (by rw [hsize]; exact hlast)
    exact h.idle_ready hidle (herror t hrun) hknown

/-- Five bytes behind a part of 32 KB that was restored. -/
theorem completes_iff_restored :
    ∃ d, PartsManager.init 0 0 true 0x8000 [0] false false = some (.ok d) ∧
      ∀ t, Transfer.Run (Honest 0x8005) (Transfer.start d) t → Idle t →
        t.parts.ready = true ∧ t.parts.getSize = some 0x8005 := by
  have hinside : ∀ i ∈ [0], (i + 1) * firstRestored.partSize ≤ 0x8005 := by decide
  have hfresh := init_fresh init_firstRestored
  have hnarrow : Narrow 0x8005 (start firstRestored).parts := hfresh.narrow hinside (by decide)
  have hdownload := hfresh.download (by decide) (by decide) hinside
  refine ⟨firstRestored, init_firstRestored, (completes_iff init_firstRestored (by decide)
    (by decide) (by decide) hinside ?_).mpr ?_⟩
  · intro t hrun
    exact hnarrow.run hdownload rfl hrun
  · intro hdvd
    exact absurd hdvd (by decide)

/-- One part that is the whole file and was restored. The part behind it comes back without bytes,
and then nothing is left to do, but the size is not known. -/
theorem restored_file_never_completes :
    ∃ (d : PartsManager) (t : Transfer),
      PartsManager.init 0 0 true 0x8000 [0] false false = some (.ok d) ∧
      (∀ t, Transfer.Run (Honest 0x8000) (Transfer.start d) t →
        ∀ (d' : PartsManager) (error : Error), t.parts.startPart ≠ some (d', .error error)) ∧
      Transfer.Run (Honest 0x8000) (Transfer.start d) t ∧ Idle t ∧
      t.parts.ready = false ∧ t.parts.getSize = none ∧ t.parts.readySize = 0x8000 := by
  let started : PartsManager :=
    { firstRestored with
      partCount := 2, partStatus := [.ready, .pending], pendingCount := 1, firstEmptyPart := 1,
      firstStreamingEmptyPart := 1 }
  let done : PartsManager :=
    { started with partStatus := [.ready, .ready], pendingCount := 0, maxSize := 0x8000 }
  let t1 : Transfer := { start firstRestored with parts := started, partMap := [(1, 0x8000)] }
  let t2 : Transfer :=
    { t1 with parts := done, partMap := [], reported := Function.update t1.reported 1 0 }
  have hstart : firstRestored.startPart = some (started, .ok ⟨some 1, 0x8000, 0x8000⟩) :=
    by decide +kernel
  have hok : started.onPartOk 1 0x8000 0 = some (done, .ok ()) := by decide +kernel
  have hnext : ∃ m, done.startPart = some (m, .ok ⟨some 2, 0x10000, 0⟩) :=
    ⟨{ done with
      partCount := 3, partStatus := [.ready, .ready, .pending], pendingCount := 1,
      firstEmptyPart := 2, firstStreamingEmptyPart := 2 }, by decide +kernel⟩
  have hrun1 : Run (Honest 0x8000) (start firstRestored) t1 :=
    .step .startPart .refl rfl trivial (step_startPart (t := start firstRestored) hstart)
  have hrun2 : Run (Honest 0x8000) (start firstRestored) t2 :=
    .step (.partOk 1 0) hrun1 ⟨rfl, 0x8000, List.mem_singleton_self _, Nat.zero_le _⟩
      (show 0 = blockSize 0x8000 0x8000 1 by decide) (step_partOk (t := t1) hok)
  have hinside : ∀ i ∈ [0], (i + 1) * firstRestored.partSize ≤ 0x8000 := by decide
  have hfresh := init_fresh init_firstRestored
  have hnarrow : Narrow 0x8000 (start firstRestored).parts := hfresh.narrow hinside (by decide)
  have hdownload := hfresh.download (by decide) (by decide) hinside
  refine ⟨firstRestored, t2, init_firstRestored, ?_, hrun2, ⟨rfl, ?_⟩, rfl, rfl, rfl⟩
  · intro t hrun
    exact hnarrow.run hdownload rfl hrun
  intro m part hpart
  obtain ⟨m', hnext⟩ := hnext
  rw [hnext] at hpart
  cases hpart
  rfl

end Tdlib.Files
