import Tdlib.Files.Streaming

/-!
# The accounting of streaming

The counter of wanted bytes that are ready, followed through a transfer. A request for a new
streaming offset or limit sets the counter to the sum over all parts. Between two requests the parts
that are ready add up to the counter, because a part that is wanted when it becomes ready is still
wanted later, and no other part that is ready is.

If the size is not known at the beginning, this is only so for the offset 0. Otherwise the limit
goes on at the beginning of the file as soon as the size is known, and parts that were ready before
are wanted now.
-/

namespace Tdlib.Files

open Tdlib.Lib PartsManager Transfer

/-- Requests under which the accounting holds, for a file that had the size at the beginning, where
0 stands for a size that is not known. Then a limit is only set for the offset 0, and an offset that
is logged, or that is not the number of a part, is not asked for. -/
def Calm (size : Nat) (t : Transfer) : Event → Prop
  | .setStreamingOffset offset limit =>
    0 ≤ offset ∧ 0 ≤ limit ∧
      (limit ≠ 0 → offset + limit + t.parts.partSize < 0x8000000000000000) ∧
      (size = 0 → (limit ≠ 0 → offset = 0) ∧ offset / t.parts.partSize < 0x80000000 ∧
        (t.parts.unknownSizeFlag = true → t.parts.needCheck = true → offset = 0))
  | .setStreamingLimit limit =>
    0 ≤ limit ∧
      (limit ≠ 0 → t.parts.streamingOffset + limit + t.parts.partSize < 0x8000000000000000) ∧
      (size = 0 → limit ≠ 0 → t.parts.streamingOffset = 0)
  | _ => True

/-- What holds of the streaming of a file that had the size at the beginning. -/
structure Streamed (size : Nat) (d : PartsManager) : Prop where
  limit_nonneg : 0 ≤ d.streamingLimit
  small : d.streamingLimit ≠ 0 →
    d.streamingOffset + d.streamingLimit + d.partSize < 0x8000000000000000
  counted : d.streamingLimit ≠ 0 → d.streamingReadySize = d.readyInStreamingLimit
  known : size ≠ 0 →
    d.unknownSizeFlag = false ∧ d.expectedSize = d.size ∧ d.streamingOffset ≤ d.size
  learnt : size = 0 → d.expectedSize = 0 ∧ (d.streamingLimit ≠ 0 → d.streamingOffset = 0)
  /-- A part was only asked for if the file was expected to have it. -/
  reached : d.unknownSizeFlag = true → ∀ (i : Nat) (status : PartStatus),
    d.partStatus[i]? = some status → status ≠ .empty → i * d.partSize < d.maxSize →
      i * d.partSize < d.getExpectedSize

namespace PartsManager

variable {d d' : PartsManager} {i : Nat}

section

variable (hlength : d.partStatus.length = d.partCount)
  (hlength' : d'.partStatus.length = d'.partCount)
include hlength hlength'

theorem readyInStreamingLimit_congr (hready : readyParts d'.partStatus = readyParts d.partStatus)
    (hwanted : ∀ i, d'.wanted i = d.wanted i) :
    d'.readyInStreamingLimit = d.readyInStreamingLimit := by
  rw [readyInStreamingLimit_eq hlength, readyInStreamingLimit_eq hlength', hready]
  exact Finset.sum_congr rfl fun i _ => hwanted i

/-- **A part becomes ready.** The counter follows if the parts that were ready are wanted as before,
and the part itself is wanted as it was counted. -/
theorem readyInStreamingLimit_insert (hi : d.partStatus[i]? = some .pending)
    (hstatus : d'.partStatus = d.partStatus.set i .ready)
    (hwanted : ∀ j, d.partStatus[j]? = some .ready → d'.wanted j = d.wanted j) :
    d'.readyInStreamingLimit = d.readyInStreamingLimit + d'.wanted i := by
  have hnot : i ∉ readyParts d.partStatus := by
    rw [mem_readyParts, hi]
    decide
  rw [readyInStreamingLimit_eq hlength, readyInStreamingLimit_eq hlength', hstatus,
    readyParts_set_ready hi, Finset.sum_insert hnot, add_comm]
  refine congrArg (· + d'.wanted i) (Finset.sum_congr rfl ?_)
  intro j hj
  exact hwanted j (mem_readyParts.mp hj)

end

end PartsManager

namespace Streamed

variable {size : Nat} {restored : Nat → Prop} {t t' : Transfer} {d d' : PartsManager}

/-- Only a part that is expected is started. -/
abbrev Starts (d d' : PartsManager) : Prop :=
  ∀ (i : Nat) (status : PartStatus), d'.partStatus[i]? = some status → status ≠ .empty →
    d.partStatus[i]? = some status ∨ i * d.partSize < d.getExpectedSize

section

variable (h : Streamed size d) (hsame : SameWindow d d')
  (hexpected : d'.expectedSize = d.expectedSize)
include h hsame hexpected

/-- The same parts are wanted, and they are counted. -/
theorem window (hcounted : d'.streamingLimit ≠ 0 → d'.streamingReadySize = d'.readyInStreamingLimit)
    (hstarted : d.unknownSizeFlag = true → Starts d d') : Streamed size d' where
  limit_nonneg := by
    rw [hsame.limit]
    exact h.limit_nonneg
  small := by
    rw [hsame.limit, hsame.offset, hsame.partSize]
    exact h.small
  counted := hcounted
  known := by
    rw [hsame.unknown, hexpected, hsame.size, hsame.offset]
    exact h.known
  learnt := by
    rw [hexpected, hsame.limit, hsame.offset]
    exact h.learnt
  reached := by
    rw [hsame.unknown, hsame.partSize, hsame.maxSize, hsame.expected]
    intro hunknown i status hi hne hlt
    rcases hstarted hunknown i status hi hne with hi | hexpected
    · exact h.reached hunknown i status hi hne hlt
    · exact hexpected

/-- Nothing changes but parts that are not ready, and only a part that is expected is started. -/
theorem same (hcounter : d'.streamingReadySize = d.streamingReadySize)
    (hlength : d.partStatus.length = d.partCount) (hlength' : d'.partStatus.length = d'.partCount)
    (hready : readyParts d'.partStatus = readyParts d.partStatus) (hstarted : Starts d d') :
    Streamed size d' := by
  refine h.window hsame hexpected ?_ fun _ => hstarted
  rw [hsame.limit, hcounter, readyInStreamingLimit_congr hlength hlength' hready hsame.wanted]
  exact h.counted

end

variable {i actualSize asked : Nat}

theorem startPart (h : Streamed size t.parts) (hkept : Kept restored t) (hbook : Book d)
    {part : Part} (hstart : t.parts.startPart = some (d, .ok part)) : Streamed size d := by
  obtain ⟨n, -, ⟨-, rfl⟩ | ⟨i, hempty, hin, -, rfl⟩⟩ := startPart_cases hstart
  · refine h.same (.of_readySize rfl rfl rfl rfl rfl rfl rfl) rfl rfl hkept.book.length
      hbook.length readyParts_grow ?_
    intro j status hj hne
    exact .inl (status_of_grow hj hne)
  have hgrown : SameWindow t.parts (t.parts.updateFirstEmptyPart.grow n) :=
    .of_readySize rfl rfl rfl rfl rfl rfl rfl
  refine h.same (hgrown.trans (.onPartStart _ i)) rfl rfl hkept.book.length hbook.length
    ((readyParts_set_other hempty (by decide) (by decide)).trans readyParts_grow) ?_
  intro j status hj hne
  rcases getElem?_set_or hempty hj with ⟨rfl, -⟩ | ⟨-, hj⟩
  · rw [hgrown.isPartInStreamingLimit] at hin
    exact .inr (expected_of_wanted hin)
  · exact .inl (status_of_grow hj hne)

theorem partFailed (h : Streamed size t.parts) (hkept : Kept restored t)
    (hkept' : Kept restored
      { t with parts := d, partMap := t.partMap.filter fun part => part.1 ≠ i })
    (hfailed : t.parts.onPartFailed i = some d) : Streamed size d := by
  obtain ⟨hi, first, -, rfl⟩ := onPartFailed_cases hfailed
  refine h.same (.of_readySize rfl rfl rfl rfl rfl rfl rfl) rfl rfl hkept.book.length
    hkept'.book.length (readyParts_set_other hi (by decide) (by decide)) ?_
  intro j status hj hne
  rcases getElem?_set_or hi hj with ⟨-, rfl⟩ | ⟨-, hj⟩
  · exact absurd rfl hne
  · exact .inl hj

/-- The shares of the parts after one came back. -/
theorem share_self (hkept : Kept restored (t.onOk d i actualSize (.ok ())))
    (hi : d.partStatus[i]? = some .ready) : blockSize d.partSize d.totalSize i = actualSize :=
  (hkept.sized.share i hi).symm.trans (by exact Function.update_self i actualSize t.reported)

theorem share_other {j : Nat} (hkept : Kept restored (t.onOk d i actualSize (.ok ())))
    (hj : d.partStatus[j]? = some .ready) (hne : j ≠ i) :
    blockSize d.partSize d.totalSize j = t.reported j :=
  (hkept.sized.share j hj).symm.trans (by exact Function.update_of_ne hne actualSize t.reported)

section

variable (h : Streamed size t.parts) (hkept : Kept restored t)
  (hkept' : Kept restored (t.onOk d i actualSize (.ok ())))
  (hok : t.parts.onPartOk i asked actualSize = some (d, .ok ()))
include h hkept hkept' hok

/-- A part comes back and the size is known: which parts are wanted stays. -/
theorem partOk_known (hflag : t.parts.unknownSizeFlag = false) : Streamed size d := by
  obtain ⟨hi, -, -, rfl⟩ := onPartOk_known hok hflag
  have hsame : SameWindow t.parts (t.parts.onPartReady i actualSize) := by
    refine ⟨rfl, rfl, rfl, rfl, ?_, rfl, rfl⟩
    rw [getExpectedSize_known hflag]
    exact getExpectedSize_known hflag
  have hshare : ((t.parts.onPartReady i actualSize).getPart i).size = actualSize := by
    rw [getPart_size]
    exact share_self hkept' (status_set_self hi)
  refine h.window hsame rfl ?_ ?_
  · intro hlimit
    have hpos : 0 < t.parts.streamingLimit := lt_of_le_of_ne h.limit_nonneg hlimit.symm
    have hsum : (t.parts.onPartReady i actualSize).readyInStreamingLimit =
        t.parts.readyInStreamingLimit + (t.parts.onPartReady i actualSize).wanted i :=
      readyInStreamingLimit_insert hkept.book.length hkept'.book.length hi rfl
        (fun j _ => hsame.wanted j)
    rw [onPartReady_streamingReadySize, hsum, ← h.counted hlimit, wanted, hshare]
    by_cases hin : (t.parts.onPartReady i actualSize).isPartInStreamingLimit i = true
    · rw [if_pos hin, if_pos ⟨hpos, hin⟩]
    · rw [if_neg hin, if_neg fun hboth => hin hboth.2]
      rfl
  · intro hunknown
    rw [hflag] at hunknown
    cases hunknown

/-- **A part comes back and the size is not known.** It may be known now, but the offset is 0, and
so the parts that are wanted are still those before the limit. -/
theorem partOk_unknown (hflag : t.parts.unknownSizeFlag = true) : Streamed size d := by
  have hzero : size = 0 := by
    by_contra hne
    rw [(h.known hne).1] at hflag
    cases hflag
  obtain ⟨hi, -, minSize, maxSize, hmin, hmax, hbounds, hd⟩ :=
    onPartOk_unknown hok hflag
  have hpos := hkept.sized.partSize_pos
  have hle : maxSize ≤ t.parts.maxSize := by
    split at hmax <;> omega
  have hstatus : d.partStatus = t.parts.partStatus.set i .ready := by rw [hd]; rfl
  have hpartSize : d.partSize = t.parts.partSize := by rw [hd]; rfl
  have hlimit : d.streamingLimit = t.parts.streamingLimit := by rw [hd]; rfl
  have hoffset : d.streamingOffset = t.parts.streamingOffset := by rw [hd]; rfl
  have hmaxSize : d.maxSize = maxSize := by rw [hd]
  have hreadySize : d.readySize = t.parts.readySize + actualSize := by rw [hd]; rfl
  have hcounter : d.streamingReadySize = (t.parts.onPartReady i actualSize).streamingReadySize := by
    rw [hd]
  have hexpectedSize : d.expectedSize = t.parts.expectedSize := by rw [hd]; rfl
  -- what was expected is expected still
  have hexpected : ∀ j : Nat, (∃ status, t.parts.partStatus[j]? = some status ∧ status ≠ .empty) →
      j * d.partSize < d.totalSize → j * d.partSize < d.getExpectedSize := by
    intro j hj hlt
    obtain ⟨status, hj, hne⟩ := hj
    cases hflag' : d.unknownSizeFlag with
    | true =>
      rw [totalSize_unknown hflag', hpartSize] at hlt
      have hbefore := h.reached hflag j status hj hne (by omega)
      rw [getExpectedSize_unknown hflag] at hbefore
      rw [getExpectedSize_unknown hflag', hpartSize]
      omega
    | false =>
      rw [totalSize_known hflag'] at hlt
      rw [getExpectedSize_known hflag']
      exact hlt
  refine ⟨hlimit ▸ h.limit_nonneg, ?_, ?_, fun hne => absurd hzero hne, ?_, ?_⟩
  · rw [hlimit, hoffset, hpartSize]
    exact h.small
  · rw [hlimit]
    intro hne
    have hoff := (h.learnt hzero).2 hne
    have hlim : 0 < t.parts.streamingLimit := lt_of_le_of_ne h.limit_nonneg hne.symm
    have hwanted : ∀ j, (∃ status, t.parts.partStatus[j]? = some status ∧ status ≠ .empty) →
        d.wanted j = if (j * t.parts.partSize : Int) < t.parts.streamingLimit
          then blockSize d.partSize d.totalSize j else 0 := by
      intro j hj
      rw [← hpartSize, ← hlimit]
      exact wanted_zero (hoffset.trans hoff) (hlimit ▸ hlim) (hpartSize ▸ hpos)
        (hexpected j hj)
    have hsum : d.readyInStreamingLimit = t.parts.readyInStreamingLimit + d.wanted i := by
      refine readyInStreamingLimit_insert hkept.book.length hkept'.book.length hi
        hstatus ?_
      intro j hj
      have hji : j ≠ i := by
        intro heq
        rw [heq, hi] at hj
        cases hj
      have hj' : d.partStatus[j]? = some .ready := by
        rw [hstatus, List.getElem?_set_ne (Ne.symm hji)]
        exact hj
      rw [hwanted j ⟨_, hj, by decide⟩, share_other hkept' hj' hji, hkept.sized.share j hj,
        wanted_zero hoff hlim hpos]
      intro hlt
      rw [totalSize_unknown hflag] at hlt
      exact h.reached hflag j _ hj (by decide) hlt
    have hself : blockSize d.partSize d.totalSize i = actualSize := by
      refine share_self hkept' ?_
      rw [hstatus]
      exact status_set_self hi
    rw [hsum, ← h.counted hne, hcounter, onPartReady_streamingReadySize,
      hwanted i ⟨_, hi, by decide⟩, hself]
    by_cases hnone : actualSize = 0
    · rw [hnone, ite_self, add_zero, ite_self]
    -- a part with bytes begins before the upper bound
    have hlt : i * t.parts.partSize < t.parts.maxSize := by
      rw [if_pos hnone, mul_comm] at hmin
      omega
    have hin : (t.parts.onPartReady i actualSize).isPartInStreamingLimit i = true ↔
        (i * t.parts.partSize : Int) < t.parts.streamingLimit := by
      have hflag' : (t.parts.onPartReady i actualSize).unknownSizeFlag = true := hflag
      refine isPartInStreamingLimit_zero hoff hlim hpos ?_ ?_
      · rw [totalSize_unknown hflag']
        exact hlt
      have hbefore := h.reached hflag i _ hi (by decide) hlt
      rw [getExpectedSize_unknown hflag] at hbefore
      rw [getExpectedSize_unknown hflag']
      refine lt_of_lt_of_le hbefore ?_
      show max 0x80000 (t.parts.readySize * 2) ≤ max 0x80000 ((t.parts.readySize + actualSize) * 2)
      omega
    by_cases hbefore : (i * t.parts.partSize : Int) < t.parts.streamingLimit
    · rw [if_pos hbefore, if_pos ⟨hlim, hin.mpr hbefore⟩]
    · rw [if_neg hbefore, if_neg fun hboth => hbefore (hin.mp hboth.2)]
      rfl
  · rw [hexpectedSize, hlimit, hoffset]
    exact h.learnt
  · intro hflag' j status hj hne hlt
    rw [hstatus] at hj
    rw [← totalSize_unknown hflag'] at hlt
    rcases getElem?_set_or hi hj with ⟨rfl, -⟩ | ⟨-, hj⟩
    · exact hexpected j ⟨_, hi, by decide⟩ hlt
    · exact hexpected j ⟨_, hj, hne⟩ hlt

end

/-- **A new limit** sets the counter to the sum over all parts. -/
theorem setStreamingLimit {limit : Int} (hlength : d.partStatus.length = d.partCount)
    (hnonneg : 0 ≤ limit)
    (hsmall : limit ≠ 0 → d.streamingOffset + limit + d.partSize < 0x8000000000000000)
    (hknown : size ≠ 0 →
      d.unknownSizeFlag = false ∧ d.expectedSize = d.size ∧ d.streamingOffset ≤ d.size)
    (hlearnt : size = 0 → d.expectedSize = 0 ∧ (limit ≠ 0 → d.streamingOffset = 0))
    (hreached : d.unknownSizeFlag = true → ∀ (i : Nat) (status : PartStatus),
      d.partStatus[i]? = some status → status ≠ .empty → i * d.partSize < d.maxSize →
        i * d.partSize < d.getExpectedSize) : Streamed size (d.setStreamingLimit limit) where
  limit_nonneg := hnonneg
  small := hsmall
  counted := by
    intro hne
    have hsame : SameWindow { d with streamingLimit := limit }
        (d.setStreamingLimit limit) := .of_readySize rfl rfl rfl rfl rfl rfl rfl
    have hsum : (d.setStreamingLimit limit).readyInStreamingLimit =
        readyInStreamingLimit { d with streamingLimit := limit } :=
      readyInStreamingLimit_congr hlength hlength (by rfl)
        hsame.wanted
    rw [hsum]
    exact if_neg hne
  known := hknown
  learnt := hlearnt
  reached := hreached

/-- **A new offset** is 0 if it is ignored, and it is not behind the end of the file. -/
theorem setStreamingOffset (h : Streamed size d) (hbook : Book d) (hbook' : Book d')
    {offset limit : Int} {r : Nat}
    (hset : d.setStreamingOffset offset limit = some (d', r)) (hnonneg : 0 ≤ offset)
    (hlimit : 0 ≤ limit)
    (hsmall : limit ≠ 0 → offset + limit + d.partSize < 0x8000000000000000)
    (hzero : size = 0 → limit ≠ 0 → offset = 0) : Streamed size d' := by
  obtain ⟨n, off, first, notReady, rfl, hcases⟩ := setStreamingOffset_cases hset
  have hle : (off : Int) ≤ offset := by
    rcases hcases with ⟨rfl, -⟩ | ⟨rfl, -⟩
    · exact hnonneg
    · exact le_rfl
  have hlength : (d.grow n).partStatus.length = (d.grow n).partCount := (hbook.grow n).length
  have hstreamed : Streamed size ({ d.grow n with
      streamingOffset := off
      firstStreamingEmptyPart := first
      firstStreamingNotReadyPart := notReady }.setStreamingLimit limit) := by
    refine setStreamingLimit hlength hlimit ?_ ?_ ?_ ?_
    · intro hne
      have := hsmall hne
      show off + limit + d.partSize < _
      omega
    · intro hne
      obtain ⟨hflag, hexpected, -⟩ := h.known hne
      refine ⟨hflag, hexpected, ?_⟩
      rcases hcases with ⟨rfl, -⟩ | ⟨-, -, -, hsize⟩
      · exact Nat.zero_le _
      · exact hsize hflag
    · intro heq
      refine ⟨(h.learnt heq).1, ?_⟩
      intro hne
      show off = 0
      have := hzero heq hne
      omega
    · intro hflag j status hj hne
      exact h.reached hflag j status (status_of_grow hj hne) hne
  exact hstreamed.same (.of_readySize rfl rfl rfl rfl rfl rfl rfl) rfl rfl hlength hbook'.length rfl
    (fun _ _ hi _ => .inl hi)

/-- **Every calm step keeps the accounting.** -/
theorem step (h : Streamed size t.parts) (hkept : Kept restored t) (hkept' : Kept restored t')
    {event : Event} (hcalm : Calm size t event) (hstep : t.step event = some t')
    (hstop : t'.stopFlag = false) : Streamed size t'.parts := by
  cases event with
  | startPart =>
    obtain ⟨⟨d, r⟩, hstart, rfl⟩ := Option.map_eq_some_iff.mp hstep
    have hparts : (t.onStarted d r).parts = d := onStarted_parts t d r
    have hbook : Book d := hparts ▸ hkept'.book
    rw [hparts]
    cases r with
    | ok part => exact h.startPart hkept hbook hstart
    | error error =>
      have hcode : error.code = 1 := not_not.mp (of_decide_eq_false hstop)
      obtain rfl := startPart_error hstart hcode
      exact h.same (.of_readySize rfl rfl rfl rfl rfl rfl rfl) rfl rfl hkept.book.length
        hkept.book.length rfl (fun _ _ hi _ => .inl hi)
  | partOk i actualSize =>
    obtain ⟨⟨d, r⟩, hok, rfl⟩ := Option.map_eq_some_iff.mp hstep
    cases r with
    | ok =>
      cases hflag : t.parts.unknownSizeFlag with
      | true => exact h.partOk_unknown hkept hkept' hok hflag
      | false => exact h.partOk_known hkept hkept' hok hflag
    | error error => cases hstop
  | partFailed i =>
    obtain ⟨d, hfailed, rfl⟩ := Option.map_eq_some_iff.mp hstep
    exact h.partFailed hkept hkept' hfailed
  | setStreamingOffset offset limit =>
    obtain ⟨⟨d, r⟩, hset, rfl⟩ := Option.map_eq_some_iff.mp hstep
    obtain ⟨hnonneg, hlimit, hsmall, hzero⟩ := hcalm
    exact h.setStreamingOffset hkept.book hkept'.book hset hnonneg hlimit hsmall
      fun heq => (hzero heq).1
  | setStreamingLimit limit =>
    cases hstep
    obtain ⟨hlimit, hsmall, hzero⟩ := hcalm
    exact setStreamingLimit hkept.book.length hlimit hsmall h.known
      (fun heq => ⟨(h.learnt heq).1, hzero heq⟩) h.reached
  | setNeedCheck =>
    obtain ⟨d, r, hset, rfl⟩ := step_setNeedCheck hstep
    have hchecked : Streamed size { t.parts with needCheck := true } :=
      h.same (.of_readySize rfl rfl rfl rfl rfl rfl rfl) rfl rfl hkept.book.length
        hkept.book.length rfl (fun _ _ hi _ => .inl hi)
    have hbook : Book { t.parts with needCheck := true } := { hkept.book with }
    exact hchecked.setStreamingOffset hbook hkept'.book hset (by decide) (by decide)
      (fun hne => absurd rfl hne) (fun _ _ => rfl)
  | setCheckedPrefixSize checked =>
    cases hstep
    exact h.same (.of_readySize rfl rfl rfl rfl rfl rfl rfl) rfl rfl hkept.book.length
      hkept.book.length rfl (fun _ _ hi _ => .inl hi)

/-- The accounting at the beginning. -/
theorem start {parts : List Nat} (hfresh : Fresh size size parts d) (hnodup : parts.Nodup)
    (hfirst : size = 0 → ∀ i ∈ parts, ∀ j < i, j ∈ parts) : Streamed size d where
  limit_nonneg := hfresh.streamingLimit.ge
  small := fun hne => absurd hfresh.streamingLimit hne
  counted := fun hne => absurd hfresh.streamingLimit hne
  known := by
    intro hne
    refine ⟨hfresh.unknown.trans (decide_eq_false hne), ?_, ?_⟩
    · rw [hfresh.expectedSize_eq, hfresh.size_eq]
    · rw [hfresh.streamingOffset]
      exact Nat.zero_le _
  learnt := by
    intro hzero
    exact ⟨hfresh.expectedSize_eq.trans hzero, fun _ => hfresh.streamingOffset⟩
  reached := by
    intro hflag i status hi hne hlt
    have hzero : size = 0 := by
      rw [hfresh.unknown] at hflag
      exact of_decide_eq_true hflag
    have hmem : i ∈ parts := by
      rcases hfresh.status_or hi with ⟨hmem, -⟩ | ⟨-, rfl⟩
      · exact hmem
      · exact absurd rfl hne
    -- the parts before it are ready as well
    have hsub : Finset.range (i + 1) ⊆ readyParts d.partStatus := by
      intro j hj
      rw [mem_readyParts, hfresh.ready_iff]
      rcases lt_or_eq_of_le (Nat.le_of_lt_succ (Finset.mem_range.mp hj)) with hlt | rfl
      · exact hfirst hzero i hmem j hlt
      · exact hmem
    have hsum := Finset.sum_le_sum_of_subset (f := fun j => (d.getPart j).size) hsub
    rw [← hfresh.counted hnodup] at hsum
    simp only [getPart_size] at hsum
    rw [sum_blockSize, totalSize_unknown hflag, Nat.succ_mul] at hsum
    rw [getExpectedSize_unknown hflag]
    omega

/-- **`get_estimated_extra` fails no check.** -/
theorem getEstimatedExtra (h : Streamed size t.parts) (hkept : Kept restored t) :
    ∃ extra, t.parts.getEstimatedExtra = some extra := by
  unfold PartsManager.getEstimatedExtra
  by_cases hne : t.parts.streamingLimit = 0
  · rw [if_neg (not_not.mpr hne)]
    exact ⟨_, rfl⟩
  rw [if_pos hne, if_neg (not_not.mpr (h.counted hne).symm)]
  have hlength := hkept.book.length
  have hpos := hkept.sized.partSize_pos
  have hlimit : 0 < t.parts.streamingLimit := lt_of_le_of_ne h.limit_nonneg (Ne.symm hne)
  have hsmall := h.small hne
  have hle : (t.parts.readyInStreamingLimit : Int) ≤ t.parts.streamingSize := by
    by_cases hzero : size = 0
    · obtain ⟨hexpected, hoffset⟩ := h.learnt hzero
      have hoffset := hoffset hne
      refine le_streamingSize_zero hlength hpos hexpected hoffset hlimit (by omega) ?_
      refine (readyInStreamingLimit_le hlength _ fun i hi _ => hi).trans ?_
      rw [hkept.counted]
      refine Finset.sum_le_sum ?_
      intro i hi
      rw [hkept.sized.share i (mem_readyParts.mp hi)]
    · obtain ⟨hflag, hexpected, hoffset⟩ := h.known hzero
      exact le_streamingSize_known hlength hpos hflag hexpected hoffset hlimit hsmall
  rw [if_neg (by rw [h.counted hne]; omega)]
  exact ⟨_, rfl⟩

end Streamed

/-! ## Runs -/

namespace PartsManager

variable {d d' : PartsManager}

/-- A new offset fails no check if the size can be logged and the offset is in a part. -/
theorem setStreamingOffset_some {offset limit : Int} (hnonneg : 0 ≤ offset)
    (hlogged : d.unknownSizeFlag = true → d.needCheck = true → offset = 0)
    (hpart : d.unknownSizeFlag = false ∧ d.size < 0x80000000 ∨
      offset / d.partSize < 0x80000000) : ∃ r, d.setStreamingOffset offset limit = some r := by
  unfold setStreamingOffset
  split
  · rename_i hignored
    split
    · rename_i hlog
      exfalso
      have hflag : d.unknownSizeFlag = true := by
        by_contra hknown
        have hget := hlog.2
        unfold getSize at hget
        rw [if_neg hknown] at hget
        cases hget
      rcases hignored with hneg | hcheck | ⟨hknown, -⟩
      · omega
      · exact hlog.1 (hlogged hflag hcheck)
      · exact hknown hflag
    · exact ⟨_, rfl⟩
  rename_i hused
  dsimp only
  split
  · exact ⟨_, rfl⟩
  rw [if_neg]
  · exact ⟨_, rfl⟩
  intro hbig
  rcases hpart with ⟨hknown, hsize⟩ | hpart
  · have hle : offset ≤ d.size := by
      by_contra hgt
      refine hused (.inr (.inr ⟨?_, by omega⟩))
      rw [hknown]
      decide
    have := Nat.div_le_self offset.toNat d.partSize
    omega
  · obtain ⟨n, rfl⟩ := Int.eq_ofNat_of_zero_le hnonneg
    rw [Int.toNat_natCast] at hbig
    omega

theorem startPart_size {r : Except Error Part} (h : d.startPart = some (d', r))
    (hflag : d.unknownSizeFlag = false) : d'.unknownSizeFlag = false ∧ d'.size = d.size := by
  have hat : ∀ i, d.updateFirstEmptyPart.startPartAt i = some (d', r) →
      d'.unknownSizeFlag = false ∧ d'.size = d.size := by
    intro i h
    obtain ⟨_, -, ⟨-, rfl⟩ | ⟨i, -, -, -, rfl⟩⟩ := startPartAt_cases h <;> exact ⟨hflag, rfl⟩
  unfold startPart at h
  dsimp only at h
  split at h
  · cases h
    exact ⟨hflag, rfl⟩
  split at h
  · split at h
    · rename_i hunknown
      have hunknown : d.unknownSizeFlag = true := hunknown
      rw [hflag] at hunknown
      cases hunknown
    · split at h
      · exact hat _ h
      · cases h
        exact ⟨hflag, rfl⟩
  · exact hat _ h

theorem onPartOk_size {i asked actualSize : Nat} {r : Except Error Unit}
    (h : d.onPartOk i asked actualSize = some (d', r)) (hflag : d.unknownSizeFlag = false) :
    d'.unknownSizeFlag = false ∧ d'.size = d.size := by
  unfold onPartOk at h
  split at h
  · cases h
  rw [if_neg (show ¬(d.onPartReady i actualSize).unknownSizeFlag = true by
    show ¬d.unknownSizeFlag = true
    rw [hflag]
    decide)] at h
  split at h
  · cases h
    exact ⟨hflag, rfl⟩
  · cases h
    exact ⟨hflag, rfl⟩

/-- The manager of a file that is not too big. -/
theorem init_size_le {size expectedSize partSize : Nat} {parts : List Nat}
    {usePartCountLimit isUpload : Bool}
    (h : init size expectedSize true partSize parts usePartCountLimit isUpload = some (.ok d)) :
    size ≤ maxFileSize := by
  unfold init at h
  split at h
  · cases h
  split at h
  · cases h
  omega

end PartsManager

namespace Transfer

variable {t t' : Transfer} {event : Event}

/-- A size that is known stays, also when a step stops the transfer. -/
theorem size_of_step (hstep : t.step event = some t') (hflag : t.parts.unknownSizeFlag = false) :
    t'.parts.unknownSizeFlag = false ∧ t'.parts.size = t.parts.size := by
  have hoffset : ∀ {d d' : PartsManager} {offset limit : Int} {r : Nat},
      d.setStreamingOffset offset limit = some (d', r) →
      d'.unknownSizeFlag = d.unknownSizeFlag ∧ d'.size = d.size := by
    intro d d' offset limit r hset
    obtain ⟨n, off, first, notReady, rfl, -⟩ := setStreamingOffset_cases hset
    exact ⟨rfl, rfl⟩
  cases event with
  | startPart =>
    obtain ⟨⟨d, r⟩, hstart, rfl⟩ := Option.map_eq_some_iff.mp hstep
    rw [onStarted_parts]
    exact startPart_size hstart hflag
  | partOk i actualSize =>
    obtain ⟨⟨d, r⟩, hok, rfl⟩ := Option.map_eq_some_iff.mp hstep
    have hsize := onPartOk_size hok hflag
    cases r with
    | ok | error error => exact hsize
  | partFailed i =>
    obtain ⟨d, hfailed, rfl⟩ := Option.map_eq_some_iff.mp hstep
    obtain ⟨-, first, -, rfl⟩ := onPartFailed_cases hfailed
    exact ⟨hflag, rfl⟩
  | setStreamingOffset offset limit =>
    obtain ⟨⟨d, r⟩, hset, rfl⟩ := Option.map_eq_some_iff.mp hstep
    exact ⟨(hoffset hset).1.trans hflag, (hoffset hset).2⟩
  | setStreamingLimit limit | setCheckedPrefixSize size =>
    cases hstep
    exact ⟨hflag, rfl⟩
  | setNeedCheck =>
    obtain ⟨d, r, hset, rfl⟩ := step_setNeedCheck hstep
    exact ⟨(hoffset hset).1.trans hflag, (hoffset hset).2⟩

theorem Run.size {ok : Transfer → Event → Prop} {t0 : Transfer} (h : Run ok t0 t)
    (hflag : t0.parts.unknownSizeFlag = false) :
    t.parts.unknownSizeFlag = false ∧ t.parts.size = t0.parts.size := by
  induction h with
  | refl => exact ⟨hflag, rfl⟩
  | step event hrun hallowed hok hstep ih =>
    obtain ⟨hunknown, hsize⟩ := size_of_step hstep ih.1
    exact ⟨hunknown, hsize.trans ih.2⟩

end Transfer

/-- The accounting holds in every calm transfer that was not stopped. -/
theorem Streamed.run {size : Nat} {parts : List Nat} {d : PartsManager} {t : Transfer}
    (hfresh : Fresh size size parts d) (hnodup : parts.Nodup)
    (hfirst : size = 0 → ∀ i ∈ parts, ∀ j < i, j ∈ parts)
    (hrun : Run (Calm size) (Transfer.start d) t) (hstop : t.stopFlag = false) :
    Streamed size t.parts := by
  induction hrun with
  | refl => exact Streamed.start hfresh hnodup hfirst
  | @step t t' event hrun hallowed hcalm hstep ih =>
    have hrunning := running_of_step hallowed hstep hstop
    have hkept := hrun.kept_of_fresh hfresh hnodup hfirst hrunning
    have hkept' := (hrun.step event hallowed hcalm hstep).kept_of_fresh hfresh hnodup hfirst hstop
    exact (ih hrunning).step hkept hkept' hcalm hstep hstop

/-- **The accounting of streaming fails no check** while the requests are calm, if the restored
parts of a file of unknown size are at its beginning. -/
theorem streaming_accounts {size partSize : Nat} {parts : List Nat} {usePartCountLimit : Bool}
    {d : PartsManager} {t : Transfer}
    (hinit : PartsManager.init size size true partSize parts usePartCountLimit false =
      some (.ok d))
    (hnodup : parts.Nodup) (hfirst : size = 0 → ∀ i ∈ parts, ∀ j < i, j ∈ parts)
    (hrun : Transfer.Run (Calm size) (Transfer.start d) t) :
    (t.stopFlag = false → ∃ extra, t.parts.getEstimatedExtra = some extra) ∧
    (∀ offset limit : Int, Calm size t (.setStreamingOffset offset limit) →
      ∃ r, t.parts.setStreamingOffset offset limit = some r) ∧
    ∃ d', t.parts.setNeedCheck = some d' := by
  have hfresh := init_fresh hinit
  refine ⟨?_, ?_, ?_⟩
  · intro hstop
    exact (Streamed.run hfresh hnodup hfirst hrun hstop).getEstimatedExtra
      (hrun.kept_of_fresh hfresh hnodup hfirst hstop)
  · intro offset limit hcalm
    obtain ⟨hnonneg, -, -, hzero⟩ := hcalm
    by_cases hsize : size = 0
    · obtain ⟨-, hpart, hlogged⟩ := hzero hsize
      exact setStreamingOffset_some hnonneg hlogged (.inr hpart)
    obtain ⟨hflag, heq⟩ := hrun.size (hfresh.unknown.trans (decide_eq_false hsize))
    have hle := init_size_le hinit
    refine setStreamingOffset_some hnonneg ?_ (.inl ⟨hflag, ?_⟩)
    · intro hunknown
      rw [hflag] at hunknown
      cases hunknown
    · rw [heq]
      show d.size < _
      rw [hfresh.size_eq]
      exact lt_of_le_of_lt hle (by decide)
  · have hsome : ∃ r, ({ t.parts with needCheck := true } : PartsManager).setStreamingOffset 0 0 =
        some r :=
      setStreamingOffset_some (by decide) (fun _ _ => rfl) (.inr (by simp))
    obtain ⟨r, hr⟩ := hsome
    refine ⟨r.1, ?_⟩
    unfold setNeedCheck
    rw [hr]
    rfl

/-- Two bytes of a file of three bytes are wanted, and its only part comes. -/
theorem streaming_accounts_three_bytes :
    ∃ (d : PartsManager) (t : Transfer),
      PartsManager.init 3 3 true 0x8000 [] false false = some (.ok d) ∧
      Transfer.Run (Calm 3) (Transfer.start d) t ∧ t.parts.streamingLimit = 2 ∧
      t.parts.streamingReadySize = 3 ∧ ∃ extra, t.parts.getEstimatedExtra = some extra := by
  let d : PartsManager :=
    { size := 3, expectedSize := 3, partSize := 0x8000, partCount := 1, partStatus := [.empty] }
  let wanted : PartsManager := { d with streamingOffset := 1, streamingLimit := 2 }
  let started : PartsManager := { wanted with partStatus := [.pending], pendingCount := 1 }
  let done : PartsManager :=
    { wanted with partStatus := [.ready], readySize := 3, streamingReadySize := 3 }
  let t1 : Transfer := { Transfer.start d with parts := wanted }
  let t2 : Transfer := { t1 with parts := started, partMap := [(0, 3)] }
  let t3 : Transfer :=
    { t2 with parts := done, partMap := [], reported := Function.update t2.reported 0 3 }
  have hinit : init 3 3 true 0x8000 [] false false = some (.ok d) := by decide +kernel
  have hset : d.setStreamingOffset 1 2 = some (wanted, 0) := by decide +kernel
  have hstart : wanted.startPart = some (started, .ok ⟨some 0, 0, 3⟩) := by decide +kernel
  have hok : started.onPartOk 0 3 3 = some (done, .ok ()) := by decide +kernel
  have hrun1 : Run (Calm 3) (Transfer.start d) t1 :=
    .step (.setStreamingOffset 1 2) .refl trivial ⟨by decide, by decide, fun _ => by decide, nofun⟩
      (step_setStreamingOffset hset)
  have hrun2 : Run (Calm 3) (Transfer.start d) t2 :=
    .step .startPart hrun1 rfl trivial (step_startPart (t := t1) hstart)
  have hrun3 : Run (Calm 3) (Transfer.start d) t3 :=
    .step (.partOk 0 3) hrun2 ⟨rfl, 3, List.mem_singleton_self _, le_rfl⟩ trivial
      (step_partOk (t := t2) hok)
  have haccounts := streaming_accounts hinit List.nodup_nil nofun hrun3
  exact ⟨d, t3, hinit, hrun3, rfl, rfl, haccounts.1 rfl⟩

/-- The offsets and limits a user can ask for. -/
def NonNegative (_ : Transfer) : Event → Prop
  | .setStreamingOffset offset limit => 0 ≤ offset ∧ 0 ≤ limit
  | .setStreamingLimit limit => 0 ≤ limit
  | _ => True

/-- A file of unknown size whose first part was restored is streamed from its second part on. The
second part is short, so the size is known, the limit goes on at the beginning of the file, and the
first part is wanted, but it was not counted. -/
theorem streaming_miscounts :
    ∃ (d : PartsManager) (t : Transfer),
      PartsManager.init 0 0 true 0x8000 [0] false false = some (.ok d) ∧
      Transfer.Run NonNegative (Transfer.start d) t ∧ t.stopFlag = false ∧
      t.parts.readyInStreamingLimit ≠ t.parts.streamingReadySize ∧
      t.parts.getEstimatedExtra = none := by
  let streaming : PartsManager :=
    { firstRestored with
      streamingOffset := 0x8000, streamingLimit := 0x18000, firstStreamingEmptyPart := 1 }
  let started : PartsManager :=
    { streaming with
      partCount := 2, partStatus := [.ready, .pending], pendingCount := 1, firstEmptyPart := 1 }
  let done : PartsManager :=
    { started with
      partStatus := [.ready, .ready], pendingCount := 0, readySize := 0xc000,
      streamingReadySize := 0x4000, minSize := 0xc000, maxSize := 0xc000, size := 0xc000,
      unknownSizeFlag := false }
  let t1 : Transfer := { Transfer.start firstRestored with parts := streaming }
  let t2 : Transfer := { t1 with parts := started, partMap := [(1, 0x8000)] }
  let t3 : Transfer :=
    { t2 with parts := done, partMap := [], reported := Function.update t2.reported 1 0x4000 }
  have hset : firstRestored.setStreamingOffset 0x8000 0x18000 = some (streaming, 1) :=
    by decide +kernel
  have hstart : streaming.startPart = some (started, .ok ⟨some 1, 0x8000, 0x8000⟩) := by
    decide +kernel
  have hok : started.onPartOk 1 0x8000 0x4000 = some (done, .ok ()) := by decide +kernel
  have hcount : done.readyInStreamingLimit ≠ done.streamingReadySize := by decide +kernel
  have hextra : done.getEstimatedExtra = none := by decide +kernel
  have hrun1 : Run NonNegative (Transfer.start firstRestored) t1 :=
    .step (.setStreamingOffset 0x8000 0x18000) .refl trivial ⟨by decide, by decide⟩
      (step_setStreamingOffset hset)
  have hrun2 : Run NonNegative (Transfer.start firstRestored) t2 :=
    .step .startPart hrun1 rfl trivial (step_startPart (t := t1) hstart)
  have hrun3 : Run NonNegative (Transfer.start firstRestored) t3 :=
    .step (.partOk 1 0x4000) hrun2 ⟨rfl, 0x8000, List.mem_singleton_self _, by decide⟩
      trivial (step_partOk (t := t2) hok)
  exact ⟨firstRestored, t3, init_firstRestored, hrun3, rfl, hcount, hextra⟩

end Tdlib.Files
