import Tdlib.Files.Downloader
import Tdlib.Files.Complete

/-!
# A download that is checked is what the data centre has

When a download that is checked ends, every byte of the file that was not ready at the beginning is
in a block whose hash was compared with the file, after everything that was written to the block.

A block is compared when the parts before its end are ready, and a part that is ready is never
written again. Only the last block may reach behind that, if everything is ready. Then the download
has as many bytes as the file, and as every further write adds bytes, there is none in a download
that ends.
-/

namespace Tdlib.Files

open List Tdlib.Lib PartsManager
open Option (bind_eq_some_iff map_eq_some_iff)

/-- A write to a byte of the block. -/
def Action.Touches (info : HashInfo) : Action → Prop
  | .write offset bytes => ∃ y, offset ≤ y ∧ y < offset + bytes.length ∧
      info.offset ≤ y ∧ y < info.offset + info.size
  | .check _ _ => False

/-! ## What happens to the parts -/

/-- What no step of a download does: change the size of the parts, take back a part that is ready,
forget a size that is known, or lose bytes. -/
structure Keeps (d d' : PartsManager) : Prop where
  partSize : d'.partSize = d.partSize
  ready : ∀ i : Nat, d.partStatus[i]? = some .ready → d'.partStatus[i]? = some .ready
  known : d.unknownSizeFlag = false → d'.unknownSizeFlag = false ∧ d'.size = d.size
  readySize : d.readySize ≤ d'.readySize

/-- What holds of the parts of a download. -/
structure Tidy (d : PartsManager) (partMap : List (Nat × Nat)) : Prop where
  partSize_pos : 0 < d.partSize
  /-- A part under way is not ready, and not greater than a part. -/
  asked : ∀ i size : Nat, (i, size) ∈ partMap →
    d.partStatus[i]? = some .pending ∧ size ≤ d.partSize
  /-- The cursor has only passed parts that are ready. -/
  skipped : ∀ i < d.firstNotReadyPart, d.partStatus[i]? = some .ready

section Steps

variable {d d' : PartsManager} {partMap : List (Nat × Nat)}

/-- Only cursors and the streaming change, and parts are appended. -/
theorem Tidy.grow (h : Tidy d partMap) {n : Nat} (hstatus : d'.partStatus = (d.grow n).partStatus)
    (hpartSize : d'.partSize = d.partSize)
    (hcursor : d'.firstNotReadyPart = d.firstNotReadyPart ∨
      d'.firstNotReadyPart =
        skipWhile (fun status => status = .ready) d'.partStatus d.firstNotReadyPart) :
    Tidy d' partMap := by
  have hkeep : ∀ (i : Nat) (status : PartStatus), d.partStatus[i]? = some status →
      d'.partStatus[i]? = some status := by
    intro i status hi
    rw [hstatus]
    exact status_grow hi
  refine ⟨hpartSize ▸ h.partSize_pos, ?_, ?_⟩
  · intro i size hmem
    obtain ⟨hi, hle⟩ := h.asked i size hmem
    exact ⟨hkeep i _ hi, hpartSize ▸ hle⟩
  intro i hi
  rcases lt_or_ge i d.firstNotReadyPart with hlt | hge
  · exact hkeep i _ (h.skipped i hlt)
  rcases hcursor with heq | heq
  · omega
  · rw [heq] at hi
    have hget := getElem?_eq_getElem (lt_length_of_lt_skipWhile hge hi)
    have hready := of_lt_skipWhile hge hi hget
    rw [hget, of_decide_eq_true hready]

theorem PartsManager.setStreamingOffset_keeps {offset limit : Int} {r : Nat}
    (h : d.setStreamingOffset offset limit = some (d', r)) :
    Keeps d d' ∧ (∀ partMap, Tidy d partMap → Tidy d' partMap) ∧
      d'.checkedPrefixSize = d.checkedPrefixSize ∧ d'.needCheck = d.needCheck := by
  obtain ⟨n, off, first, notReady, rfl, -⟩ := setStreamingOffset_cases h
  exact ⟨⟨rfl, fun i hi => status_grow hi, fun hflag => ⟨hflag, rfl⟩, le_rfl⟩,
    fun _ ht => ht.grow rfl rfl (.inr rfl), rfl, rfl⟩

/-- What starting a part does. -/
theorem PartsManager.startPart_keeps {part : Part} (h : d.startPart = some (d', .ok part))
    (ht : Tidy d partMap) :
    Keeps d d' ∧ d'.checkedPrefixSize = d.checkedPrefixSize ∧ Tidy d' partMap ∧
      ∀ i, part.id = some i → d'.partStatus[i]? = some .pending ∧ part.size ≤ d'.partSize := by
  obtain ⟨n, -, ⟨rfl, rfl⟩ | ⟨i, hempty, -, rfl, rfl⟩⟩ := startPart_cases h
  · refine ⟨⟨rfl, fun i hi => status_grow hi, fun hflag => ⟨hflag, rfl⟩, le_rfl⟩, rfl,
      ht.grow rfl rfl (.inl rfl), ?_⟩
    intro i hi
    cases hi
  have hgrown : Tidy (d.updateFirstEmptyPart.grow n) partMap := ht.grow rfl rfl (.inl rfl)
  -- only an empty part changes
  have hkeep : ∀ (j : Nat) (status : PartStatus),
      (d.updateFirstEmptyPart.grow n).partStatus[j]? = some status → status ≠ .empty →
      ((d.updateFirstEmptyPart.grow n).onPartStart i).partStatus[j]? = some status := by
    exact fun j status hj hne => getElem?_set_other hempty hj hne.symm
  refine ⟨⟨rfl, fun j hj => hkeep j _ (status_grow hj) (by decide), fun hflag => ⟨hflag, rfl⟩,
    le_rfl⟩, rfl, ⟨ht.partSize_pos, ?_, ?_⟩, ?_⟩
  · intro j size hmem
    obtain ⟨hj, hle⟩ := hgrown.asked j size hmem
    exact ⟨hkeep j _ hj (by decide), hle⟩
  · intro j hj
    exact hkeep j _ (hgrown.skipped j hj) (by decide)
  · intro j hj
    cases hj
    refine ⟨status_set_self hempty, ?_⟩
    rw [getPart_size]
    exact blockSize_le

/-- The status of a part under way changes, and nothing else is taken back. -/
theorem Tidy.set {i : Nat} {new : PartStatus} (h : Tidy d partMap)
    (hi : d.partStatus[i]? = some .pending) (hstatus : d'.partStatus = d.partStatus.set i new)
    (hpartSize : d'.partSize = d.partSize) (hcursor : d'.firstNotReadyPart = d.firstNotReadyPart)
    (hknown : d.unknownSizeFlag = false → d'.unknownSizeFlag = false ∧ d'.size = d.size)
    (hreadySize : d.readySize ≤ d'.readySize) :
    Keeps d d' ∧ Tidy d' (partMap.filter fun part => part.1 ≠ i) := by
  have hready : ∀ j : Nat, d.partStatus[j]? = some .ready → d'.partStatus[j]? = some .ready := by
    intro j hj
    rw [hstatus]
    exact getElem?_set_other hi hj (by decide)
  refine ⟨⟨hpartSize, hready, hknown, hreadySize⟩, hpartSize ▸ h.partSize_pos, ?_, ?_⟩
  · intro j size hmem
    obtain ⟨hmem, hne⟩ := Sized.mem_without.mp hmem
    rw [hstatus, hpartSize, getElem?_set_ne (Ne.symm hne)]
    exact h.asked j size hmem
  · rw [hcursor]
    exact fun j hj => hready j (h.skipped j hj)

/-- What a part that came back does. -/
theorem PartsManager.onPartOk_keeps {i asked actualSize : Nat}
    (h : d.onPartOk i asked actualSize = some (d', .ok ())) (ht : Tidy d partMap) :
    d'.checkedPrefixSize = d.checkedPrefixSize ∧ d'.readySize = d.readySize + actualSize ∧
      Keeps d d' ∧ Tidy d' (partMap.filter fun part => part.1 ≠ i) := by
  obtain ⟨hi, minSize, maxSize, flag, size, rfl, hknown⟩ := onPartOk_ready h
  exact ⟨rfl, rfl, ht.set hi rfl rfl rfl hknown (Nat.le_add_right _ _)⟩

/-- What a part that is started again does. -/
theorem PartsManager.onPartFailed_keeps {i : Nat} (h : d.onPartFailed i = some d')
    (ht : Tidy d partMap) : d'.checkedPrefixSize = d.checkedPrefixSize ∧
      Keeps d d' ∧ Tidy d' (partMap.filter fun part => part.1 ≠ i) := by
  obtain ⟨hi, first, -, rfl⟩ := onPartFailed_cases h
  exact ⟨rfl, ht.set hi rfl rfl rfl (fun hknown => ⟨hknown, rfl⟩) le_rfl⟩

end Steps

/-! ## Checked bytes -/

section Proven

variable (sha256 : List UInt8 → List UInt8)

/-- A block was compared with the file, and nothing was written to it since then. -/
structure Compared (file : List UInt8) (log : List Action) (info : HashInfo) (bytes : List UInt8) :
    Prop where
  hash : sha256 bytes = info.hash
  size : bytes.length ≤ info.size
  unchanged : pread file info.offset bytes.length = bytes
  quiet : ∃ later earlier, log = later ++ .check info bytes :: earlier ∧
    ∀ action ∈ later, ¬action.Touches info

/-- What is known of a byte that was checked. It is in a block that was compared, and either all
parts of the block are ready, or all bytes of the file were there. In the second case a further
write would make them too many. -/
def Proven (d : PartsManager) (file : List UInt8) (log : List Action) (hashInfo : List HashInfo)
    (x : Nat) : Prop :=
  ∃ info bytes, info ∈ hashInfo ∧ info.offset ≤ x ∧ x < info.offset + bytes.length ∧
    info.offset + bytes.length ≤ file.length ∧
    (Compared sha256 file log info bytes ∧
        (∀ y, info.offset ≤ y → y < info.offset + info.size →
          d.partStatus[y / d.partSize]? = some .ready) ∨
      d.unknownSizeFlag = false ∧ d.size ≤ d.readySize ∧
        (d.readySize = d.size → Compared sha256 file log info bytes))

variable {sha256}
variable {d d' : PartsManager} {file : List UInt8} {log : List Action} {hashInfo : List HashInfo}
  {x : Nat}

section

variable (h : Proven sha256 d file log hashInfo x)
include h

/-- The parts move on and the file stays. -/
theorem Proven.keeps (hkeeps : Keeps d d') : Proven sha256 d' file log hashInfo x := by
  obtain ⟨info, bytes, hmem, hle, hlt, hlength, hcases⟩ := h
  refine ⟨info, bytes, hmem, hle, hlt, hlength, ?_⟩
  rcases hcases with ⟨hcompared, hready⟩ | ⟨hflag, hsize, hcompared⟩
  · refine .inl ⟨hcompared, ?_⟩
    intro y hy hy'
    rw [hkeeps.partSize]
    exact hkeeps.ready _ (hready y hy hy')
  · obtain ⟨hflag', hsize'⟩ := hkeeps.known hflag
    have hmore := hkeeps.readySize
    refine .inr ⟨hflag', by omega, ?_⟩
    intro heq
    exact hcompared (by omega)

theorem Proven.hashes {hashInfo' : List HashInfo} (hsub : hashInfo ⊆ hashInfo') :
    Proven sha256 d file log hashInfo' x := by
  obtain ⟨info, bytes, hmem, hrest⟩ := h
  exact ⟨info, bytes, hsub hmem, hrest⟩

/-- More blocks are compared. -/
theorem Proven.checks (new : List Action) (hnew : ∀ action ∈ new, ∀ info, ¬action.Touches info) :
    Proven sha256 d file (new ++ log) hashInfo x := by
  have hgrow : ∀ info bytes, Compared sha256 file log info bytes →
      Compared sha256 file (new ++ log) info bytes := by
    intro info bytes hcompared
    obtain ⟨later, earlier, rfl, hquiet⟩ := hcompared.quiet
    refine { hcompared with quiet := ⟨new ++ later, earlier, (append_assoc _ _ _).symm, ?_⟩ }
    intro action hmem
    rcases mem_append.mp hmem with hmem | hmem
    · exact hnew action hmem info
    · exact hquiet action hmem
  obtain ⟨info, bytes, hmem, hle, hlt, hlength, hcases⟩ := h
  refine ⟨info, bytes, hmem, hle, hlt, hlength, ?_⟩
  exact hcases.imp (fun h => ⟨hgrow info bytes h.1, h.2⟩)
    (fun h => ⟨h.1, h.2.1, fun heq => hgrow info bytes (h.2.2 heq)⟩)

/-- **A part is written**, which was not ready. -/
theorem Proven.write {i : Nat} {bytes : List UInt8} (hkeeps : Keeps d d')
    (hi : d.partStatus[i]? ≠ some .ready) (hsize : bytes.length ≤ d.partSize) (hne : bytes ≠ [])
    (hready : d'.readySize = d.readySize + bytes.length) :
    Proven sha256 d' (pwrite 0 file (d.partSize * i) bytes)
      (.write (d.partSize * i) bytes :: log) hashInfo x := by
  obtain ⟨info, block, hmem, hle, hlt, hlength, hcases⟩ := h
  refine ⟨info, block, hmem, hle, hlt, hlength.trans length_le_pwrite, ?_⟩
  rcases hcases with ⟨hcompared, hblock⟩ | ⟨hflag, hfull, -⟩
  · -- the parts of the block are ready, so it is another part that is written
    have hother : ∀ y, info.offset ≤ y → y < info.offset + info.size →
        y < d.partSize * i ∨ d.partSize * i + bytes.length ≤ y := by
      intro y hy hy'
      by_contra hin
      have hdiv : y / d.partSize = i := by
        refine Nat.div_eq_of_lt_le ?_ ?_
        · rw [mul_comm]
          omega
        · rw [Nat.succ_mul, mul_comm]
          omega
      have := hblock y hy hy'
      rw [hdiv] at this
      exact hi this
    refine .inl ⟨⟨hcompared.hash, hcompared.size, ?_, ?_⟩, ?_⟩
    · rw [pread_pwrite hlength]
      · exact hcompared.unchanged
      · intro y hy hy'
        have := hcompared.size
        exact hother y hy (by omega)
    · obtain ⟨later, earlier, rfl, hquiet⟩ := hcompared.quiet
      refine ⟨.write (d.partSize * i) bytes :: later, earlier, rfl, ?_⟩
      intro action haction
      rcases mem_cons.mp haction with rfl | haction
      · rintro ⟨y, hy, hy', hin, hin'⟩
        rcases hother y hin hin' with hlt | hge <;> omega
      · exact hquiet action haction
    · intro y hy hy'
      rw [hkeeps.partSize]
      exact hkeeps.ready _ (hblock y hy hy')
  · -- there are too many bytes now
    obtain ⟨hflag', hsize'⟩ := hkeeps.known hflag
    have hpos : 0 < bytes.length := length_pos_iff.mpr hne
    refine .inr ⟨hflag', by omega, ?_⟩
    omega

end

end Proven

/-! ## The loop -/

section Loop

variable {d d' : PartsManager} {partMap : List (Nat × Nat)}

theorem PartsManager.updateFirstNotReadyPart_keeps (d : PartsManager) :
    Keeps d d.updateFirstNotReadyPart :=
  ⟨rfl, fun _ hi => hi, fun hflag => ⟨hflag, rfl⟩, le_rfl⟩

theorem Tidy.updateFirstNotReadyPart (h : Tidy d partMap) :
    Tidy d.updateFirstNotReadyPart partMap := by
  have hsame : d.updateFirstNotReadyPart.partStatus = (d.grow 0).partStatus :=
    (append_nil _).symm
  exact h.grow hsame rfl (.inr rfl)

theorem PartsManager.isStreamingLimitReached_cases (d : PartsManager) :
    d.isStreamingLimitReached.1 = d ∨ d.isStreamingLimitReached.1 = d.updateFirstNotReadyPart := by
  unfold isStreamingLimitReached
  split
  · exact .inl rfl
  · rw [apply_ite Prod.fst, ite_self]
    exact .inr rfl

theorem PartsManager.setNeedCheck_keeps (h : d.setNeedCheck = some d') :
    Keeps d d' ∧ (∀ partMap, Tidy d partMap → Tidy d' partMap) ∧ d'.needCheck = true := by
  obtain ⟨⟨m, _⟩, hoffset, rfl⟩ := map_eq_some_iff.mp h
  obtain ⟨hkeeps, htidy, -, hneed⟩ := setStreamingOffset_keeps hoffset
  exact ⟨⟨hkeeps.partSize, hkeeps.ready, hkeeps.known, hkeeps.readySize⟩,
    fun partMap ht => htidy partMap ⟨ht.partSize_pos, ht.asked, ht.skipped⟩, hneed⟩

theorem PartsManager.finish_ok {u : Unit} (h : d.finish = (d', .ok u)) : d' = d ∧
    d.ready = true := by
  unfold finish at h
  split at h
  · rename_i hready
    cases h
    exact ⟨rfl, hready⟩
  · dsimp only at h
    split at h <;> cases h

/-- The prefix is made of parts that are ready. -/
theorem PartsManager.getUncheckedReadyPrefixSize_ready (h : Tidy d partMap) {y : Nat}
    (hy : y < d.getUncheckedReadyPrefixSize.2) :
    d.updateFirstNotReadyPart.partStatus[y / d.partSize]? = some .ready := by
  have htidy := h.updateFirstNotReadyPart
  refine htidy.skipped _ ?_
  rw [Nat.div_lt_iff_lt_mul h.partSize_pos]
  unfold getUncheckedReadyPrefixSize at hy
  dsimp only at hy
  split at hy
  · cases hy
  rename_i hcount
  -- the prefix is at most the end of the last of the parts
  obtain ⟨count, hcount⟩ := Nat.exists_eq_succ_of_ne_zero hcount
  rw [hcount, Nat.succ_sub_one] at hy
  have hoffset : (d.updateFirstNotReadyPart.getPart count).offset = count * d.partSize :=
    mul_comm _ _
  have hsize : (d.updateFirstNotReadyPart.getPart count).size ≤ d.partSize := by
    rw [getPart_size]
    exact blockSize_le
  rw [hcount, Nat.succ_mul]
  split at hy <;> omega

namespace Downloader

variable {sha256 : List UInt8 → List UInt8} {t t' : Downloader}

theorem findHash_some {pos : Nat} {info : HashInfo} (h : t.findHash pos = some info) :
    info ∈ t.hashInfo.toList ∧ info.offset ≤ pos ∧ pos < info.offset + info.size := by
  obtain ⟨hlast, hlt⟩ := Option.filter_eq_some_iff.mp h
  have hmem := mem_of_getLast? hlast
  refine ⟨(takeWhile_sublist _).subset hmem, ?_, of_decide_eq_true hlt⟩
  have hle := mem_takeWhile_imp hmem
  exact of_decide_eq_true hle

/-- **What the rounds of a check prove**: everything up to where they come. -/
theorem checkRounds_proven {first readyPrefixSize n checked : Nat} {isReady changed : Bool}
    {log log' : List Action} {info : CheckInfo}
    (hfront : ∀ y < readyPrefixSize, d.partStatus[y / d.partSize]? = some .ready)
    (hready : isReady = true → d.unknownSizeFlag = false ∧ d.readySize = d.size)
    (hchecked : ∀ x, first ≤ x → x < checked → Proven sha256 d t.file log t.hashInfo.toList x)
    (h : t.checkRounds sha256 readyPrefixSize isReady n checked changed log = .ok (info, log')) :
    info.needCheck = true ∧ ∀ x, first ≤ x → x < info.checkedPrefixSize →
      Proven sha256 d t.file log' t.hashInfo.toList x := by
  induction n generalizing checked changed log with
  | zero =>
    cases h
    exact ⟨rfl, hchecked⟩
  | succ n ih =>
    unfold checkRounds at h
    split at h
    · cases h
      exact ⟨rfl, hchecked⟩
    split at h
    · rename_i block hfind
      obtain ⟨hmem, hle, hlt⟩ := findHash_some hfind
      split at h
      · cases h
        exact ⟨rfl, hchecked⟩
      rename_i hwhole
      dsimp only at h
      split at h
      · cases h
      rename_i hlength
      split at h
      · split at h <;> cases h
      rename_i hhash
      refine ih ?_ h
      rw [not_not] at hlength hhash
      -- what was read is the block, up to the end of the prefix
      generalize hbytes : pread t.file block.offset
        (min (block.offset + block.size) readyPrefixSize - block.offset) = bytes at hlength hhash
      intro x hfirst hx
      rcases lt_or_ge x checked with hold | hnew
      · refine (hchecked x hfirst hold).checks [.check block bytes] ?_
        intro action haction
        rw [mem_singleton.mp haction]
        exact fun _ => not_false
      have hcompared : Compared sha256 t.file (.check block bytes :: log) block bytes :=
        { hash := hhash
          size := by omega
          unchanged := by rw [hlength]; exact hbytes
          quiet := ⟨[], log, rfl, forall_mem_nil _⟩ }
      have hend : block.offset + bytes.length ≤ t.file.length := by
        rw [hlength]
        rw [← hbytes] at hlength
        exact le_length_of_pread (by omega) hlength
      refine ⟨block, bytes, hmem, hle.trans hnew, by omega, hend, ?_⟩
      by_cases hin : block.offset + block.size ≤ readyPrefixSize
      · exact .inl ⟨hcompared, fun y _ hy => hfront y (by omega)⟩
      have hall : isReady = true := by
        by_contra hnot
        exact hwhole ⟨by omega, hnot⟩
      obtain ⟨hflag, hsize⟩ := hready hall
      exact .inr ⟨hflag, hsize.ge, fun _ => hcompared⟩
    · cases h
      exact ⟨rfl, hchecked⟩

end Downloader

end Loop

/-! ## Steps -/

namespace Downloader

section Guarded

variable (sha256 : List UInt8 → List UInt8)

/-- The invariant of a download, of which the bytes before `first` are not looked at. -/
structure Guarded (first : Nat) (t : Downloader) : Prop where
  tidy : Tidy t.transfer.parts t.transfer.partMap
  proven : ∀ x, first ≤ x → x < t.transfer.parts.checkedPrefixSize →
    Proven sha256 t.transfer.parts t.file t.log t.hashInfo.toList x

variable {sha256}
variable {first : Nat} {t t' : Downloader}

/-- Only the parts change. -/
theorem Guarded.keeps (h : Guarded sha256 first t) (transfer : Transfer)
    (hkeeps : Keeps t.transfer.parts transfer.parts)
    (hchecked : transfer.parts.checkedPrefixSize = t.transfer.parts.checkedPrefixSize)
    (htidy : Tidy transfer.parts transfer.partMap) :
    Guarded sha256 first { t with transfer } := by
  refine ⟨htidy, ?_⟩
  intro x hx hlt
  exact (h.proven x hx (hchecked ▸ hlt)).keeps hkeeps

theorem addHashInfo_subset (t : Downloader) (hashes : List HashInfo) :
    t.hashInfo.toList ⊆ (t.addHashInfo hashes).hashInfo.toList := by
  show t.hashInfo.toList ⊆
    (hashes.foldl (fun hashInfo hash => (hashInfo.emplace hash).1) t.hashInfo).toList
  generalize t.hashInfo = hashInfo
  induction hashes generalizing hashInfo with
  | nil => exact List.Subset.refl _
  | cons hash hashes ih =>
    exact List.Subset.trans (fun info hinfo => Ordered.mem_emplace hinfo) (ih _)

theorem Guarded.addHashInfo (h : Guarded sha256 first t) (hashes : List HashInfo) :
    Guarded sha256 first (t.addHashInfo hashes) :=
  ⟨h.tidy, fun x hx hlt => (h.proven x hx hlt).hashes (t.addHashInfo_subset hashes)⟩

/-- The loop has looked at the parts once more. -/
theorem Guarded.updateFirstNotReadyPart (h : Guarded sha256 first t) :
    Guarded sha256 first
      { t with transfer :=
        { t.transfer with parts := t.transfer.parts.updateFirstNotReadyPart } } :=
  h.keeps ({ t.transfer with parts := t.transfer.parts.updateFirstNotReadyPart })
    t.transfer.parts.updateFirstNotReadyPart_keeps rfl h.tidy.updateFirstNotReadyPart

theorem Guarded.isStreamingLimitReached (h : Guarded sha256 first t) :
    Guarded sha256 first { t with transfer :=
      { t.transfer with parts := t.transfer.parts.isStreamingLimitReached.1 } } := by
  rcases t.transfer.parts.isStreamingLimitReached_cases with heq | heq
  · rw [heq]
    exact h
  · rw [heq]
    exact h.updateFirstNotReadyPart

/-- The end of the loop. If the download is finished, everything is ready. -/
theorem Guarded.tryFinish {d : PartsManager} {finished : Bool}
    (hloop : t.tryFinish d = (t', .ok finished))
    (h : Guarded sha256 first { t with transfer := { t.transfer with parts := d } }) :
    Guarded sha256 first t' ∧ t'.transfer.stopFlag = t.transfer.stopFlag ∧
      t'.transfer.parts.needCheck = d.needCheck ∧
      (finished = true → t'.transfer.parts.ready = true) := by
  have hreached := h.isStreamingLimitReached
  have hcheck : d.isStreamingLimitReached.1.needCheck = d.needCheck := by
    rcases d.isStreamingLimitReached_cases with heq | heq
    · rw [heq]
    · rw [heq]
      rfl
  unfold Downloader.tryFinish mayFinish at hloop
  dsimp only at hloop
  split at hloop
  · generalize hfinish : d.isStreamingLimitReached.1.finish = result at hloop
    obtain ⟨parts, result⟩ := result
    cases result with
    | error error => cases hloop
    | ok u =>
      obtain ⟨rfl, hready⟩ := finish_ok hfinish
      cases hloop
      exact ⟨hreached, rfl, hcheck, fun _ => hready⟩
  · cases hloop
    exact ⟨hreached, rfl, hcheck, nofun⟩

/-- **What the loop does** if there is no error. -/
theorem Guarded.doLoop {finished : Bool} (h : Guarded sha256 first t)
    (hloop : t.doLoop sha256 = some (t', .ok finished)) :
    Guarded sha256 first t' ∧ t'.transfer.stopFlag = t.transfer.stopFlag ∧
      (finished = true → t'.transfer.parts.ready = true) ∧
      (t.needCheck = true → t'.transfer.parts.needCheck = true) := by
  have hupdated := h.updateFirstNotReadyPart
  have hparts : t.transfer.parts.getUncheckedReadyPrefixSize.1 =
      t.transfer.parts.updateFirstNotReadyPart := by
    unfold getUncheckedReadyPrefixSize
    rw [apply_ite Prod.fst, ite_self]
  have hready : t.transfer.parts.updateFirstNotReadyPart.uncheckedReady = true →
      t.transfer.parts.updateFirstNotReadyPart.unknownSizeFlag = false ∧
        t.transfer.parts.updateFirstNotReadyPart.readySize =
          t.transfer.parts.updateFirstNotReadyPart.size := by
    unfold uncheckedReady
    rw [Bool.and_eq_true, beq_iff_eq, Bool.not_eq_true']
    exact id
  unfold Downloader.doLoop at hloop
  dsimp only at hloop
  rw [hparts] at hloop
  split at hloop
  · cases hloop
  rename_i info log hcheck
  unfold Downloader.checkLoop at hcheck
  split at hcheck
  · -- nothing is checked
    rename_i hno
    cases hcheck
    have hfinish := Option.some.inj hloop
    obtain ⟨hguarded, hstop, -, hfinished⟩ :=
      Guarded.tryFinish hfinish ⟨hupdated.tidy, hupdated.proven⟩
    exact ⟨hguarded, hstop, hfinished, fun hneed => absurd hneed hno⟩
  obtain ⟨hneed, hproven⟩ := checkRounds_proven
    (fun y hy => getUncheckedReadyPrefixSize_ready h.tidy hy) hready hupdated.proven
    hcheck
  rw [if_pos hneed] at hloop
  obtain ⟨d, hd, hloop⟩ := map_eq_some_iff.mp hloop
  obtain ⟨hkeeps, htidy, hneedCheck⟩ :=
    setNeedCheck_keeps hd
  have htidy' := htidy _ h.tidy.updateFirstNotReadyPart
  obtain ⟨hguarded, hstop, hneed', hfinished⟩ := Guarded.tryFinish hloop
    ⟨⟨htidy'.partSize_pos, htidy'.asked, htidy'.skipped⟩, fun x hx hlt => (hproven x hx hlt).keeps
        ⟨hkeeps.partSize, hkeeps.ready, hkeeps.known, hkeeps.readySize⟩⟩
  exact ⟨hguarded, hstop, hfinished, fun _ => hneed'.trans hneedCheck⟩

end Guarded

section Events

variable {sha256 : List UInt8 → List UInt8} {first : Nat} {t t' : Downloader} {id : Nat}

/-- A part under way is found. -/
theorem askedSize_mem {t : Transfer} (h : ∃ size, (id, size) ∈ t.partMap) :
    (id, t.askedSize id) ∈ t.partMap := by
  obtain ⟨size, hmem⟩ := h
  unfold Transfer.askedSize
  cases hfind : t.partMap.find? (fun part => part.1 = id) with
  | none =>
    rw [find?_eq_none] at hfind
    exact absurd (decide_eq_true rfl) (hfind (id, size) hmem)
  | some part =>
    have hid := find?_some hfind
    obtain rfl : part.1 = id := of_decide_eq_true hid
    exact mem_of_find?_eq_some hfind

theorem Guarded.startPart (h : Guarded sha256 first t) {d : PartsManager} {r : Except Error Part}
    (hstart : t.transfer.parts.startPart = some (d, r))
    (hrunning : (t.transfer.onStarted d r).stopFlag = false) :
    Guarded sha256 first { t with transfer := t.transfer.onStarted d r } := by
  cases r with
  | error error =>
    have hcode : error.code = 1 := not_not.mp (of_decide_eq_false hrunning)
    obtain rfl := startPart_error hstart hcode
    exact h.keeps (t.transfer.onStarted _ (.error error))
      ⟨rfl, fun _ hi => hi, fun hflag => ⟨hflag, rfl⟩, le_rfl⟩ rfl
      ⟨h.tidy.partSize_pos, h.tidy.asked, h.tidy.skipped⟩
  | ok part =>
    obtain ⟨hkeeps, hchecked, htidy, hpart⟩ := startPart_keeps hstart h.tidy
    refine h.keeps (t.transfer.onStarted d (.ok part)) ?_ ?_ ?_
    · rw [Transfer.onStarted_parts]
      exact hkeeps
    · rw [Transfer.onStarted_parts]
      exact hchecked
    obtain ⟨_ | i, offset, size⟩ := part
    · exact htidy
    unfold Transfer.onStarted
    dsimp only
    split
    · exact htidy
    refine ⟨htidy.partSize_pos, ?_, htidy.skipped⟩
    intro j size' hmem
    rcases mem_append.mp hmem with hmem | hmem
    · exact htidy.asked j size' hmem
    · cases mem_singleton.mp hmem
      exact hpart i rfl

theorem Guarded.partRestart (h : Guarded sha256 first t) (hstep : t.partRestart id = some t') :
    Guarded sha256 first t' := by
  obtain ⟨transfer, hfailed, rfl⟩ := map_eq_some_iff.mp hstep
  obtain ⟨d, hd, rfl⟩ := map_eq_some_iff.mp hfailed
  obtain ⟨hchecked, hkeeps, htidy⟩ := onPartFailed_keeps hd h.tidy
  exact h.keeps ({ t.transfer with
    parts := d, partMap := t.transfer.partMap.filter fun part => part.1 ≠ id }) hkeeps
      hchecked htidy

/-- A part is written that was under way. -/
theorem Guarded.partOk (h : Guarded sha256 first t) {bytes : List UInt8}
    (hasked : ∃ size, (id, size) ∈ t.transfer.partMap) (hstep : t.partOk id bytes = some t')
    (hrunning : t'.transfer.stopFlag = false) : Guarded sha256 first t' := by
  obtain ⟨hpending, hsize⟩ := h.tidy.asked _ _ (askedSize_mem hasked)
  unfold Downloader.partOk at hstep
  split at hstep
  · cases hstep
    cases hrunning
  obtain ⟨transfer, hok, rfl⟩ := map_eq_some_iff.mp hstep
  split at hok
  · -- nothing is written
    rename_i hnil
    obtain ⟨⟨d, r⟩, hd, rfl⟩ := map_eq_some_iff.mp hok
    cases r with
    | error error => cases hrunning
    | ok u =>
      obtain ⟨hchecked, -, hkeeps, htidy⟩ := onPartOk_keeps hd h.tidy
      rw [if_pos hnil]
      exact h.keeps (t.transfer.onOk d id bytes.length (.ok u)) hkeeps hchecked htidy
  rename_i hne
  obtain ⟨⟨d, r⟩, hd, rfl⟩ := map_eq_some_iff.mp hok
  cases r with
  | error error => cases hrunning
  | ok u =>
    obtain ⟨hchecked, hready, hkeeps, htidy⟩ := onPartOk_keeps hd h.tidy
    rw [if_neg hne]
    refine ⟨htidy, ?_⟩
    intro x hx hlt
    refine (h.proven x hx (hchecked ▸ hlt)).write hkeeps ?_ (by omega) hne hready
    rw [hpending]
    intro heq
    cases heq

/-- A download that was stopped stays stopped. -/
theorem running_of_step {event : Event} (hallowed : t.Allowed event)
    (hstep : t.step sha256 event = some t') (hrunning : t'.transfer.stopFlag = false) :
    t.transfer.stopFlag = false := by
  cases event with
  | startPart | fileHashes hashes | fileHashesError | loop => exact hallowed
  | partOk id bytes | partRestart id | partError id | cdnRedirect id hashes
  | reupload id hashes => exact hallowed.1
  | setStreamingOffset offset limit =>
    obtain ⟨transfer, htransfer, rfl⟩ := map_eq_some_iff.mp hstep
    have hset : t.transfer.Allowed (.setStreamingOffset offset limit) := trivial
    exact Transfer.running_of_step hset htransfer hrunning
  | setStreamingLimit limit =>
    cases hstep
    exact hrunning

/-- **A step of a download that goes on keeps the invariant.** -/
theorem Guarded.step {event : Event} (h : Guarded sha256 first t) (hallowed : t.Allowed event)
    (hstep : t.step sha256 event = some t') (hrunning : t'.transfer.stopFlag = false) :
    Guarded sha256 first t' := by
  cases event with
  | startPart =>
    obtain ⟨transfer, htransfer, rfl⟩ := map_eq_some_iff.mp hstep
    obtain ⟨⟨d, r⟩, hstart, rfl⟩ := map_eq_some_iff.mp htransfer
    exact h.startPart hstart hrunning
  | partOk id bytes => exact h.partOk hallowed.2 hstep hrunning
  | partRestart id => exact h.partRestart hstep
  | partError id | fileHashesError =>
    cases hstep
    cases hrunning
  | cdnRedirect id hashes =>
    have hneed : Guarded sha256 first { t with needCheck := true } := ⟨h.tidy, h.proven⟩
    exact (hneed.addHashInfo hashes).partRestart hstep
  | reupload id hashes => exact (h.addHashInfo hashes).partRestart hstep
  | fileHashes hashes =>
    cases hstep
    have hquery : Guarded sha256 first { t with hasHashQuery := false } := ⟨h.tidy, h.proven⟩
    exact hquery.addHashInfo hashes
  | setStreamingOffset offset limit =>
    obtain ⟨transfer, htransfer, rfl⟩ := map_eq_some_iff.mp hstep
    obtain ⟨⟨d, r⟩, hset, rfl⟩ := map_eq_some_iff.mp htransfer
    obtain ⟨hkeeps, htidy, hchecked, -⟩ := setStreamingOffset_keeps hset
    exact h.keeps ({ t.transfer with parts := d }) hkeeps hchecked (htidy _ h.tidy)
  | setStreamingLimit limit =>
    cases hstep
    exact h.keeps ({ t.transfer with parts := t.transfer.parts.setStreamingLimit limit })
      ⟨rfl, fun _ hi => hi, fun hflag => ⟨hflag, rfl⟩, le_rfl⟩ rfl
      ⟨h.tidy.partSize_pos, h.tidy.asked, h.tidy.skipped⟩
  | loop =>
    obtain ⟨⟨t1, result⟩, hloop, rfl⟩ := map_eq_some_iff.mp hstep
    cases result with
    | error error => cases hrunning
    | ok finished =>
      cases finished with
      | true => cases hrunning
      | false => exact (h.doLoop hloop).1

theorem Guarded.run {t0 : Downloader} (h : Guarded sha256 first t0) (hrun : Run sha256 t0 t)
    (hrunning : t.transfer.stopFlag = false) : Guarded sha256 first t := by
  induction hrun with
  | refl => exact h
  | step event _ hallowed hstep ih =>
    exact (ih (running_of_step hallowed hstep hrunning)).step hallowed hstep hrunning

/-- What is computed is a run. -/
theorem Run.of_runEvents {t0 : Downloader} {events : List Event} (hrun : Run sha256 t0 t)
    (h : t.runEvents sha256 events = some t') : Run sha256 t0 t' := by
  induction events generalizing t with
  | nil =>
    cases h
    exact hrun
  | cons event events ih =>
    unfold runEvents at h
    split at h
    · rename_i hallowed
      obtain ⟨t1, hstep, h⟩ := bind_eq_some_iff.mp h
      exact ih (.step event hrun hallowed hstep) h
    · cases h

end Events

end Downloader

/-! ## The beginning and the end -/

section

open PartsManager

variable {readyParts : List Nat} {size expectedSize partSize : Nat}
  {usePartCountLimit isUpload : Bool}

/-- What is taken for checked in the beginning is ready. -/
theorem PartsManager.initCommon_checked {d d' : PartsManager}
    (h : d.initCommon readyParts = some (.ok d')) :
    d'.checkedPrefixSize ≤ d'.firstNotReadyPart * d'.partSize := by
  obtain ⟨r, -, hd⟩ := map_eq_some_iff.mp h
  cases r with
  | error error => cases hd
  | ok m =>
    cases hd
    refine Nat.mul_le_mul_right _ ?_
    show (if _ then _ else _) ≤ _
    split
    · exact min_le_right _ _
    · exact le_rfl

theorem PartsManager.init_common {d : PartsManager} {isSizeFinal : Bool}
    (h : init size expectedSize isSizeFinal partSize readyParts usePartCountLimit isUpload =
      some (.ok d)) :
    ∃ m : PartsManager, m.initCommon readyParts = some (.ok d) := by
  have hunknown : ∀ m : PartsManager, m.initNoSize partSize readyParts = some (.ok d) →
      ∃ m : PartsManager, m.initCommon readyParts = some (.ok d) := by
    intro m h
    obtain ⟨_, -, h⟩ := bind_eq_some_iff.mp h
    exact ⟨_, h⟩
  unfold init at h
  split at h
  · cases h
  split at h
  · cases h
  split at h
  · exact hunknown _ h
  split at h
  · exact hunknown _ h
  unfold initKnownSize at h
  dsimp only at h
  split at h
  · split at h
    · split at h <;> cases h
    · exact ⟨_, h⟩
  · obtain ⟨_, -, h⟩ := bind_eq_some_iff.mp h
    split at h
    · cases h
    · exact ⟨_, h⟩

theorem Downloader.Guarded.start {sha256 : List UInt8 → List UInt8} {d : PartsManager}
    (hinit : init size expectedSize true partSize readyParts usePartCountLimit isUpload =
      some (.ok d))
    (file : List UInt8) (onlyCheck : Bool) :
    Guarded sha256 (d.firstNotReadyPart * d.partSize) (Downloader.start d file onlyCheck) := by
  have hfresh := init_fresh hinit
  obtain ⟨m, hcommon⟩ := init_common hinit
  have hchecked := initCommon_checked hcommon
  have htidy : Tidy d [] := by
    refine ⟨hfresh.partSize_pos, nofun, ?_⟩
    intro i hi
    rw [hfresh.firstNotReadyPart] at hi
    have hget := getElem?_eq_getElem (lt_length_of_lt_skipWhile (Nat.zero_le i) hi)
    have hready := of_lt_skipWhile (Nat.zero_le i) hi hget
    rw [hget, of_decide_eq_true hready]
  cases onlyCheck with
  | false =>
    refine ⟨htidy, ?_⟩
    intro x hx hlt
    exact absurd (hx.trans_lt hlt) (not_lt.mpr hchecked)
  | true =>
    refine ⟨⟨htidy.partSize_pos, htidy.asked, htidy.skipped⟩, ?_⟩
    intro x _ hlt
    exact absurd hlt (Nat.not_lt_zero x)

/-- **When a download that is checked is finished, every byte that was not in the ready prefix in
the beginning is in a block of the data centre that has the right hash.** The block was compared
after everything that was written to it, and what was compared is what the file has now. -/
theorem finished_download_checked {sha256 : List UInt8 → List UInt8} {d : PartsManager}
    {size expectedSize partSize : Nat} {readyParts : List Nat} {usePartCountLimit : Bool}
    (hinit : init size expectedSize true partSize readyParts usePartCountLimit false = some (.ok d))
    {file : List UInt8} {onlyCheck : Bool} {t t' : Downloader}
    (hrun : Downloader.Run sha256 (.start d file onlyCheck) t)
    (hrunning : t.transfer.stopFlag = false) (hneed : t.needCheck = true)
    (hloop : t.doLoop sha256 = some (t', .ok true)) {x : Nat}
    (hx : x < t'.transfer.parts.size)
    (hnew : ∃ i ≤ x / d.partSize, d.partStatus[i]? ≠ some .ready) :
    ∃ info ∈ t'.hashInfo.toList, ∃ bytes later earlier,
      info.offset ≤ x ∧ x < info.offset + bytes.length ∧ bytes.length ≤ info.size ∧
        sha256 bytes = info.hash ∧ t'.log = later ++ .check info bytes :: earlier ∧
        (∀ action ∈ later, ¬action.Touches info) ∧
        pread t'.file info.offset bytes.length = bytes := by
  have hstart : Downloader.Guarded sha256 _ (.start d file onlyCheck) := .start hinit file onlyCheck
  obtain ⟨hguarded, -, hfinished, hcheck⟩ := (hstart.run hrun hrunning).doLoop hloop
  have hready := hfinished rfl
  unfold ready uncheckedReady at hready
  rw [hcheck hneed, Bool.and_eq_true, Bool.and_eq_true, beq_iff_eq, Bool.not_true, Bool.false_or,
    beq_iff_eq] at hready
  obtain ⟨⟨-, hsize⟩, hchecked⟩ := hready
  have hfirst : d.firstNotReadyPart * d.partSize ≤ x := by
    by_contra hlt
    obtain ⟨i, hi, hnot⟩ := hnew
    have hfresh := init_fresh hinit
    have hbefore : Downloader.Guarded sha256 _ (.start d file false) := .start hinit file false
    refine hnot (hbefore.tidy.skipped i ?_)
    exact lt_of_le_of_lt hi ((Nat.div_lt_iff_lt_mul hfresh.partSize_pos).mpr (not_le.mp hlt))
  obtain ⟨info, bytes, hmem, hle, hlt, -, hcases⟩ := hguarded.proven x hfirst (by omega)
  have hcompared : Compared sha256 t'.file t'.log info bytes :=
    hcases.elim (fun h => h.1) (fun h => h.2.2 hsize)
  obtain ⟨later, earlier, hlog, hquiet⟩ := hcompared.quiet
  exact ⟨info, hmem, bytes, later, earlier, hle, hlt, hcompared.size, hcompared.hash, hlog, hquiet,
    hcompared.unchanged⟩

/-- A file of five bytes in two parts comes with blocks of three bytes. The first part is
redirected, and the second one is there before it. -/
theorem finished_download_checked_five_bytes :
    ∃ (d : PartsManager) (t t' : Downloader), init 5 5 true 4 [] false false = some (.ok d) ∧
      Downloader.Run id (.start d [] false) t ∧ t.needCheck = true ∧
      t.doLoop id = some (t', .ok true) ∧ t'.file = [1, 2, 3, 4, 5] ∧
      ∀ x < 5, ∃ info ∈ t'.hashInfo.toList, ∃ bytes : List UInt8,
        info.offset ≤ x ∧ x < info.offset + bytes.length ∧ bytes = info.hash := by
  let d : PartsManager :=
    { size := 5, expectedSize := 5, partSize := 4, partCount := 2, partStatus := [.empty, .empty] }
  have hinit : init 5 5 true 4 [] false false = some (.ok d) := by decide +kernel
  let events : List Downloader.Event :=
    [.startPart, .startPart, .cdnRedirect 0 [⟨3, 3, [4, 5]⟩, ⟨0, 3, [1, 2, 3]⟩],
      .partOk 1 [5], .loop, .startPart, .partOk 0 [1, 2, 3, 4]]
  -- what is to be known of the run is computed at once
  have heval : ((Downloader.start d [] false).runEvents id events).bind (fun t =>
      (t.doLoop id).map fun r => (r.2.toOption, t.transfer.stopFlag, t.needCheck, r.1.file,
        r.1.transfer.parts.size)) = some (some true, false, true, [1, 2, 3, 4, 5], 5) := by
    decide +kernel
  obtain ⟨t, ht, heval⟩ := bind_eq_some_iff.mp heval
  obtain ⟨⟨t', result⟩, hloop, heval⟩ := map_eq_some_iff.mp heval
  simp only [Prod.mk.injEq] at heval
  obtain ⟨hresult, hrunning, hneed, hfile, hsize⟩ := heval
  cases result with
  | error e => cases hresult
  | ok finished =>
    cases hresult
    have hrun : Downloader.Run id (.start d [] false) t := .of_runEvents .refl ht
    refine ⟨d, t, t', hinit, hrun, hneed, hloop, hfile, ?_⟩
    intro x hx
    obtain ⟨info, hmem, bytes, -, -, hle, hlt, -, hhash, -⟩ :=
      finished_download_checked hinit hrun hrunning hneed hloop (hsize ▸ hx)
        ⟨0, Nat.zero_le _, by decide⟩
    exact ⟨info, hmem, bytes, hle, hlt, hhash⟩

end

end Tdlib.Files
