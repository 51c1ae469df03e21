import Tdlib.Binlog.Reader

/-!
# The reader recovers every whole event

The reader standing in front of the records `rs` is described by `Before rs`: it
has consumed nothing of them yet, and if it is waiting for a body then the length
it remembers is that of the first one. Two lemmas say what one call does there.
Either the first image is wholly in the input, and the event comes out
(`readNext_event`), or it is not, and the reader asks for more and stays where it
is (`readNext_need`). Everything else is induction over the schedule.
-/

namespace Tdlib.Binlog

open Lib Tl BinlogEvent List LogRecord

variable (crc32 : Bytes → UInt32)

/-! ## Images -/

namespace LogRecord

theorem length_image (r : LogRecord) : (r.image crc32).length = r.rawSize :=
  Record.length_image crc32 r.toRecord

theorem minSize_le (r : LogRecord) : 32 ≤ r.rawSize := Record.minSize_le_rawSize r.toRecord

theorem rawSize_lt (r : LogRecord) : r.rawSize < 0x80000000 := by
  have h : r.rawSize ≤ 0x1000000 := r.bounded
  omega

end LogRecord

theorem images_cons (r : LogRecord) (rs : List LogRecord) :
    images crc32 (r :: rs) = r.image crc32 ++ images crc32 rs := flatMap_cons

theorem images_append (rs ts : List LogRecord) :
    images crc32 (rs ++ ts) = images crc32 rs ++ images crc32 ts := flatMap_append

theorem decodeFrom_append (offset : Nat) (rs ts : List LogRecord) :
    decodeFrom crc32 offset (rs ++ ts) = decodeFrom crc32 offset rs
      ++ decodeFrom crc32 (offset + (images crc32 rs).length) ts := by
  induction rs generalizing offset with
  | nil => rfl
  | cons r rs ih =>
    rw [images_cons, length_append, length_image, ← add_assoc]
    exact congrArg _ (ih _)

/-- Decoding gives back id, type, flags and data. -/
theorem map_ofEvent_decodeFrom (offset : Nat) (rs : List LogRecord) :
    (decodeFrom crc32 offset rs).map Record.ofEvent = rs.map toRecord := by
  induction rs generalizing offset with
  | nil => rfl
  | cons r rs ih => exact congrArg _ (ih _)

/-- A positive `int32` keeps its value as a `size_t`. -/
theorem toNat_sizeOf_int32 {n : Nat} (h : n < 0x80000000) :
    (UInt32.ofNat n).toInt32.toInt64.toUInt64.toNat = n := by
  show ((BitVec.ofNat 32 n).signExtend 64).toNat = n
  have hmsb : (BitVec.ofNat 32 n).msb = false := by
    rw [BitVec.msb_eq_false_iff_two_mul_lt, BitVec.toNat_ofNat, Nat.mod_eq_of_lt (by omega)]
    omega
  rw [BitVec.signExtend_eq_setWidth_of_msb_false hmsb, BitVec.toNat_setWidth, BitVec.toNat_ofNat,
    Nat.mod_eq_of_lt (by omega), Nat.mod_eq_of_lt (by omega)]

/-- Four bytes of an image are enough to know its length. -/
theorem lengthWord_image {r : Record} (hlt : r.rawSize < 0x80000000) {input s : Bytes}
    (h4 : 4 ≤ input.length) (h : input <+: r.image crc32 ++ s) : lengthWord input = r.rawSize := by
  have hsize : 32 ≤ r.rawSize := Record.minSize_le_rawSize r
  have hlen := Record.length_image crc32 r
  have htake : input.take 4 = (r.image crc32).take 4 := by
    obtain ⟨t, ht⟩ := h
    have := congrArg (take 4) ht
    rwa [take_append_of_le_length h4, take_append_of_le_length (by omega)] at this
  rw [lengthWord, htake, Record.fetchInt_take_image]
  exact toNat_sizeOf_int32 hlt

/-! ## One call -/

/-- The reader stands in front of `rs`: if it waits for a body, it is the first one's. -/
structure Before (rs : List LogRecord) (reader : BinlogReader) : Prop where
  /-- The input is a cut of what is left of the log. -/
  input : reader.input <+: images crc32 rs
  /-- A remembered length is that of the first record left. -/
  size : reader.state = .readEvent → ∃ r ts, rs = r :: ts ∧ reader.size = r.rawSize

variable {crc32} {rs : List LogRecord} {r : LogRecord} {reader : BinlogReader}

/-- In front of a record, with its length in the input, both states continue alike. -/
theorem Before.readNext_eq (h : Before crc32 (r :: rs) reader) (h4 : 4 ≤ reader.input.length) :
    reader.readNext crc32
      = BinlogReader.readEvent crc32 { reader with size := r.rawSize, state := .readEvent } := by
  unfold BinlogReader.readNext
  cases hstate : reader.state with
  | readLength =>
    have hinput := h.input
    have hmin := minSize_le r
    have hmax : r.rawSize ≤ maxSize := r.bounded
    rw [if_neg (by omega), lengthWord_image crc32 r.rawSize_lt h4 hinput, if_neg (by omega),
      if_neg (by show ¬ r.rawSize < 32; omega), if_neg (by have := r.aligned; omega)]
  | readEvent =>
    obtain ⟨r', ts, heq, hsize⟩ := h.size hstate
    cases heq
    dsimp only
    rw [← hsize, ← hstate]

/-- The reader after `r` was cut from its input. -/
def BinlogReader.past (reader : BinlogReader) (r : LogRecord) : BinlogReader :=
  { reader with
    input := reader.input.drop r.rawSize, state := .readLength, size := r.rawSize
    offset := reader.offset + r.rawSize }

/-- An input with a whole image is the image and a cut of what follows. -/
theorem take_drop_of_image {input : Bytes} (h : input <+: images crc32 (r :: rs))
    (hlen : r.rawSize ≤ input.length) :
    input.take r.rawSize = r.toRecord.image crc32 ∧ input.drop r.rawSize <+: images crc32 rs := by
  obtain ⟨t, ht⟩ := h
  rw [images_cons] at ht
  have htake := congrArg (take r.rawSize) ht
  have hdrop := congrArg (drop r.rawSize) ht
  rw [take_append_of_le_length hlen, take_left' (length_image crc32 r)] at htake
  rw [drop_append_of_le_length hlen, drop_left' (length_image crc32 r)] at hdrop
  exact ⟨htake, t, hdrop⟩

/-- **A whole image in the input comes out as its event.** -/
theorem readNext_event (h : Before crc32 (r :: rs) reader)
    (hlen : r.rawSize ≤ reader.input.length) : reader.readNext crc32
      = (.event (r.event crc32 (reader.offset + r.rawSize)), reader.past r) := by
  have hmin := minSize_le r
  rw [h.readNext_eq (by omega), BinlogReader.readEvent, if_neg (by dsimp only; omega)]
  dsimp only
  rw [(take_drop_of_image h.input hlen).1, Record.init_image crc32 (rawSize_lt r)]
  rfl

theorem Before.past (h : Before crc32 (r :: rs) reader) (hlen : r.rawSize ≤ reader.input.length) :
    Before crc32 rs (reader.past r) :=
  ⟨(take_drop_of_image h.input hlen).2, nofun⟩

/-- **Without a whole image in the input the reader asks for more**, and keeps its place. -/
theorem readNext_need (h : Before crc32 rs reader)
    (hlack : ∀ r ts, rs = r :: ts → reader.input.length < r.rawSize) :
    ∃ n reader', reader.readNext crc32 = (.need n, reader') ∧ reader.input.length < n ∧
      (∀ r ts, rs = r :: ts → n ≤ r.rawSize) ∧
      reader'.input = reader.input ∧ reader'.offset = reader.offset ∧ Before crc32 rs reader' := by
  cases rs with
  | nil =>
    -- nothing is left, so nothing was delivered and no length is remembered
    have hnil : reader.input = [] := prefix_nil.mp h.input
    have hstate : reader.state = .readLength := by
      cases hs : reader.state with
      | readLength => rfl
      | readEvent =>
        obtain ⟨r, ts, heq, _⟩ := h.size hs
        cases heq
    refine ⟨4, reader, ?_, by rw [hnil]; exact Nat.zero_lt_succ 3,
      nofun, rfl, rfl, h⟩
    rw [BinlogReader.readNext, hstate]
    rw [if_pos (by rw [hnil]; exact Nat.zero_lt_succ 3)]
  | cons r ts =>
    have hlt := hlack r ts rfl
    have hmin := minSize_le r
    have hfirst : ∀ {n}, n ≤ r.rawSize → ∀ r' ts', r :: ts = r' :: ts' → n ≤ r'.rawSize := by
      intro n hn r' ts' heq
      cases heq
      exact hn
    by_cases h4 : 4 ≤ reader.input.length
    · refine ⟨r.rawSize, { reader with size := r.rawSize, state := .readEvent }, ?_, hlt,
        hfirst le_rfl, rfl, rfl, ⟨h.input, fun _ => ⟨r, ts, rfl, rfl⟩⟩⟩
      rw [h.readNext_eq h4, BinlogReader.readEvent, if_pos hlt]
    cases hs : reader.state with
    | readLength =>
      refine ⟨4, reader, ?_, by omega, hfirst (by omega), rfl, rfl, h⟩
      rw [BinlogReader.readNext, hs]
      rw [if_pos (by omega)]
    | readEvent =>
      obtain ⟨r', ts', heq, hsize⟩ := h.size hs
      cases heq
      refine ⟨r.rawSize, reader, ?_, hlt, hfirst le_rfl, rfl, rfl, h⟩
      rw [BinlogReader.readNext, hs]
      dsimp only
      rw [BinlogReader.readEvent, if_pos (by rw [hsize]; exact hlt), hsize]

/-! ## Schedules -/

variable (crc32) in
/-- `seen` was delivered so far; `done` came out of it and `rest` of the log is still to come. -/
structure Reading (log : List LogRecord) (seen : Bytes) (done rest : List LogRecord)
    (p : Progress) : Prop where
  log : log = done ++ rest
  events : p.events = decodeFrom crc32 0 done
  offset : p.reader.offset = (images crc32 done).length
  /-- No byte is lost or read twice. -/
  seen : images crc32 done ++ p.reader.input = seen
  before : Before crc32 rest p.reader

variable {log done rest : List LogRecord} {seen chunk : Bytes} {p : Progress}

variable (crc32) in
theorem Reading.start (log : List LogRecord) (isEncrypted : Bool) (expectedSize : Nat) :
    Reading crc32 log [] [] log ⟨.start [] isEncrypted expectedSize, []⟩ :=
  ⟨rfl, rfl, rfl, rfl, ⟨ nil_prefix, nofun⟩⟩

section

variable (h : Reading crc32 log seen done rest p)
include h

theorem Reading.length_seen : seen.length = (images crc32 done).length + p.reader.input.length := by
  rw [← h.seen, length_append]

/-- What has come out lies wholly in what was delivered. -/
theorem Reading.done_initial : done <+: whole (image crc32) log seen.length :=
  whole_longest ⟨rest, h.log.symm⟩
    (by have := h.length_seen; show (images crc32 done).length ≤ _; omega)

/-- What lies wholly in what was delivered, and has not come out, is still in the input. -/
theorem Reading.whole_eq :
    whole (image crc32) log seen.length
      = done ++ whole (image crc32) rest p.reader.input.length := by
  rw [h.log, h.length_seen]
  exact whole_append done rest _

theorem Reading.deliver (hlog : seen ++ chunk <+: images crc32 log) :
    ∃ p', p.step crc32 (.deliver chunk) = some p' ∧
      Reading crc32 log (seen ++ chunk) done rest p' := by
  refine ⟨_, rfl, h.log, h.events, h.offset, ?_, ?_, h.before.size⟩
  · rw [← h.seen, append_assoc]
  · rw [← h.seen, h.log, images_append, append_assoc] at hlog
    exact (prefix_append_right_inj _).mp hlog

end

/-- A call with the next image wholly in the input. -/
theorem Reading.read_event (h : Reading crc32 log seen done (r :: rest) p)
    (hlen : r.rawSize ≤ p.reader.input.length) :
    ∃ p', p.step crc32 .read = some p' ∧ Reading crc32 log seen (done ++ [r]) rest p' ∧
      p'.reader.input.length = p.reader.input.length - r.rawSize := by
  have himg : (images crc32 [r]).length = r.rawSize := by
    rw [images_cons, length_append, length_image]
    rfl
  refine ⟨⟨p.reader.past r, p.events ++ [r.event crc32 (p.reader.offset + r.rawSize)]⟩, ?_,
    ⟨?_, ?_, ?_, ?_, h.before.past hlen⟩, length_drop⟩
  · rw [Progress.step, readNext_event h.before hlen]
  · rw [h.log, append_assoc, singleton_append]
  · rw [decodeFrom_append, h.events, h.offset, zero_add]
    rfl
  · rw [images_append, length_append, himg, ← h.offset]
    rfl
  rw [← h.seen, images_append, append_assoc]
  -- the bytes cut from the input are the image of `r`
  have : images crc32 [r] = p.reader.input.take r.rawSize := by
    rw [(take_drop_of_image h.before.input hlen).1]
    exact append_nil _
  rw [this]
  exact congrArg _ (take_append_drop _ _)

section

variable (h : Reading crc32 log seen done rest p)
include h

/-- A call without it. -/
theorem Reading.read_need (hlack : ∀ r ts, rest = r :: ts → p.reader.input.length < r.rawSize) :
    ∃ n p', p.step crc32 .read = some p' ∧ (p.reader.readNext crc32).1 = .need n ∧
      Reading crc32 log seen done rest p' ∧ p'.reader.input = p.reader.input := by
  obtain ⟨n, reader', hread, _, _, hinput, hoffset, hbefore⟩ := readNext_need h.before hlack
  refine ⟨n, ⟨reader', p.events⟩, ?_, by rw [hread],
    ⟨h.log, h.events, hoffset.trans h.offset, ?_, hbefore⟩, hinput⟩
  · rw [Progress.step, hread]
  · rw [hinput]
    exact h.seen

/-- Whether the next image is wholly in the input. -/
theorem Reading.cases :
    (∃ r ts, rest = r :: ts ∧ r.rawSize ≤ p.reader.input.length) ∨
      (∀ r ts, rest = r :: ts → p.reader.input.length < r.rawSize) := by
  cases rest with
  | nil => exact .inr nofun
  | cons r ts =>
    by_cases hlen : r.rawSize ≤ p.reader.input.length
    · exact .inl ⟨r, ts, rfl, hlen⟩
    · refine .inr fun r' ts' heq => ?_
      cases heq
      omega

/-- **Every schedule over a cut of the log runs without an error.** -/
theorem Reading.run (actions : List Action)
    (hlog : seen ++ delivered actions <+: images crc32 log) :
    ∃ p' done' rest', p.run crc32 actions = some p' ∧
      Reading crc32 log (seen ++ delivered actions) done' rest' p' := by
  induction actions generalizing p seen done rest with
  | nil => exact ⟨p, done, rest, rfl, by rw [delivered, append_nil]; exact h⟩
  | cons a actions ih =>
    have hstep : ∃ p' done' rest', p.step crc32 a = some p' ∧
        ∃ seen', Reading crc32 log seen' done' rest' p' ∧
          seen' ++ delivered actions = seen ++ delivered (a :: actions) := by
      cases a with
      | deliver chunk =>
        rw [delivered, ← append_assoc] at hlog
        obtain ⟨p', hp', h'⟩ := h.deliver ((prefix_append _ _).trans hlog)
        exact ⟨p', done, rest, hp', _, h', append_assoc _ _ _⟩
      | read =>
        rcases h.cases with ⟨r, ts, rfl, hlen⟩ | hlack
        · obtain ⟨p', hp', h', _⟩ := h.read_event hlen
          exact ⟨p', _, ts, hp', seen, h', rfl⟩
        · obtain ⟨_, p', hp', _, h', _⟩ := h.read_need hlack
          exact ⟨p', done, rest, hp', seen, h', rfl⟩
    obtain ⟨p', done', rest', hp', seen', h', hseen⟩ := hstep
    obtain ⟨q, done'', rest'', hq, hread⟩ := ih h' (by rw [hseen]; exact hlog)
    refine ⟨q, done'', rest'', ?_, by rw [← hseen]; exact hread⟩
    rw [Progress.run, foldlM_cons, hp']
    exact hq

/-- **Enough further calls bring out every event that was wholly delivered.** -/
theorem Reading.drain (m : Nat)
    (hm : (whole (image crc32) rest p.reader.input.length).length ≤ m) :
    ∃ p' rest', p.run crc32 (replicate m .read) = some p' ∧
      Reading crc32 log seen (whole (image crc32) log seen.length) rest' p' := by
  induction m generalizing p done rest with
  | zero =>
    have hnil := length_eq_zero_iff.mp (Nat.le_zero.mp hm)
    have hdone := h.whole_eq
    rw [hnil, append_nil] at hdone
    exact ⟨p, rest, rfl, by rw [hdone]; exact h⟩
  | succ m ih =>
    have hrun : ∀ {p'}, p.step crc32 .read = some p' →
        p.run crc32 (replicate (m + 1) .read) = p'.run crc32 (replicate m .read) := by
      intro p' hp'
      rw [replicate_succ, Progress.run, foldlM_cons, hp']
      rfl
    rcases h.cases with ⟨r, ts, rfl, hlen⟩ | hlack
    · obtain ⟨p', hp', h', hinput⟩ := h.read_event hlen
      rw [whole_cons_of_le (by rw [length_image]; exact hlen), length_cons, length_image] at hm
      rw [hrun hp']
      exact ih h' (by rw [hinput]; omega)
    obtain ⟨_, p', hp', _, h', hinput⟩ := h.read_need hlack
    have hnil : whole (image crc32) rest p.reader.input.length = [] := by
      cases rest with
      | nil => rfl
      | cons r ts =>
        exact whole_cons_of_lt (by rw [length_image]; exact hlack r ts rfl)
    rw [hrun hp']
    exact ih h' (by rw [hinput, hnil]; exact Nat.zero_le m)

end

/-! ## Crash recovery -/

/-- A reader that was given nothing yet. -/
def Progress.fresh (expectedSize : Nat) : Progress := ⟨.start [] false expectedSize, []⟩

variable (crc32) in
/-- The reader reports the records `rs`, and that it stands right after them. -/
structure Reports (rs : List LogRecord) (p : Progress) : Prop where
  /-- Each event has the id, type, flags and data of its record. -/
  events : p.events.map Record.ofEvent = rs.map LogRecord.toRecord
  offset : p.reader.offset = (images crc32 rs).length

theorem Reading.reports (h : Reading crc32 log seen done rest p) : Reports crc32 done p :=
  ⟨by rw [h.events, map_ofEvent_decodeFrom], h.offset⟩

theorem Progress.run_append (p : Progress) (as bs : List Action) :
    p.run crc32 (as ++ bs) = (p.run crc32 as).bind fun q => q.run crc32 bs :=
  foldlM_append

theorem Reading.asks (h : Reading crc32 log seen done rest p)
    (hdone : done = whole (image crc32) log seen.length) :
    ∃ n, (p.reader.readNext crc32).1 = .need n := by
  rcases h.cases with ⟨r, ts, rfl, hlen⟩ | hlack
  · -- the next record would be whole too
    have heq := h.whole_eq
    rw [← hdone, whole_cons_of_le (by rw [length_image]; exact hlen)] at heq
    have := congrArg length heq
    rw [length_append, length_cons] at this
    omega
  · obtain ⟨n, _, _, hread, _, _⟩ := h.read_need hlack
    exact ⟨n, hread⟩

/-- A reader that asks for more has brought out all that was whole. -/
theorem Reading.done_eq_of_need (h : Reading crc32 log seen done rest p) {n : Nat}
    (hneed : (p.reader.readNext crc32).1 = .need n) :
    done = whole (image crc32) log seen.length := by
  rw [h.whole_eq]
  cases rest with
  | nil => exact (append_nil done).symm
  | cons r ts =>
    by_cases hlen : r.rawSize ≤ p.reader.input.length
    · rw [readNext_event h.before hlen] at hneed
      cases hneed
    · rw [whole_cons_of_lt (by rw [length_image]; omega), append_nil]

/-- Any schedule over a cut of the log, and then enough calls. -/
theorem run_drained {cut : Bytes} (hcut : cut <+: images crc32 log) {actions : List Action}
    (hactions : delivered actions = cut) (expectedSize : Nat) {m : Nat}
    (hm : (whole (image crc32) log cut.length).length ≤ m) :
    ∃ p rest, (Progress.fresh expectedSize).run crc32 (actions ++ replicate m .read) = some p ∧
      Reading crc32 log cut (whole (image crc32) log cut.length) rest p := by
  obtain ⟨p, done, rest, hrun, h⟩ :=
    (Reading.start crc32 log false expectedSize).run actions (by rw [hactions]; exact hcut)
  rw [nil_append, hactions] at h
  have hlen := congrArg length h.whole_eq
  rw [length_append] at hlen
  obtain ⟨q, rest', hq, h'⟩ := h.drain m (by omega)
  refine ⟨q, rest', ?_, h'⟩
  rw [Progress.run_append, Progress.fresh, hrun]
  exact hq

variable (crc32) in
/-- What a crash that left `cut` of the log's bytes leaves of its records: `got`. -/
structure Recovered (log : List LogRecord) (cut : Bytes) (actions : List Action)
    (expectedSize : Nat) (got : List LogRecord) : Prop where
  /-- `got` are the first records, -/
  initial : got <+: log
  /-- they lie wholly in the cut, -/
  fits : (images crc32 got).length ≤ cut.length
  /-- and no longer run of records does. -/
  longest : ∀ other, other <+: log → (images crc32 other).length ≤ cut.length → other <+: got
  /-- The schedule meets no error; up to now it has produced the first of `got`, and all of them
  if the reader asks for more. -/
  produced : ∃ p done, (Progress.fresh expectedSize).run crc32 actions = some p ∧ done <+: got ∧
    Reports crc32 done p ∧ ∀ n, (p.reader.readNext crc32).1 = .need n → done = got
  /-- Enough further calls produce exactly `got`, and then the reader does ask for more. -/
  drained : ∀ m, got.length ≤ m → ∃ p n,
    (Progress.fresh expectedSize).run crc32 (actions ++ replicate m .read) = some p ∧
      Reports crc32 got p ∧ (p.reader.readNext crc32).1 = .need n
  /-- The cut truncated to the reported offset and continued with `more` reads as `got` and then
  `more`, by any schedule. -/
  continued : ∀ more actions' expectedSize' m,
    delivered actions' = cut.take (images crc32 got).length ++ images crc32 more →
    (got ++ more).length ≤ m → ∃ p,
      (Progress.fresh expectedSize').run crc32 (actions' ++ replicate m .read) = some p ∧
        Reports crc32 (got ++ more) p

/-- **Whatever prefix of the log survives a crash, and however its bytes are delivered, the reader
recovers exactly the events that lie wholly in it.** -/
theorem crash_recovery (crc32 : Bytes → UInt32) (log : List LogRecord) (cut : Bytes)
    (hcut : cut <+: images crc32 log) (actions : List Action) (hactions : delivered actions = cut)
    (expectedSize : Nat) : ∃ got, Recovered crc32 log cut actions expectedSize got := by
  refine ⟨whole (image crc32) log cut.length, whole_initial log _, whole_fits log _,
    fun other hother hfits => whole_longest hother hfits, ?_, ?_, ?_⟩
  · obtain ⟨p, done, rest, hrun, h⟩ :=
      (Reading.start crc32 log false expectedSize).run actions (by rw [hactions]; exact hcut)
    rw [hactions] at h
    exact ⟨p, done, hrun, h.done_initial, h.reports, fun n hneed => h.done_eq_of_need hneed⟩
  · intro m hm
    obtain ⟨p, rest, hrun, h⟩ := run_drained hcut hactions expectedSize hm
    obtain ⟨n, hneed⟩ := h.asks rfl
    exact ⟨p, n, hrun, h.reports, hneed⟩
  intro more actions' expectedSize' m hactions' hm
  -- the truncated file is the log of the recovered records
  have hbytes : delivered actions'
      = images crc32 (whole (image crc32) log cut.length ++ more) := by
    rw [hactions', images_append]
    exact congrArg (· ++ images crc32 more) (take_flatMap_whole hcut)
  have hall := whole_flatMap (f := image crc32)
  obtain ⟨p, rest, hrun, h⟩ := run_drained (prefix_refl _) hbytes expectedSize' (m := m)
    (by unfold images; rw [hall]; exact hm)
  unfold images at h
  rw [hall] at h
  exact ⟨p, hrun, h.reports⟩

/-- Two events of 32 bytes each. -/
def twoRecords : List LogRecord :=
  [⟨⟨1, 5, 0, []⟩, rfl, by decide⟩, ⟨⟨2, 5, 0, []⟩, rfl, by decide⟩]

/-- The second event was written in part, and the first one arrives in two pieces. -/
theorem crash_recovery_torn : ∃ got,
    Recovered (fun _ => 0) twoRecords ((images (fun _ => 0) twoRecords).take 42)
      [.deliver ((images (fun _ => 0) twoRecords).take 5), .read,
        .deliver (((images (fun _ => 0) twoRecords).take 42).drop 5)] 42 got :=
  crash_recovery _ twoRecords _ ( take_prefix 42 _) _ rfl 42

end Tdlib.Binlog
