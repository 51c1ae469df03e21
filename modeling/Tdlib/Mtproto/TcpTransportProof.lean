import Tdlib.Mtproto.TcpTransport

/-!
# Framing is transparent

Writing: every message adds a frame to what was written, and with TLS the header and the frames are
the concatenation of the payloads of the records.

Reading: at any time, what a layer still has to give is determined by what it holds and what is
still to come. A layer that has everything gives everything, and neither the pieces in which the
bytes arrive nor the places where the records end play a part.
-/

namespace Tdlib.Mtproto.Tcp

open Tdlib.Lib List TlsReaderByteFlow

/-! ## Frames -/

/-- The size of the body, and the body. -/
def frame (withPadding : Bool) (m : Outgoing) : List UInt8 :=
  leBytes 4 (m.body withPadding).length ++ m.body withPadding

/-- A message that may be written. -/
def Outgoing.Valid (m : Outgoing) : Prop := m.message.length % 4 = 0 ∧ m.message.length < 2 ^ 24

instance (m : Outgoing) : Decidable m.Valid := instDecidableAnd

variable {withPadding : Bool} {m : Outgoing} {messages : List Outgoing}

theorem length_frame : (frame withPadding m).length = 4 + (m.body withPadding).length := by
  rw [frame, length_append, length_leBytes]

theorem length_body_lt (withPadding : Bool) (h : m.Valid) :
    (m.body withPadding).length < 2 ^ 31 := by
  have hrandom := m.random_lt
  have hmessage := h.2
  unfold Outgoing.body
  rw [length_append]
  cases withPadding with
  | true =>
    show m.message.length + m.random.length < 2 ^ 31
    omega
  | false =>
    show m.message.length + 0 < 2 ^ 31
    omega

theorem writePrepareInplace_eq (h : m.Valid) :
    writePrepareInplace withPadding m false = some (frame withPadding m) := by
  unfold writePrepareInplace
  rw [if_neg (not_not.mpr h.1), if_neg (not_le.mpr h.2)]
  simp only [Bool.false_eq_true, if_false]
  rw [frame, Outgoing.body, length_append]

/-- A frame that is there is read. -/
theorem readFromStream_frame (h : m.Valid) (rest : List UInt8) :
    readFromStream (frame withPadding m ++ rest) = (.message (m.body withPadding), rest) := by
  have hlt := length_body_lt withPadding h
  have hsize : leNat ((frame withPadding m ++ rest).take 4) = (m.body withPadding).length := by
    rw [frame, append_assoc, take_left' (length_leBytes 4 _)]
    exact leNat_leBytes_of_lt (lt_trans hlt (by decide))
  have hdrop : (frame withPadding m ++ rest).drop 4 = m.body withPadding ++ rest := by
    rw [frame, append_assoc, drop_left' (length_leBytes 4 _)]
  have hlength : (frame withPadding m ++ rest).length
      = 4 + (m.body withPadding).length + rest.length := by
    rw [length_append, length_frame]
  unfold readFromStream
  dsimp only
  rw [if_neg (by omega), hsize, Nat.testBit_lt_two_pow hlt, if_neg nofun,
    if_neg (by omega), hdrop, take_left' rfl, ← length_frame.trans (add_comm _ _),
    drop_left' rfl]

/-- A piece of a frame is waited for. -/
theorem readFromStream_piece {stream rest : List UInt8} (h : m.Valid)
    (hframe : frame withPadding m = stream ++ rest)
    (hlength : stream.length < (frame withPadding m).length) :
    ∃ size, readFromStream stream = (.wait size, stream) := by
  unfold readFromStream
  dsimp only
  by_cases hshort : stream.length < 4
  · exact ⟨4, if_pos hshort⟩
  have hlt := length_body_lt withPadding h
  have hsize : leNat (stream.take 4) = (m.body withPadding).length := by
    have htake : stream.take 4 = (frame withPadding m).take 4 := by
      rw [hframe, take_append_of_le_length (by omega)]
    rw [htake, frame, take_left' (length_leBytes 4 _)]
    exact leNat_leBytes_of_lt (lt_trans hlt (by decide))
  rw [length_frame] at hlength
  rw [if_neg hshort, hsize, Nat.testBit_lt_two_pow hlt, if_neg nofun,
    if_pos (by omega)]
  exact ⟨_, rfl⟩

theorem flatMap_frame_eq_nil (h : messages.flatMap (frame withPadding) = []) : messages = [] := by
  cases messages with
  | nil => rfl
  | cons m messages =>
    have hlength := congrArg length h
    rw [flatMap_cons, length_append, length_frame, length_nil] at hlength
    omega

/-- Reading something makes the stream shorter. -/
theorem readFromStream_lt {stream : List UInt8}
    (h : ∀ size, (readFromStream stream).1 ≠ .wait size) :
    (readFromStream stream).2.length < stream.length := by
  unfold readFromStream at h ⊢
  dsimp only at h
  split at h
  · exact absurd rfl (h _)
  rename_i hlong
  rw [if_neg hlong]
  split at h
  · rename_i hack
    rw [if_pos hack, length_drop]
    omega
  rename_i hack
  rw [if_neg hack]
  split at h
  · exact absurd rfl (h _)
  · rename_i hthere
    rw [if_neg hthere, length_drop]
    omega

/-! ## Records -/

variable {p : List UInt8}

theorem length_tlsRecord : (tlsRecord p).length = 5 + p.length := by
  unfold tlsRecord
  simp only [length_cons]
  omega

/-- The two bytes of the length. -/
theorem record_length (h : p.length < 2 ^ 16) :
    (UInt8.ofNat (p.length >>> 8 &&& 0xff)).toNat <<< 8
      ||| (UInt8.ofNat (p.length &&& 0xff)).toNat = p.length := by
  have hmask : ∀ n : Nat, n &&& 0xff = n % 2 ^ 8 := fun n => Nat.and_two_pow_sub_one_eq_mod n 8
  have hbyte : ∀ n : Nat, (UInt8.ofNat (n % 2 ^ 8)).toNat = n % 2 ^ 8 := by
    intro n
    rw [UInt8.toNat_ofNat']
    omega
  rw [hmask, hmask, hbyte, hbyte, ← Nat.shiftLeft_add_eq_or_of_lt (Nat.mod_lt _ (by decide))]
  omega

namespace TlsReaderByteFlow

theorem loop_progress : ByteFlow.Progress loop := by
  intro state input hresult
  unfold loop at hresult ⊢
  split at hresult
  · split at hresult
    · cases hresult
    · rename_i hstart
      dsimp only at hresult
      split at hresult
      · cases hresult
      · rename_i hlong
        rw [if_neg hstart, if_neg hlong]
        simp only [length_drop, length_cons]
        omega
  · cases hresult

theorem loop_size (input : List UInt8) :
    (loop () input).input.length + (loop () input).output.length ≤ input.length := by
  unfold loop
  split
  · split
    · exact le_rfl
    · dsimp only
      split
      · exact le_rfl
      · simp only [length_drop, length_take, length_cons]
        omega
  · exact le_rfl

/-- A record that is there is taken off. -/
theorem loop_record (h : p.length < 2 ^ 16) (rest : List UInt8) :
    loop () (tlsRecord p ++ rest) = ⟨(), rest, p, 0, none, true⟩ := by
  unfold loop tlsRecord
  simp only [cons_append]
  rw [if_neg (not_not.mpr rfl), record_length h, if_neg (by rw [length_append]; omega),
    drop_left' rfl, take_left' rfl]

/-- For a piece of a record the flow waits, and not for more than the record. -/
theorem loop_piece {input rest : List UInt8} (h : p.length < 2 ^ 16)
    (hrecord : tlsRecord p = input ++ rest) (hlength : input.length < (tlsRecord p).length) :
    ∃ need, loop () input = ⟨(), input, [], need, none, false⟩ ∧ input.length < need ∧
      need ≤ (tlsRecord p).length := by
  rw [length_tlsRecord] at hlength ⊢
  match input, hrecord, hlength with
  | [], _, _ | [_], _, _ | [_, _], _, _ | [_, _, _], _, _ | [_, _, _, _], _, _ =>
    refine ⟨5, rfl, ?_, Nat.le_add_right 5 _⟩
    simp only [length_cons, length_nil]
    omega
  | b0 :: b1 :: b2 :: b3 :: b4 :: it, hrecord, hlength =>
    -- The five bytes are those of the record.
    unfold tlsRecord at hrecord
    simp only [cons_append, cons.injEq] at hrecord
    obtain ⟨rfl, rfl, rfl, rfl, rfl, hpayload⟩ := hrecord
    simp only [length_cons] at hlength
    refine ⟨5 + p.length, ?_, by omega, le_rfl⟩
    unfold loop
    dsimp only
    rw [if_neg (not_not.mpr rfl), record_length h, if_pos (by omega)]

/-! ## Reading records -/

/-- The flow has yet to give `records`, of which the bytes `coming` have not arrived. -/
structure Ahead (flow : ByteFlow Unit) (coming : List UInt8) (records : List (List UInt8)) :
    Prop where
  bytes : flow.input ++ coming = records.flatMap tlsRecord
  lengths : ∀ p ∈ records, p.length < 2 ^ 16
  good : flow.status = none
  /-- It never waits for more than the next record. -/
  need : ∀ p ∈ records.head?, flow.needSize ≤ (tlsRecord p).length

variable {flow : ByteFlow Unit} {coming : List UInt8} {records : List (List UInt8)}

/-- Some records were given, and the others are ahead. -/
def Gives (flow flow' : ByteFlow Unit) (coming : List UInt8) (records : List (List UInt8)) : Prop :=
  ∃ given rest, records = given ++ rest ∧ Ahead flow' coming rest ∧
    flow'.output = flow.output ++ given.flatten

theorem Gives.refl (h : Ahead flow coming records) : Gives flow flow coming records :=
  ⟨[], records, rfl, h, (append_nil _).symm⟩

/-- The flow after a call of `loop` that waits. -/
theorem after_wait {need : Nat}
    (hloop : loop () flow.input = ⟨(), flow.input, [], need, none, false⟩)
    (hneed : flow.input.length < need) :
    flow.after loop = { flow with needSize := need, status := none } := by
  unfold ByteFlow.after
  rw [show loop flow.state flow.input = _ from hloop]
  dsimp only
  rw [append_nil, if_neg (by omega)]

/-- One call of `loop`. -/
theorem Ahead.after (h : Ahead flow coming records) :
    Gives flow (flow.after loop) coming records := by
  cases records with
  | nil =>
    have hinput : flow.input = [] := (append_eq_nil_iff.mp h.bytes).1
    have hloop : loop () flow.input = ⟨(), flow.input, [], 5, none, false⟩ := by
      rw [hinput]
      rfl
    rw [after_wait hloop (by rw [hinput]; decide)]
    exact ⟨[], [], rfl, ⟨h.bytes, h.lengths, rfl, nofun⟩, (append_nil _).symm⟩
  | cons p records =>
    have hp := h.lengths p mem_cons_self
    by_cases hthere : (tlsRecord p).length ≤ flow.input.length
    · obtain ⟨rest, hinput, hrest⟩ := take_frame h.bytes hthere
      have hafter : flow.after loop = ⟨(), rest, flow.output ++ p, 0, none⟩ := by
        unfold ByteFlow.after
        rw [show loop flow.state flow.input = _ from hinput ▸ loop_record hp rest]
        rfl
      rw [hafter]
      refine ⟨[p], records, rfl, ⟨hrest, ?_, rfl, fun _ _ => Nat.zero_le _⟩, ?_⟩
      · exact (forall_mem_cons.1 h.lengths).2
      · rw [flatten_singleton]
    · have hpiece : flow.input.length < (tlsRecord p).length := by omega
      obtain ⟨rest, hrecord⟩ := piece_of_frame h.bytes hpiece
      obtain ⟨need, hloop, hmore, hneed⟩ := loop_piece hp hrecord hpiece
      rw [after_wait hloop hmore]
      refine ⟨[], p :: records, rfl, ⟨h.bytes, h.lengths, rfl, ?_⟩, (append_nil _).symm⟩
      intro q hq
      cases hq
      exact hneed

theorem Gives.trans {flow' flow'' : ByteFlow Unit} (h : Gives flow flow' coming records)
    (hstep : ∀ rest, Ahead flow' coming rest → Gives flow' flow'' coming rest) :
    Gives flow flow'' coming records := by
  obtain ⟨given, rest, rfl, hahead, houtput⟩ := h
  obtain ⟨given', rest', rfl, hahead', houtput'⟩ := hstep rest hahead
  refine ⟨given ++ given', rest', (append_assoc _ _ _).symm, hahead', ?_⟩
  rw [houtput', houtput, flatten_append, append_assoc]

/-- The next record has not arrived. -/
def Short (flow : ByteFlow Unit) (records : List (List UInt8)) : Prop :=
  ∀ p ∈ records.head?, flow.input.length < (tlsRecord p).length

theorem Ahead.short (h : Ahead flow coming records) (hidle : flow.Idle) : Short flow records := by
  intro p hp
  have hneed := h.need p hp
  rcases hidle with hstatus | hshort
  · rw [h.good] at hstatus
    cases hstatus
  · omega

theorem Ahead.eq_nil (h : Ahead flow [] records) (hshort : Short flow records) : records = [] := by
  cases records with
  | nil => rfl
  | cons p records =>
    have hlt := hshort p rfl
    have hthere := frame_there h.bytes
    omega

/-- **The flow woken up** gives the records that have arrived. -/
theorem Ahead.wakeup (h : Ahead flow coming records) :
    ∃ given rest, records = given ++ rest ∧ Ahead (ByteFlow.wakeup loop flow) coming rest ∧
      Short (ByteFlow.wakeup loop flow) rest ∧
      (ByteFlow.wakeup loop flow).output = flow.output ++ given.flatten := by
  have hstep : ∀ f, Gives flow f coming records → ¬f.Idle →
      Gives flow (f.after loop) coming records :=
    fun f hf _ => hf.trans fun rest hrest => hrest.after
  obtain ⟨⟨given, rest, hrecords, hahead, houtput⟩, hidle⟩ :=
    ByteFlow.wakeup_rule loop_progress hstep (.refl h)
  exact ⟨given, rest, hrecords, hahead, hahead.short hidle, houtput⟩

/-- Bytes arrive. -/
theorem Ahead.arrive {piece : List UInt8} (h : Ahead flow (piece ++ coming) records) :
    Ahead { flow with input := flow.input ++ piece } coming records := by
  refine ⟨?_, h.lengths, h.good, h.need⟩
  rw [← h.bytes, append_assoc]

theorem ahead_initial {bytes : List UInt8} (h : bytes = records.flatMap tlsRecord)
    (hlengths : ∀ p ∈ records, p.length < 2 ^ 16) :
    Ahead initial bytes records ∧ Short initial records := by
  refine ⟨⟨h, hlengths, rfl, fun _ _ => Nat.zero_le _⟩, fun p _ => ?_⟩
  rw [length_tlsRecord]
  exact lt_of_lt_of_le (by decide) (Nat.le_add_right 5 _)

/-- **Records are taken apart in the same way however they arrive.** -/
theorem Ahead.receive_all {pieces : List (List UInt8)} (h : Ahead flow pieces.flatten records)
    (hshort : Short flow records) :
    (pieces.foldl receive flow).output = flow.output ++ records.flatten ∧
      (pieces.foldl receive flow).status = none := by
  induction pieces generalizing flow records with
  | nil =>
    cases h.eq_nil hshort
    exact ⟨(append_nil _).symm, h.good⟩
  | cons piece pieces ih =>
    obtain ⟨given, rest, rfl, hahead, hshort, houtput⟩ := h.arrive.wakeup
    obtain ⟨hfinal, hrest⟩ := ih hahead hshort
    refine ⟨?_, hrest⟩
    rw [flatten_append, ← append_assoc]
    exact hfinal.trans (congrArg (· ++ rest.flatten) houtput)

end TlsReaderByteFlow

/-! ## Reading messages -/

namespace Reader

variable {r : Reader} {coming later : List UInt8}

/-- What is in the flows will add `later` to the stream, once the bytes `coming` have arrived. -/
def Supplies (r : Reader) (coming later : List UInt8) : Prop :=
  r.flow.output = [] ∧ r.flow.status = none ∧
    if r.emulateTls then
      ∃ records, later = records.flatten ∧ TlsReaderByteFlow.Ahead r.flow coming records
    else later = r.flow.input ++ coming

/-- The reader has yet to give `messages` after what is left of the header, of which the bytes
`coming` have not arrived. -/
structure Ahead (r : Reader) (withPadding : Bool) (coming : List UInt8) (messages : List Outgoing) :
    Prop where
  valid : ∀ m ∈ messages, m.Valid
  bytes : ∃ later header, Supplies r coming later ∧ r.skip = header.length ∧
    r.stream ++ later = header ++ messages.flatMap (frame withPadding)

theorem Supplies.arrive {piece : List UInt8} (h : Supplies r (piece ++ coming) later) :
    Supplies { r with flow := { r.flow with input := r.flow.input ++ piece } } coming later := by
  obtain ⟨houtput, hstatus, hlater⟩ := h
  refine ⟨houtput, hstatus, ?_⟩
  split
  · rename_i htls
    rw [if_pos htls] at hlater
    obtain ⟨records, hrecords, hahead⟩ := hlater
    exact ⟨records, hrecords, hahead.arrive⟩
  · rename_i htls
    rw [if_neg htls] at hlater
    rw [hlater, append_assoc]

theorem pump_good (h : r.woken.status = none) : r.pump =
    { r with flow := { r.woken with output := [] }, stream := r.stream ++ r.woken.output } := by
  exact if_neg (by rw [h]; exact nofun)

/-- The flow woken up: some bytes go to its output, and all if nothing is to come. -/
theorem Supplies.woken (h : Supplies r coming later) :
    ∃ rest, later = r.woken.output ++ rest ∧
      Supplies { r with flow := { r.woken with output := [] } } coming rest ∧
      (coming = [] → rest = []) := by
  obtain ⟨houtput, hstatus, hlater⟩ := h
  by_cases htls : r.emulateTls
  · rw [if_pos htls] at hlater
    obtain ⟨records, rfl, hahead⟩ := hlater
    obtain ⟨given, rest, rfl, hahead, hshort, hgiven⟩ := hahead.wakeup
    have hwoken : r.woken = ByteFlow.wakeup loop r.flow := if_pos htls
    rw [houtput] at hgiven
    rw [hwoken, hgiven]
    refine ⟨rest.flatten, flatten_append, ⟨rfl, hahead.good, ?_⟩, ?_⟩
    · rw [if_pos htls]
      exact ⟨rest, rfl, hahead.bytes, hahead.lengths, hahead.good, hahead.need⟩
    · rintro rfl
      rw [hahead.eq_nil hshort]
      rfl
  · rw [if_neg htls] at hlater
    have hwoken : r.woken = { r.flow with input := [], output := r.flow.input } := by
      unfold Reader.woken
      rw [if_neg htls, houtput]
      rfl
    rw [hwoken]
    refine ⟨coming, hlater, ⟨rfl, hstatus, ?_⟩, id⟩
    rw [if_neg htls]
    rfl

/-- The header is taken off as far as it is there. -/
theorem drop_header {stream header frames : List UInt8} (h : stream ++ later = header ++ frames) :
    stream.drop header.length ++ later = header.drop stream.length ++ frames ∧
      (stream.drop header.length = [] ∨ header.drop stream.length = []) := by
  rcases append_eq_append_iff.mp h with ⟨rest, rfl, rfl⟩ | ⟨rest, rfl, rfl⟩
  · rw [drop_left' rfl, drop_eq_nil_of_le (by rw [length_append]; omega)]
    exact ⟨rfl, .inl rfl⟩
  · rw [drop_left' rfl, drop_eq_nil_of_le (by rw [length_append]; omega)]
    exact ⟨rfl, .inr rfl⟩

/-- After the flows have been woken up and the header is off, either the rest of the header is still
to come and the stream is empty, or the stream starts with the next message. -/
theorem Ahead.prepared (h : Ahead r withPadding coming messages) :
    ∃ later header, Supplies r.pump.takeHeader coming later ∧
      r.pump.takeHeader.skip = header.length ∧
      r.pump.takeHeader.stream ++ later = header ++ messages.flatMap (frame withPadding) ∧
      (r.pump.takeHeader.stream = [] ∨ header = []) ∧ (coming = [] → later = []) := by
  obtain ⟨later, header, hsupplies, hskip, hbytes⟩ := h.bytes
  obtain ⟨rest, rfl, hrest, hall⟩ := hsupplies.woken
  have hpump := pump_good hrest.2.1
  rw [← append_assoc] at hbytes
  obtain ⟨hdrop, hone⟩ := drop_header hbytes
  rw [hpump]
  refine ⟨rest, header.drop (r.stream ++ r.woken.output).length, hrest, ?_, ?_, ?_, hall⟩
  · rw [length_drop, ← hskip]
    rfl
  · rw [← hdrop, ← hskip]
    rfl
  · rw [← hskip] at hone
    exact hone

/-- **One `read_next`**: the next message if it is there. -/
theorem Ahead.readNext (h : Ahead r withPadding coming messages) :
    (∃ size r', r.readNext = (.wait size, r') ∧ Ahead r' withPadding coming messages ∧
      (coming = [] → messages = [])) ∨
    ∃ m rest r', messages = m :: rest ∧ r.readNext = (.message (m.body withPadding), r') ∧
      Ahead r' withPadding coming rest := by
  obtain ⟨later, header, hsupplies, hskip, hbytes, hone, hall⟩ := h.prepared
  unfold Reader.readNext
  generalize r.pump.takeHeader = r at hsupplies hskip hbytes hone
  dsimp only
  have hwait : ∀ size, readFromStream r.stream = (.wait size, r.stream) →
      (coming = [] → messages = []) →
      ∃ size r', ((readFromStream r.stream).1, { r with stream := (readFromStream r.stream).2 })
        = (Read.wait size, r') ∧ Ahead r' withPadding coming messages ∧
        (coming = [] → messages = []) := by
    intro size hread hdone
    rw [hread]
    exact ⟨size, r, rfl, ⟨h.valid, later, header, hsupplies, hskip, hbytes⟩, hdone⟩
  by_cases hempty : r.stream = []
  · refine .inl (hwait 4 (by rw [hempty]; rfl) fun hcoming => ?_)
    rw [hempty, hall hcoming] at hbytes
    exact flatMap_frame_eq_nil (append_eq_nil_iff.mp hbytes.symm).2
  cases hone.resolve_left hempty
  cases messages with
  | nil => exact absurd (append_eq_nil_iff.mp hbytes).1 hempty
  | cons m messages =>
    have hm := h.valid m mem_cons_self
    by_cases hthere : (frame withPadding m).length ≤ r.stream.length
    · obtain ⟨rest, hstream, hrest⟩ := take_frame hbytes hthere
      refine .inr ⟨m, messages, { r with stream := rest }, rfl, ?_, ?_, ?_⟩
      · rw [hstream, readFromStream_frame hm]
      · exact (forall_mem_cons.1 h.valid).2
      · exact ⟨later, [], hsupplies, hskip, hrest⟩
    have hlt : r.stream.length < (frame withPadding m).length := by omega
    obtain ⟨rest, hframe⟩ := piece_of_frame hbytes hlt
    obtain ⟨size, hread⟩ := readFromStream_piece hm hframe hlt
    refine .inl (hwait size hread fun hcoming => ?_)
    rw [hall hcoming] at hbytes
    exact absurd (frame_there hbytes) hthere

/-! ## Reading everything -/

/-- The bytes that a reader has. -/
def size (r : Reader) : Nat := r.flow.input.length + r.flow.output.length + r.stream.length

theorem size_pump_le (r : Reader) : r.pump.size ≤ r.size := by
  have hwoken : r.woken.input.length + r.woken.output.length
      ≤ r.flow.input.length + r.flow.output.length := by
    unfold Reader.woken
    split
    · refine (ByteFlow.wakeup_rule (P := fun f => f.input.length + f.output.length
        ≤ r.flow.input.length + r.flow.output.length) loop_progress
        (fun f hf _ => ?_) le_rfl).1
      have hloop := loop_size f.input
      show (loop () f.input).input.length
        + (f.output ++ (loop () f.input).output).length ≤ _
      rw [length_append]
      omega
    · simp only [length_nil, length_append]
      omega
  unfold Reader.pump size
  split
  · dsimp only
    omega
  · simp only [length_nil, length_append]
    omega

variable {r' : Reader}

theorem size_readNext_lt {read : Read} (h : r.readNext = (read, r'))
    (hread : ∀ size, read ≠ .wait size) : r'.size < r.size := by
  have hpump := size_pump_le r
  obtain ⟨rfl, rfl⟩ := Prod.mk.inj h
  have hheader : r.pump.takeHeader.size ≤ r.pump.size := by
    unfold Reader.takeHeader size
    dsimp only
    rw [length_drop]
    omega
  have hstream := readFromStream_lt hread
  unfold size at *
  dsimp only at *
  omega

theorem turn_wait {got : List Read} {size : Nat} (h : r.readNext = (.wait size, r')) :
    turn (r, got) = .stop (r', got) := by
  unfold turn
  dsimp only
  rw [h]

theorem turn_read {got : List Read} {read : Read} (h : r.readNext = (read, r'))
    (hread : ∀ size, read ≠ .wait size) : turn (r, got) = .again (r', got ++ [read]) := by
  unfold turn
  dsimp only
  rw [h]
  cases read with
  | wait size => exact absurd rfl (hread size)
  | quickAck value | message data => rfl

theorem turn_decreases {s s' : Reader × List Read} (h : turn s = .again s') :
    s'.1.size < s.1.size := by
  obtain ⟨r, got⟩ := s
  cases hnext : r.readNext with
  | mk read r' =>
    by_cases hread : ∃ size, read = .wait size
    · obtain ⟨size, rfl⟩ := hread
      rw [turn_wait hnext] at h
      cases h
    · have hread : ∀ size, read ≠ .wait size := fun size heq => hread ⟨size, heq⟩
      rw [turn_read hnext hread] at h
      cases h
      exact size_readNext_lt hnext hread

theorem flushRead_ends (r : Reader) : Ends turn (r, []) (flushRead r) := by
  have henough : ∃ result, rounds turn (r.size + 1) (r, []) = some result :=
    rounds_isSome (fun s : Reader × List Read => s.1.size) (fun _ _ => turn_decreases)
      (Nat.lt_succ_self r.size)
  obtain ⟨result, hresult⟩ := henough
  have hflush : flushRead r = result := by
    show (rounds turn (r.size + 1) (r, [])).getD (r, []) = result
    rw [hresult]
    rfl
  rw [hflush]
  exact .of_rounds hresult

/-- **All messages that are there are read**, and all messages if nothing is to come. -/
theorem Ahead.flushRead (h : Ahead r withPadding coming messages) :
    ∃ given rest, messages = given ++ rest ∧
      (flushRead r).2 = given.map (fun m => .message (m.body withPadding)) ∧
      Ahead (flushRead r).1 withPadding coming rest ∧ (coming = [] → rest = []) := by
  refine (flushRead_ends r).rule
    (P := fun s => ∃ given rest, messages = given ++ rest ∧
      s.2 = given.map (fun m => .message (m.body withPadding)) ∧ Ahead s.1 withPadding coming rest)
    (Q := fun s => ∃ given rest, messages = given ++ rest ∧
      s.2 = given.map (fun m => .message (m.body withPadding)) ∧
      Ahead s.1 withPadding coming rest ∧ (coming = [] → rest = [])) ?_ ?_
        ⟨[], messages, rfl, rfl, h⟩
  · rintro ⟨r, got⟩ s' ⟨given, rest, hmessages, hgot, hahead⟩ hturn
    rcases hahead.readNext with ⟨size, r', hread, -, -⟩ | ⟨m, rest', r', rfl, hread, hahead'⟩
    · rw [turn_wait hread] at hturn
      cases hturn
    rw [turn_read hread nofun] at hturn
    cases hturn
    refine ⟨given ++ [m], rest', by rw [hmessages, append_assoc]; rfl, ?_, hahead'⟩
    rw [map_append]
    exact congrArg (· ++ _) hgot
  · rintro ⟨r, got⟩ s' ⟨given, rest, hmessages, hgot, hahead⟩ hturn
    rcases hahead.readNext with ⟨size, r', hread, hahead', hdone⟩ | ⟨m, rest', r', rfl, hread, -⟩
    · rw [turn_wait hread] at hturn
      cases hturn
      exact ⟨given, rest, hmessages, hgot, hahead', hdone⟩
    · rw [turn_read hread nofun] at hturn
      cases hturn

/-- **The messages do not depend on the pieces.** -/
theorem Ahead.readAll {pieces : List (List UInt8)} (h : Ahead r withPadding pieces.flatten messages)
    (hdone : pieces.flatten = [] → messages = []) :
    readAll r pieces = messages.map fun m => .message (m.body withPadding) := by
  induction pieces generalizing r messages with
  | nil =>
    rw [hdone rfl]
    rfl
  | cons piece pieces ih =>
    obtain ⟨later, header, hsupplies, hskip, hbytes⟩ := h.bytes
    have harrived : Ahead { r with flow := { r.flow with input := r.flow.input ++ piece } }
        withPadding pieces.flatten messages :=
      ⟨h.valid, later, header, hsupplies.arrive, hskip, hbytes⟩
    obtain ⟨given, rest, rfl, hgot, hahead, hend⟩ := harrived.flushRead
    rw [map_append, ← hgot, ← ih hahead hend]
    rfl

variable {header : List UInt8} {pieces : List (List UInt8)} {records : List (List UInt8)}

theorem flatten_ne_nil (hne : messages ≠ [])
    (h : pieces.flatten = header ++ messages.flatMap (frame withPadding)) :
    pieces.flatten ≠ [] := by
  intro hnil
  rw [hnil] at h
  exact hne (flatMap_frame_eq_nil (append_eq_nil_iff.mp h.symm).2)

theorem readAll_plain (hmessages : ∀ m ∈ messages, m.Valid) (hne : messages ≠ [])
    (h : pieces.flatten = header ++ messages.flatMap (frame withPadding)) :
    (Reader.initial false header.length).readAll pieces
      = messages.map fun m => .message (m.body withPadding) :=
  Ahead.readAll ⟨hmessages, pieces.flatten, header, ⟨rfl, rfl, rfl⟩, rfl, h⟩
    fun hnil => absurd hnil (flatten_ne_nil hne h)

theorem readAll_records (hmessages : ∀ m ∈ messages, m.Valid)
    (h : pieces.flatten = records.flatMap tlsRecord)
    (hflatten : records.flatten = header ++ messages.flatMap (frame withPadding))
    (hlengths : ∀ p ∈ records, p.length < 2 ^ 16) :
    (Reader.initial true header.length).readAll pieces
      = messages.map fun m => .message (m.body withPadding) := by
  obtain ⟨hahead, hshort⟩ := ahead_initial h hlengths
  refine Ahead.readAll ⟨hmessages, records.flatten, header,
    ⟨rfl, rfl, records, rfl, hahead⟩, rfl, hflatten⟩ fun hnil => ?_
  -- Without any byte there was no record, and so no message.
  rw [hnil] at hahead
  rw [hahead.eq_nil hshort] at hflatten
  exact flatMap_frame_eq_nil (append_eq_nil_iff.mp hflatten.symm).2

end Reader

/-! ## Writing -/

namespace ObfuscatedTransport

variable {t t' t'' : ObfuscatedTransport} {data data' : List UInt8}

/-- With TLS, records were written that carry the header and the data. -/
structure WrittenTls (t t' : ObfuscatedTransport) (data : List UInt8) : Prop where
  header : t'.header = []
  first : t'.isFirstTlsPacket = false
  options : t'.emulateTls = t.emulateTls ∧ t'.withPadding = t.withPadding
  output : ∃ records : List (List UInt8),
    t'.output = t.output ++ ((if t.isFirstTlsPacket then firstPrefix else [])
      ++ records.flatMap tlsRecord) ∧
    records.flatten = t.header ++ data ∧ ∀ p ∈ records, p.length ≤ maxTlsPacketLength

theorem WrittenTls.trans (h : WrittenTls t t' data) (h' : WrittenTls t' t'' data') :
    WrittenTls t t'' (data ++ data') := by
  obtain ⟨records, houtput, hflatten, hlengths⟩ := h.output
  obtain ⟨records', houtput', hflatten', hlengths'⟩ := h'.output
  refine ⟨h'.header, h'.first, ⟨h'.options.1.trans h.options.1, h'.options.2.trans h.options.2⟩,
    records ++ records', ?_, ?_, ?_⟩
  · rw [houtput', houtput, h.first, flatMap_append]
    simp only [Bool.false_eq_true, if_false, nil_append, append_assoc]
  · rw [flatten_append, hflatten, hflatten', h.header, nil_append, append_assoc]
  · intro p hp
    exact (mem_append.mp hp).elim (hlengths p) (hlengths' p)

theorem doWriteTlsRecord_written (h : (t.header ++ data).length ≤ maxTlsPacketLength) :
    ∃ t', doWriteTlsRecord t data = some t' ∧ WrittenTls t t' data := by
  refine ⟨_, if_neg (not_lt.mpr h), rfl, rfl, ⟨rfl, rfl⟩, [t.header ++ data], ?_, ?_, ?_⟩
  · rw [flatMap_singleton]
  · exact flatten_singleton
  · intro p hp
    rw [mem_singleton.mp hp]
    exact h

/-- One slice. -/
theorem writeSlices_slice (n : Nat) (hheader : t.header.length ≤ maxTlsPacketLength)
    (hdata : data ≠ []) :
    ∃ t', WrittenTls t t' (data.take (maxTlsPacketLength - t.header.length)) ∧
      writeSlices (n + 1) t data
        = writeSlices n t' (data.drop (maxTlsPacketLength - t.header.length)) := by
  have hbuf : (t.header ++ data.take (maxTlsPacketLength - t.header.length)).length
      ≤ maxTlsPacketLength := by
    rw [length_append, length_take]
    omega
  obtain ⟨t', hrecord, hwritten⟩ := doWriteTlsRecord_written hbuf
  refine ⟨t', hwritten, ?_⟩
  rw [writeSlices, if_neg hdata]
  dsimp only
  rw [hrecord]
  rw [length_take]
  rcases le_total (maxTlsPacketLength - t.header.length) data.length with hle | hle
  · rw [min_eq_left hle]
  · rw [min_eq_right hle, drop_length, drop_eq_nil_of_le hle]

/-- Once the header is written, every slice takes something off the message. -/
theorem writeSlices_written {n : Nat} (hheader : t.header = []) (hn : data.length < n)
    (hdata : data ≠ []) : ∃ t', writeSlices n t data = some t' ∧ WrittenTls t t' data := by
  induction n generalizing t data with
  | zero => cases hn
  | succ n ih =>
    have hpos : 0 < data.length := length_pos_iff.mpr hdata
    obtain ⟨t', hwritten, hslices⟩ := writeSlices_slice n
      (by rw [hheader]; exact Nat.zero_le _) hdata
    rw [hheader, length_nil, Nat.sub_zero] at hwritten hslices
    rw [hslices]
    by_cases hrest : data.drop maxTlsPacketLength = []
    · refine ⟨t', ?_, ?_⟩
      · obtain ⟨k, rfl⟩ : ∃ k, n = k + 1 := ⟨n - 1, by omega⟩
        rw [writeSlices, if_pos hrest]
      · rwa [take_of_length_le (drop_eq_nil_iff.mp hrest)] at hwritten
    have hshorter : (data.drop maxTlsPacketLength).length < n := by
      have hmax : (0 : Nat) < maxTlsPacketLength := by decide
      rw [length_drop]
      omega
    obtain ⟨t'', hslices', hwritten'⟩ := ih hwritten.header hshorter hrest
    refine ⟨t'', hslices', ?_⟩
    have := hwritten.trans hwritten'
    rwa [take_append_drop] at this

/-- **A message in TLS.** -/
theorem doWriteTls_written (hheader : t.header.length ≤ maxTlsPacketLength) (hdata : data ≠ []) :
    ∃ t', doWriteTls t data = some t' ∧ WrittenTls t t' data := by
  unfold doWriteTls
  rw [if_neg (not_lt.mpr hheader)]
  split
  · rename_i hlong
    -- The header goes with the first slice, of which something is left.
    obtain ⟨t', hwritten, hslices⟩ := writeSlices_slice (data.length + 1) hheader hdata
    have hrest : data.drop (maxTlsPacketLength - t.header.length) ≠ [] := by
      rw [ne_eq, drop_eq_nil_iff]
      omega
    obtain ⟨t'', hslices', hwritten'⟩ := writeSlices_written hwritten.header
      (by rw [length_drop]; omega : _ < data.length + 1) hrest
    refine ⟨t'', hslices.trans hslices', ?_⟩
    have := hwritten.trans hwritten'
    rwa [take_append_drop] at this
  · exact doWriteTlsRecord_written (by rw [length_append]; omega)

/-- Without TLS, the header and the data were written. -/
structure WrittenMain (t t' : ObfuscatedTransport) (data : List UInt8) : Prop where
  header : t'.header = []
  options : t'.emulateTls = t.emulateTls ∧ t'.withPadding = t.withPadding
  output : t'.output = t.output ++ (t.header ++ data)

theorem WrittenMain.trans (h : WrittenMain t t' data) (h' : WrittenMain t' t'' data') :
    WrittenMain t t'' (data ++ data') := by
  refine ⟨h'.header, ⟨h'.options.1.trans h.options.1, h'.options.2.trans h.options.2⟩, ?_⟩
  rw [h'.output, h.output, h.header, nil_append, append_assoc, append_assoc]

/-- The header and the data went out, as records if TLS is emulated. -/
def Written (t t' : ObfuscatedTransport) (data : List UInt8) : Prop :=
  if t.emulateTls then WrittenTls t t' data else WrittenMain t t' data

theorem Written.header (h : Written t t' data) : t'.header = [] := by
  unfold Written at h
  split at h
  · exact h.header
  · exact h.header

theorem Written.options (h : Written t t' data) :
    t'.emulateTls = t.emulateTls ∧ t'.withPadding = t.withPadding := by
  unfold Written at h
  split at h
  · exact h.options
  · exact h.options

theorem Written.trans (h : Written t t' data) (h' : Written t' t'' data') :
    Written t t'' (data ++ data') := by
  have hoptions := h.options.1
  unfold Written at h h' ⊢
  rw [hoptions] at h'
  split
  · rename_i htls
    rw [if_pos htls] at h h'
    exact h.trans h'
  · rename_i htls
    rw [if_neg htls] at h h'
    exact h.trans h'

theorem write_written (hheader : t.header.length ≤ maxTlsPacketLength) (hm : m.Valid) :
    ∃ t', t.write m false = some t' ∧ Written t t' (frame t.withPadding m) := by
  have hdata : frame t.withPadding m ≠ [] := by
    rw [← length_pos_iff, length_frame]
    omega
  unfold write Written
  rw [writePrepareInplace_eq hm]
  dsimp only
  split
  · exact doWriteTls_written hheader hdata
  · exact ⟨_, rfl, rfl, ⟨rfl, rfl⟩, rfl⟩

/-- **All messages are written.** -/
theorem writeAll_written (hheader : t.header.length ≤ maxTlsPacketLength)
    (hmessages : ∀ m ∈ messages, m.Valid) :
    ∃ t', t.writeAll messages = some t' ∧ (messages = [] ∧ t' = t ∨
      messages ≠ [] ∧ Written t t' (messages.flatMap (frame t.withPadding))) := by
  induction messages generalizing t with
  | nil => exact ⟨t, rfl, .inl ⟨rfl, rfl⟩⟩
  | cons m messages ih =>
    obtain ⟨t', hwrite, hwritten⟩ := write_written hheader (hmessages m mem_cons_self)
    have hheader' : t'.header.length ≤ maxTlsPacketLength := by
      rw [hwritten.header]
      exact Nat.zero_le _
    obtain ⟨t'', hrest, hcases⟩ := ih hheader' fun m' hm' =>
      hmessages m' (mem_cons_of_mem _ hm')
    refine ⟨t'', ?_, .inr ⟨cons_ne_nil _ _, ?_⟩⟩
    · rw [writeAll, hwrite]
      exact hrest
    · rcases hcases with ⟨rfl, rfl⟩ | ⟨-, hwritten'⟩
      · rwa [flatMap_singleton]
      · rw [hwritten.options.2] at hwritten'
        exact hwritten.trans hwritten'

end ObfuscatedTransport

/-! ## From one end to the other -/

/-- **Framing is transparent.** For all messages that may be written, with and without padding and
TLS:

* writing succeeds, and gives the header and the frames; with TLS these are the concatenation of the
  payloads of records that follow one short one;
* the records are taken apart in the same way in whatever pieces they arrive;
* the reader gives back the messages in the order in which they were written, each with its padding,
  in whatever pieces the bytes arrive. -/
theorem framing_transparent (emulateTls withPadding : Bool) (header : List UInt8)
    (messages : List Outgoing) (hheader : header.length ≤ maxTlsPacketLength)
    (hmessages : ∀ m ∈ messages, m.Valid) (hne : messages ≠ []) :
    ∃ t, (ObfuscatedTransport.initial emulateTls withPadding header).writeAll messages = some t ∧
      (emulateTls = false → t.output = header ++ messages.flatMap (frame withPadding)) ∧
      (emulateTls = true → ∃ records : List (List UInt8),
        t.output = firstPrefix ++ records.flatMap tlsRecord ∧
        records.flatten = header ++ messages.flatMap (frame withPadding) ∧
        ∀ p ∈ records, p.length ≤ maxTlsPacketLength) ∧
      (emulateTls = true → ∀ pieces : List (List UInt8), t.output = firstPrefix ++ pieces.flatten →
        (pieces.foldl TlsReaderByteFlow.receive TlsReaderByteFlow.initial).output
          = header ++ messages.flatMap (frame withPadding) ∧
        (pieces.foldl TlsReaderByteFlow.receive TlsReaderByteFlow.initial).status = none) ∧
      ∀ pieces : List (List UInt8),
        t.output = (if emulateTls then firstPrefix else []) ++ pieces.flatten →
        (Reader.initial emulateTls header.length).readAll pieces
          = messages.map fun m => .message (m.body withPadding) := by
  obtain ⟨t, hwrite, hcases⟩ := ObfuscatedTransport.writeAll_written
    (t := .initial emulateTls withPadding header) hheader hmessages
  obtain ⟨-, hwritten⟩ := hcases.resolve_left fun h => hne h.1
  refine ⟨t, hwrite, ?_⟩
  cases emulateTls with
  | false =>
    have houtput : t.output = header ++ messages.flatMap (frame withPadding) := hwritten.output
    refine ⟨fun _ => houtput, nofun, nofun, fun pieces hpieces => ?_⟩
    exact Reader.readAll_plain hmessages hne (hpieces.symm.trans houtput)
  | true =>
    obtain ⟨records, houtput, hflatten, hlengths⟩ := hwritten.output
    have hlengths' : ∀ p ∈ records, p.length < 2 ^ 16 :=
      fun p hp => lt_of_le_of_lt (hlengths p hp) (by decide)
    refine ⟨nofun, fun _ => ⟨records, houtput, hflatten, hlengths⟩, fun _ pieces hpieces => ?_,
      fun pieces hpieces => ?_⟩
    · have hbytes := append_cancel_left (hpieces.symm.trans houtput)
      obtain ⟨hahead, hshort⟩ := ahead_initial hbytes hlengths'
      obtain ⟨hout, hstatus⟩ := hahead.receive_all hshort
      exact ⟨hout.trans hflatten, hstatus⟩
    · have hbytes := append_cancel_left (hpieces.symm.trans houtput)
      exact Reader.readAll_records hmessages hbytes hflatten hlengths'

/-- Two messages with padding in TLS, of which every byte arrives on its own. -/
theorem framing_transparent_bytewise :
    (Reader.initial true 2).readAll
      ([0x17, 0x03, 0x03, 0x00, 0x0b, 0xaa, 0xbb, 5, 0, 0, 0, 1, 2, 3, 4, 9,
        0x17, 0x03, 0x03, 0x00, 0x04, 0, 0, 0, 0].map fun b => [b])
      = [.message [1, 2, 3, 4, 9], .message []] := by
  obtain ⟨t, hwrite, -, -, -, hread⟩ := framing_transparent true true [0xaa, 0xbb]
    [⟨[1, 2, 3, 4], [9], by decide⟩, ⟨[], [], by decide⟩] (by decide) (by decide) (by decide)
  refine hread _ ?_
  have houtput := congrArg (Option.map ObfuscatedTransport.output) hwrite
  exact (Option.some.inj (houtput.symm.trans (by decide)))

/-- Before the first message, nothing is written at all. -/
theorem nothing_written_first :
    ∃ t, (ObfuscatedTransport.initial true false (replicate 64 0)).writeAll [] = some t ∧
      ¬∃ records : List (List UInt8), t.output = firstPrefix ++ records.flatMap tlsRecord :=
  ⟨_, rfl, fun ⟨_, h⟩ => absurd h (cons_ne_nil _ _).symm⟩

end Tdlib.Mtproto.Tcp
