import Tdlib.KeyValue.Ops

/-!
# The log follows the calls

However the messages are delayed and mixed up, what the actor has logged is at
every moment the beginning of the sequence of all operations, in the order of
their numbers, and all of it once nothing is on its way. So the log can be read
back at any time: it gives the map as it was after the first calls.

With one exception. `erase_by_prefix` sends one event for each key, and nothing
ties these events together. The log may hold some of them without the others, and
then it gives a map that the store never had.
-/

namespace Tdlib.KeyValue

open Tl Binlog OrderedEventsProcessor List History

variable {platform : Platform} {dbKey : DbKey} {base : List Entry} {first : Nat}
  {history rest : History} {s s' : System}

/-! ## Messages -/

namespace History

/-- The raw event with the number `n`, if the history starts with the number `first`. -/
def rawAt (crc32 : Bytes → UInt32) (first : Nat) (history : History) (n : Nat) : Bytes :=
  (history[n - first]?.map fun x => x.2.image crc32).getD []

theorem rawAt_append (crc32 : Bytes → UInt32) (history rest : History) {n : Nat}
    (h1 : first ≤ n) (h2 : n < first + history.length) :
    (history ++ rest).rawAt crc32 first n = history.rawAt crc32 first n := by
  rw [rawAt, rawAt, getElem?_append_left (by omega)]

/-- The numbers of the messages of a history are consecutive. -/
theorem mem_messages {crc32 : Bytes → UInt32} {seqNo : UInt64} {message : Message}
    (hroom : seqNo.toNat + history.length ≤ 0x8000000000000000)
    (h : message ∈ history.messages crc32 seqNo) :
    ∃ i x, history[i]? = some x ∧ message.seqNo.toNat = seqNo.toNat + i ∧
      message.rawEvent = x.2.image crc32 := by
  induction history generalizing seqNo with
  | nil => cases h
  | cons x history ih =>
    obtain ⟨op, r⟩ := x
    rw [length_cons] at hroom
    rcases mem_cons.mp h with rfl | h
    · exact ⟨0, (op, r), rfl, rfl, rfl⟩
    · have hsucc : (seqNo + 1).toNat = seqNo.toNat + 1 := toNat_next (by omega)
      obtain ⟨i, y, hy, hseq, hraw⟩ := ih (by omega) h
      exact ⟨i + 1, y, hy, by omega, hraw⟩

theorem exists_message (crc32 : Bytes → UInt32) (seqNo : UInt64) {i : Nat}
    (hroom : seqNo.toNat + history.length ≤ 0x8000000000000000) (hi : i < history.length) :
    ∃ message ∈ history.messages crc32 seqNo, message.seqNo.toNat = seqNo.toNat + i := by
  induction history generalizing seqNo i with
  | nil => exact absurd hi (Nat.not_lt_zero _)
  | cons x history ih =>
    rw [length_cons] at hroom hi
    cases i with
    | zero => exact ⟨_, mem_cons_self, rfl⟩
    | succ i =>
      have hsucc : (seqNo + 1).toNat = seqNo.toNat + 1 := toNat_next (by omega)
      obtain ⟨message, hmem, hseq⟩ := ih (seqNo + 1) (i := i) (by omega) (by omega)
      exact ⟨message, mem_cons_of_mem _ hmem, by omega⟩

theorem nodup_messages (crc32 : Bytes → UInt32) {seqNo : UInt64}
    (hroom : seqNo.toNat + history.length ≤ 0x8000000000000000) :
    ((history.messages crc32 seqNo).map fun message => message.seqNo.toNat).Nodup := by
  induction history generalizing seqNo with
  | nil => exact nodup_nil
  | cons x history ih =>
    rw [length_cons] at hroom
    have hsucc : (seqNo + 1).toNat = seqNo.toNat + 1 := toNat_next (by omega)
    rw [messages, map_cons, nodup_cons]
    refine ⟨fun hmem => ?_, ih (by omega)⟩
    obtain ⟨message, hmessage, heq⟩ := mem_map.mp hmem
    obtain ⟨i, _, _, hseq, _⟩ := mem_messages (by omega) hmessage
    have heq : message.seqNo.toNat = seqNo.toNat := heq
    omega

/-- What is released next is a stretch of the history. -/
theorem stretch_rawAt (crc32 : Bytes → UInt32) (start : Nat) {k : Nat} (hfirst : first ≤ start)
    (hk : start + k ≤ first + history.length) :
    (stretch (history.rawAt crc32 first) start k).map Prod.snd
      = ((history.drop (start - first)).take k).map fun x => x.2.image crc32 := by
  induction k generalizing start with
  | zero => rw [take_zero]; rfl
  | succ k ih =>
    have hlt : start - first < history.length := by omega
    have hnext := ih (start + 1) (by omega) (by omega)
    rw [show start + 1 - first = start - first + 1 by omega] at hnext
    have hhead : history.rawAt crc32 first start = history[start - first].2.image crc32 := by
      rw [rawAt, getElem?_eq_getElem hlt]
      rfl
    rw [drop_eq_getElem_cons hlt, take_succ_cons, map_cons, ← hnext, ← hhead]
    rfl

end History

/-! ## The invariant -/

/-- The message with the number `n` has been delivered. -/
def Delivered (first : Nat) (history : History) (s : System) (n : Nat) : Prop :=
  first ≤ n ∧ n < first + history.length ∧ ∀ message ∈ s.inFlight, message.seqNo.toNat ≠ n

variable (platform) in
/-- The state of the system after the operations of `history`, the first of which has the number
`first`, on a store that held `base`. -/
structure Consistent (dbKey : DbKey) (base : List Entry) (first : Nat) (history : History)
    (s : System) : Prop where
  magic : ¬ s.kv.magic < 0
  follows : History.Follows s.kv.magic base first history
  map : s.kv.map.Perm (history.after base)
  next : s.lastId.toNat = first + history.length
  /-- Every message on its way is one of the history's, and is so once. -/
  sent : ∀ message ∈ s.inFlight, ∃ i x, history[i]? = some x ∧
    message.seqNo.toNat = first + i ∧ message.rawEvent = x.2.image platform.crc32
  once : (s.inFlight.map fun message => message.seqNo.toNat).Nodup
  order : InOrder first (history.rawAt platform.crc32 first) (Delivered first history s)
    s.actor.processor
  /-- The log holds the operations that were handed on. -/
  log : ∃ m, List.Forall₂ (Codes s.kv.magic) m
      (History.after (history.take (s.actor.processor.beginNo.toNat - first)) base) ∧
    Holds platform dbKey m s.actor.processor.beginNo.toNat s.actor.binlog

theorem Consistent.distinct (h : Consistent platform dbKey base first history s)
    (hbase : Distinct base first) (hfirst : 0 < first) :
    Distinct (history.after base) s.lastId.toNat := by
  rw [h.next]
  exact h.follows.distinct hbase hfirst

/-- The actor never runs ahead of the calls. -/
theorem Consistent.begin_le (h : Consistent platform dbKey base first history s) :
    s.actor.processor.beginNo.toNat ≤ first + history.length := by
  by_cases hlt : first + history.length < s.actor.processor.beginNo.toNat
  · have := (h.order.released _ (Nat.le_add_right _ _) hlt).2.1
    omega
  · omega

/-- What is in order stays in order if nothing more arrives. -/
theorem inOrder_congr {α : Type} {start : Nat} {msg msg' : Nat → α} {arrived arrived' : Nat → Prop}
    {p : OrderedEventsProcessor α} (h : InOrder start msg arrived p)
    (harrived : ∀ n, arrived' n ↔ arrived n) (hmsg : ∀ n, arrived n → msg' n = msg n) :
    InOrder start msg' arrived' p := by
  have heq : arrived' = arrived := funext fun n => propext (harrived n)
  subst heq
  refine ⟨⟨h.slots.offset_le, h.slots.room, fun i d => ?_, h.slots.before_end⟩, h.start_le,
    h.released, h.missing⟩
  rw [h.slots.slot]
  constructor
  · intro hd
    exact ⟨hd.1.trans (hmsg _ hd.2.2).symm, hd.2⟩
  · intro hd
    exact ⟨hd.1.trans (hmsg _ hd.2.2), hd.2⟩

/-! ## A call -/

theorem Consistent.performed (h : Consistent platform dbKey base first history s) {call : Call}
    {out : Outcome}
    (hout : Performed platform.crc32 s.kv s.lastId (history.after base) call out rest)
    (hroom : s.lastId.toNat + rest.length ≤ 0x8000000000000000) :
    Consistent platform dbKey base first (history ++ rest) { s with
      kv := out.kv, lastId := out.lastId, inFlight := s.inFlight ++ out.messages } := by
  have hnext := h.next
  have hnew : ∀ message ∈ out.messages, ∃ i x, rest[i]? = some x ∧
      message.seqNo.toNat = first + history.length + i ∧
      message.rawEvent = x.2.image platform.crc32 := by
    intro message hmem
    rw [hout.messages] at hmem
    obtain ⟨i, x, hx, hseq, hraw⟩ := mem_messages hroom hmem
    exact ⟨i, x, hx, by omega, hraw⟩
  have hold : ∀ message ∈ s.inFlight, message.seqNo.toNat < first + history.length := by
    intro message hmem
    obtain ⟨i, x, hx, hseq, _⟩ := h.sent message hmem
    have := (List.getElem?_eq_some_iff.mp hx).1
    omega
  have hdelivered : ∀ n, Delivered first (history ++ rest) { s with
      kv := out.kv, lastId := out.lastId, inFlight := s.inFlight ++ out.messages } n ↔
        Delivered first history s n := by
    intro n
    constructor
    · rintro ⟨h1, h2, hflight⟩
      rw [length_append] at h2
      refine ⟨h1, ?_, (forall_mem_append.1 hflight).1⟩
      -- a number of the new call is still on its way
      by_cases hlt : n < first + history.length
      · exact hlt
      · obtain ⟨message, hmem, hseq⟩ := exists_message platform.crc32 s.lastId hroom
          (show n - (first + history.length) < rest.length by omega)
        rw [← hout.messages] at hmem
        exact absurd (by omega) (hflight message (mem_append_right _ hmem))
    · rintro ⟨h1, h2, hflight⟩
      refine ⟨h1, by rw [length_append]; omega, fun message hmem => ?_⟩
      rcases mem_append.mp hmem with hmem | hmem
      · exact hflight message hmem
      · obtain ⟨i, _, _, hseq, _⟩ := hnew message hmem
        omega
  refine ⟨?_, ?_, ?_, ?_, ?_, ?_, ?_, ?_⟩
  · rw [hout.magic]
    exact h.magic
  · rw [hout.magic, follows_append]
    refine ⟨h.follows, ?_⟩
    rw [← h.next]
    exact hout.follows
  · rw [after_append]
    exact hout.map
  · rw [length_append]
    rw [hout.next]
    omega
  · intro message hmem
    rcases mem_append.mp hmem with hmem | hmem
    · obtain ⟨i, x, hx, hseq, hraw⟩ := h.sent message hmem
      refine ⟨i, x, ?_, hseq, hraw⟩
      rw [getElem?_append_left (List.getElem?_eq_some_iff.mp hx).1]
      exact hx
    · obtain ⟨i, x, hx, hseq, hraw⟩ := hnew message hmem
      refine ⟨history.length + i, x, ?_, by omega, hraw⟩
      rw [getElem?_append_right (Nat.le_add_right _ _), Nat.add_sub_cancel_left]
      exact hx
  · rw [map_append, nodup_append]
    refine ⟨h.once, ?_, fun a ha b hb hab => ?_⟩
    · rw [hout.messages]
      exact nodup_messages platform.crc32 hroom
    obtain ⟨message, hmem, rfl⟩ := mem_map.mp ha
    obtain ⟨message', hmem', rfl⟩ := mem_map.mp hb
    obtain ⟨i, _, _, hseq, _⟩ := hnew message' hmem'
    have := hold message hmem
    omega
  · refine inOrder_congr h.order hdelivered fun n hn => ?_
    exact rawAt_append platform.crc32 history rest hn.1 hn.2.1
  · have hle : s.actor.processor.beginNo.toNat - first ≤ history.length := by
      have := h.begin_le
      omega
    rw [hout.magic, take_append_of_le_length hle]
    exact h.log

/-! ## A delivery -/

section

variable (h : Consistent platform dbKey base first history s)
include h

/-- A stretch of a history that a log is to take. -/
theorem Consistent.follows_stretch {k : Nat}
    (hk : s.actor.processor.beginNo.toNat + k ≤ first + history.length) :
    let start := s.actor.processor.beginNo.toNat - first
    let part := (history.drop start).take k
    Follows s.kv.magic (after (history.take start) base)
        s.actor.processor.beginNo.toNat part ∧
      part.length = k ∧ after part (after (history.take start) base)
        = after (history.take (start + k)) base := by
  intro start part
  have hle := h.order.start_le
  have hstart : (history.take start).length = start := by
    rw [length_take]
    omega
  have hlen : part.length = k := by
    rw [length_take, length_drop]
    omega
  have hsplit : history = history.take start ++ (part ++ (history.drop start).drop k) := by
    rw [take_append_drop, take_append_drop]
  have hfollows := h.follows
  rw [hsplit, follows_append, follows_append, hstart,
    show first + start = s.actor.processor.beginNo.toNat by omega] at hfollows
  refine ⟨hfollows.2.1, hlen, ?_⟩
  rw [← after_append, take_add]

/-- **Delivering any message succeeds**, and the log takes the stretch that became complete. -/
theorem Consistent.deliver (hroom : s.lastId.toNat ≤ 0x8000000000000000) {i : Nat}
    (hi : i < s.inFlight.length) (entropy : Entropy) (flush : Bool) :
    ∃ s', step platform s (.deliver entropy i flush) = some s' ∧
      Consistent platform dbKey base first history s' ∧ s'.kv = s.kv ∧ s'.lastId = s.lastId := by
  have hnext := h.next
  have hperm := getElem_cons_eraseIdx_perm hi
  have honce := (hperm.map fun message => message.seqNo.toNat).nodup_iff.mpr h.once
  obtain ⟨j, x, hx, hseq, hraw⟩ := h.sent s.inFlight[i] (getElem_mem hi)
  have hj := (List.getElem?_eq_some_iff.mp hx).1
  have hnew : ¬ Delivered first history s s.inFlight[i].seqNo.toNat := fun hd =>
    hd.2.2 _ (getElem_mem hi) rfl
  have hrawAt : s.inFlight[i].rawEvent
      = history.rawAt platform.crc32 first s.inFlight[i].seqNo.toNat := by
    rw [hraw, rawAt, hseq, Nat.add_sub_cancel_left, hx]
    rfl
  -- The message completes a stretch of `k` events, which are now written.
  obtain ⟨q, k, hadd, hq, hqbegin⟩ := h.order.add (by omega) hnew (by omega)
  have hk : s.actor.processor.beginNo.toNat + k ≤ first + history.length := by
    by_cases hlt : first + history.length < q.beginNo.toNat
    · rcases hq.released _ (Nat.le_add_right _ _) hlt with heq | hd
      · omega
      · have := hd.2.1
        omega
    · omega
  obtain ⟨hfollows, hlen, hafter⟩ := h.follows_stretch hk
  obtain ⟨m, hm, hholds⟩ := h.log
  obtain ⟨c, m', hc, hm', hcholds⟩ := hfollows.holds entropy h.magic hm hholds (by rw [hlen]; omega)
  rw [hafter] at hm'
  rw [hlen] at hcholds
  have hdelivered : ∀ n, Delivered first history { s with
      inFlight := s.inFlight.eraseIdx i, actor := ⟨if flush then c.flush else c, q⟩ } n ↔
        n = s.inFlight[i].seqNo.toNat ∨ Delivered first history s n := by
    intro n
    constructor
    · rintro ⟨h1, h2, hflight⟩
      by_cases heq : n = s.inFlight[i].seqNo.toNat
      · exact .inl heq
      · refine .inr ⟨h1, h2, fun message hmem => ?_⟩
        rcases mem_cons.mp (hperm.symm.subset hmem) with rfl | hmem
        · exact fun h' => heq h'.symm
        · exact hflight message hmem
    · rintro (rfl | ⟨h1, h2, hflight⟩)
      · refine ⟨by omega, by omega, fun message hmem heq => ?_⟩
        exact (nodup_cons.mp honce).1 (mem_map.mpr ⟨message, hmem, heq⟩)
      · exact ⟨h1, h2, fun message hmem => hflight message
          (hperm.subset (mem_cons_of_mem _ hmem))⟩
  refine ⟨{ s with
    inFlight := s.inFlight.eraseIdx i, actor := ⟨if flush then c.flush else c, q⟩ }, ?_,
    ⟨h.magic, h.follows, h.map, h.next, fun message hmem => ?_, ?_, ?_, m', ?_, ?_⟩, rfl, rfl⟩
  · rw [step, getElem?_eq_getElem hi]
    dsimp only
    rw [BinlogActor.addRawEvent, hrawAt, hadd]
    dsimp only [Option.bind_eq_bind, Option.bind_some]
    rw [stretch_rawAt platform.crc32 _ h.order.start_le hk, hc]
    rfl
  · exact h.sent message (hperm.subset (mem_cons_of_mem _ hmem))
  · exact (nodup_cons.mp honce).2
  · exact inOrder_congr hq hdelivered fun n _ => rfl
  · rw [hqbegin, show s.actor.processor.beginNo.toNat + k - first
      = s.actor.processor.beginNo.toNat - first + k by have := h.order.start_le; omega]
    exact hm'
  · rw [hqbegin]
    split
    · exact hcholds.flush
    · exact hcholds

theorem Consistent.flush :
    Consistent platform dbKey base first history
      { s with actor := { s.actor with binlog := s.actor.binlog.flush } } := by
  obtain ⟨m, hm, hholds⟩ := h.log
  exact ⟨h.magic, h.follows, h.map, h.next, h.sent, h.once, h.order, m, hm, hholds.flush⟩

end

/-! ## Beginnings -/

/-- The map as the first calls leave it; of the next call, if it is an `erase_by_prefix`, some of
the erasures may have been done, in the order in which it sends them. -/
def Beginning (crc32 : Bytes → UInt32) (kv : BinlogKeyValue) (lastId : UInt64) (calls : List Call)
    (map : List Entry) : Prop :=
  ∃ j kvAfter lastIdAfter gone, j ≤ calls.length ∧
    performAll crc32 kv lastId (calls.take j) = some (kvAfter, lastIdAfter) ∧
    map.Perm (kvAfter.map.filter fun e => e.key ∉ gone) ∧
    (gone = [] ∨ ∃ iteration start, calls[j]? = some (.eraseByPrefix iteration start) ∧
      gone <+: (iteration.order (kvAfter.beginning start)).map Entry.key)

variable {crc32 : Bytes → UInt32} {kv kv' : BinlogKeyValue} {lastId lastId' : UInt64}
  {calls : List Call}

theorem performAll_append (h : performAll crc32 kv lastId calls = some (kv', lastId'))
    (more : List Call) :
    performAll crc32 kv lastId (calls ++ more) = performAll crc32 kv' lastId' more := by
  induction calls generalizing kv lastId with
  | nil =>
    cases h
    rfl
  | cons call calls ih =>
    obtain ⟨out, hout, h⟩ := Option.bind_eq_some_iff.mp h
    rw [cons_append, performAll, hout]
    exact ih h

theorem Beginning.append {map : List Entry} (h : Beginning crc32 kv lastId calls map)
    (more : List Call) : Beginning crc32 kv lastId (calls ++ more) map := by
  obtain ⟨j, kvAfter, lastIdAfter, gone, hj, hall, hperm, hgone⟩ := h
  refine ⟨j, kvAfter, lastIdAfter, gone, by rw [length_append]; omega, ?_, hperm, ?_⟩
  · rw [take_append_of_le_length hj]
    exact hall
  · refine hgone.imp_right fun ⟨iteration, start, hcall, hinitial⟩ =>
      ⟨iteration, start, ?_, hinitial⟩
    rw [getElem?_append_left (List.getElem?_eq_some_iff.mp hcall).1]
    exact hcall

/-- The whole of the calls is a beginning. -/
theorem beginning_all {map : List Entry}
    (h : performAll crc32 kv lastId calls = some (kv', lastId')) (hperm : map.Perm kv'.map) :
    Beginning crc32 kv lastId calls map := by
  refine ⟨calls.length, kv', lastId', [], le_rfl, by rw [take_length]; exact h, ?_, .inl rfl⟩
  rw [filter_eq_self.mpr (by simp)]
  exact hperm

/-- Part of an `erase_by_prefix`. -/
theorem beginning_removals {entries : List Entry} {n : Nat}
    (h : performAll crc32 kv lastId calls = some (kv', lastId')) (hperm : kv'.map.Perm entries)
    (hd : Distinct entries n) (iteration : Iteration) (start : Bytes) (k : Nat) :
    Beginning crc32 kv lastId (calls ++ [.eraseByPrefix iteration start])
      (after ((removals (iteration.order (kv'.beginning start))).take k) entries) := by
  let removed := (iteration.order (kv'.beginning start)).take k
  have hremoved : (removals (iteration.order (kv'.beginning start))).take k = removals removed :=
    map_take.symm
  have hsub : ∀ e ∈ removed, e ∈ entries := fun e he => hperm.subset (mem_filter.mp
    ((iteration.perm _).subset (mem_of_mem_take he))).1
  refine ⟨calls.length, kv', lastId', removed.map Entry.key, by rw [length_append]; omega, ?_,
    ?_, .inr ⟨iteration, start, ?_, ?_⟩⟩
  · rw [take_left' rfl]
    exact h
  · rw [hremoved, after_removals]
    refine List.Perm.trans (List.Perm.of_eq (filter_congr fun e he => ?_)) (hperm.symm.filter _)
    refine decide_eq_decide.mpr (not_congr ⟨fun hmem => ?_, fun hmem => ?_⟩)
    · obtain ⟨x, hx, hid⟩ := mem_map.mp hmem
      exact mem_map.mpr ⟨x, hx, (hd.key_iff_id (hsub x hx) he).mpr hid⟩
    · obtain ⟨x, hx, hkey⟩ := mem_map.mp hmem
      exact mem_map.mpr ⟨x, hx, (hd.key_iff_id (hsub x hx) he).mp hkey⟩
  · rw [getElem?_append_right le_rfl, Nat.sub_self]
    rfl
  · exact ( take_prefix _ _).map _

/-! ## Runs -/

variable (platform) in
/-- A store that was just opened: nothing is on its way, and the log holds the map. -/
structure Ready (dbKey : DbKey) (s : System) : Prop where
  magic : ¬ s.kv.magic < 0
  distinct : Distinct s.kv.map s.lastId.toNat
  pos : 0 < s.lastId.toNat
  inFlight : s.inFlight = []
  processor : s.actor.processor = .new s.lastId
  log : ∃ m, List.Forall₂ (Codes s.kv.magic) m s.kv.map ∧
    Holds platform dbKey m s.lastId.toNat s.actor.binlog

variable (platform) in
/-- What a run from `s` has come to. -/
structure Ran (dbKey : DbKey) (s : System) (calls : List Call) (history : History) (s' : System) :
    Prop where
  consistent : Consistent platform dbKey s.kv.map s.lastId.toNat history s'
  performed : performAll platform.crc32 s.kv s.lastId calls = some (s'.kv, s'.lastId)
  magic : s'.kv.magic = s.kv.magic
  budget : s'.lastId.toNat + s'.kv.map.length
    ≤ s.lastId.toNat + s.kv.map.length + 2 * calls.length
  beginnings : ∀ k, Beginning platform.crc32 s.kv s.lastId calls
    (History.after (history.take k) s.kv.map)

theorem Ready.ran (h : Ready platform dbKey s) : Ran platform dbKey s [] [] s := by
  refine ⟨⟨h.magic, trivial, List.Perm.refl _, rfl, fun message hmem => ?_, ?_, ?_, ?_⟩, rfl,
    rfl, le_rfl, fun k => ?_⟩
  · rw [h.inFlight] at hmem
    cases hmem
  · rw [h.inFlight]
    exact nodup_nil
  · rw [h.processor]
    refine inOrder_congr (inOrder_new (fun _ => []) s.lastId) (fun n => ?_)
      fun n hn => hn.elim
    constructor
    · rintro ⟨h1, h2, _⟩
      exact absurd h2 (not_lt.mpr h1)
    · exact fun hn => hn.elim
  · rw [h.processor, take_nil]
    exact h.log
  · rw [take_nil]
    exact beginning_all rfl (List.Perm.refl _)

theorem callsOf_append (as bs : List Action) : callsOf (as ++ bs) = callsOf as ++ callsOf bs := by
  induction as with
  | nil => rfl
  | cons action as ih =>
    cases action with
    | call call => exact congrArg (call :: ·) ih
    | deliver entropy i flush | flush => exact ih

section

variable {calls : List Call}

section

variable (hready : Ready platform dbKey s)
include hready

section

variable (h : Ran platform dbKey s calls history s')
include h

theorem Ran.distinct : Distinct (history.after s.kv.map) s'.lastId.toNat :=
  h.consistent.distinct hready.distinct hready.pos

/-- One more call. -/
theorem Ran.call (hroom : s'.lastId.toNat + s'.kv.map.length + 2 ≤ 0x8000000000000000)
    {call : Call} (hsmall : call.Small) (hcount : call.Countable s'.kv) :
    ∃ out rest, perform platform.crc32 s'.kv s'.lastId call = some out ∧
      Ran platform dbKey s (calls ++ [call]) (history ++ rest) { s' with
        kv := out.kv, lastId := out.lastId, inFlight := s'.inFlight ++ out.messages } := by
  obtain ⟨out, rest, hout, hperformed⟩ := perform_spec platform.crc32 h.consistent.map
    (h.distinct hready) (by omega) hsmall hcount
  have hsize := hperformed.size
  have hnext := hperformed.next
  have hbudget := h.budget
  have hall : performAll platform.crc32 s.kv s.lastId (calls ++ [call])
      = some (out.kv, out.lastId) := by
    rw [performAll_append h.performed, performAll, hout]
    rfl
  refine ⟨out, rest, hout, h.consistent.performed hperformed (by omega), hall,
    hperformed.magic.trans h.magic, ?_, fun k => ?_⟩
  · show out.lastId.toNat + out.kv.map.length ≤ _
    rw [length_append, length_singleton]
    omega
  by_cases hk : k ≤ history.length
  · -- nothing of the new call
    rw [take_append_of_le_length hk]
    exact (h.beginnings k).append [call]
  rw [take_append, take_of_length_le (Nat.le_of_not_le hk), after_append]
  rcases hperformed.single with hsingle | ⟨iteration, start, rfl, hrest⟩
  · -- all of it
    rw [take_of_length_le (by omega)]
    exact beginning_all hall hperformed.map.symm
  · rw [hrest]
    exact beginning_removals h.performed h.consistent.map (h.distinct hready) iteration start _

theorem Ran.step (hroom : s'.lastId.toNat + s'.kv.map.length + 2 ≤ 0x8000000000000000)
    {action : Action} (hsmall : ∀ call ∈ callsOf [action], call.Small) {s'' : System}
    (hstep : step platform s' action = some s'') :
    ∃ history', Ran platform dbKey s (calls ++ callsOf [action]) history' s'' := by
  cases action with
  | call call =>
    obtain ⟨out, hout, hstep⟩ := Option.bind_eq_some_iff.mp hstep
    cases hstep
    obtain ⟨out', rest, hout', hran⟩ := h.call hready hroom (hsmall call mem_cons_self)
      (countable_of_perform hout)
    obtain rfl := Option.some.inj (hout.symm.trans hout')
    exact ⟨history ++ rest, hran⟩
  | deliver entropy i flush =>
    have hi : i < s'.inFlight.length := by
      by_cases hi : i < s'.inFlight.length
      · exact hi
      · rw [KeyValue.step, getElem?_eq_none (by omega)] at hstep
        cases hstep
    obtain ⟨x, hx, hconsistent, hkv, hlast⟩ := h.consistent.deliver (by omega) hi entropy flush
    obtain rfl := Option.some.inj (hstep.symm.trans hx)
    refine ⟨history, hconsistent, ?_, by rw [hkv]; exact h.magic, ?_, ?_⟩
    · rw [hkv, hlast]
      exact (congrArg _ (append_nil _)).trans h.performed
    · rw [hkv, hlast, show calls ++ callsOf [.deliver entropy i flush] = calls from append_nil _]
      exact h.budget
    · rw [show calls ++ callsOf [.deliver entropy i flush] = calls from append_nil _]
      exact h.beginnings
  | flush =>
    cases hstep
    rw [show calls ++ callsOf [.flush] = calls from append_nil _]
    exact ⟨history, h.consistent.flush, h.performed, h.magic, h.budget, h.beginnings⟩

/-- **Every run comes to a consistent state.** -/
theorem Ran.run {actions : List Action} (hsmall : ∀ call ∈ callsOf actions, call.Small)
    (hroom : s.lastId.toNat + s.kv.map.length + 2 * (calls ++ callsOf actions).length + 2
      ≤ 0x8000000000000000)
    {s'' : System} (hrun : run platform s' actions = some s'') :
    ∃ history', Ran platform dbKey s (calls ++ callsOf actions) history' s'' := by
  induction actions generalizing s' calls history with
  | nil =>
    cases hrun
    rw [show calls ++ callsOf [] = calls from append_nil _]
    exact ⟨history, h⟩
  | cons action actions ih =>
    have hsplit : callsOf (action :: actions) = callsOf [action] ++ callsOf actions :=
      callsOf_append [action] actions
    rw [hsplit] at hsmall hroom ⊢
    rw [← append_assoc] at hroom ⊢
    obtain ⟨x, hx, hrun⟩ := Option.bind_eq_some_iff.mp hrun
    have hbudget := h.budget
    simp only [length_append] at hroom
    obtain ⟨history', hran⟩ := h.step hready (by omega)
      ((forall_mem_append.1 hsmall).1) hx
    exact ih hran ((forall_mem_append.1 hsmall).2)
      (by simp only [length_append]; omega) hrun

end

end

/-- An action that the system can take. -/
def Action.Enabled (s : System) : Action → Prop
  | .call c => c.Small ∧ c.Countable s.kv
  | .deliver _ i _ => i < s.inFlight.length
  | .flush => True

/-- **No run gets stuck**: no `CHECK` fails, whatever is delivered next. -/
theorem Ran.progress (hready : Ready platform dbKey s) (h : Ran platform dbKey s calls history s')
    (hroom : s'.lastId.toNat + s'.kv.map.length + 2 ≤ 0x8000000000000000) {action : Action}
    (henabled : action.Enabled s') : ∃ s'', KeyValue.step platform s' action = some s'' := by
  cases action with
  | call call =>
    obtain ⟨out, rest, hout, _⟩ := h.call hready hroom henabled.1 henabled.2
    exact ⟨_, by rw [KeyValue.step, hout]; rfl⟩
  | deliver entropy i flush =>
    obtain ⟨x, hx, _⟩ := h.consistent.deliver (by omega) henabled entropy flush
    exact ⟨x, hx⟩
  | flush => exact ⟨_, rfl⟩

end

/-! ## Reading the log back -/

/-- The entries that the log holds. -/
theorem Ran.distinct_logged (hready : Ready platform dbKey s)
    (h : Ran platform dbKey s calls history s') :
    Distinct (after (history.take (s'.actor.processor.beginNo.toNat - s.lastId.toNat)) s.kv.map)
      s'.actor.processor.beginNo.toNat := by
  have hstart := h.consistent.order.start_le
  have hfollows := h.consistent.follows
  rw [← take_append_drop (s'.actor.processor.beginNo.toNat - s.lastId.toNat) history,
    follows_append] at hfollows
  have hd := hfollows.1.distinct hready.distinct hready.pos
  rw [length_take] at hd
  exact hd.mono (by omega)

/-- Once nothing is on its way, the actor has handed on everything. -/
theorem Consistent.begin_eq (h : Consistent platform dbKey base first history s)
    (hnone : s.inFlight = []) : s.actor.processor.beginNo.toNat = first + history.length := by
  have hle := h.begin_le
  by_cases hlt : s.actor.processor.beginNo.toNat < first + history.length
  · refine absurd ⟨h.order.start_le, hlt, fun message hmem => ?_⟩ h.order.missing
    rw [hnone] at hmem
    cases hmem
  · omega

/-- **At any time the log opens to a beginning of the calls**, and to all of them once nothing is on
its way. The store that opens is ready for the next run. -/
theorem Ran.reopen (hready : Ready platform dbKey s) (h : Ran platform dbKey s calls history s')
    (hroom : s'.lastId.toNat ≤ 0x8000000000000000) (entropy : Entropy) :
    ∃ d events, Binlog.init platform entropy s'.log dbKey .empty = some (.ok (d, events)) ∧
      Beginning platform.crc32 s.kv s.lastId calls (initMap events) ∧
      (s'.inFlight = [] → (initMap events).Perm s'.kv.map) ∧
      Ready platform dbKey
        ⟨⟨initMap events, s.kv.magic⟩, d.lastId + 1, [], ⟨d, .new (d.lastId + 1)⟩⟩ := by
  have hle := h.consistent.begin_le
  have hnext := h.consistent.next
  have hd := h.distinct_logged hready
  obtain ⟨m, hm, hholds⟩ := h.consistent.log
  obtain ⟨rs, c, hbytes, hloads⟩ := hholds.bytes
  obtain ⟨d, events, hinit, hcontent, hdholds, hlast⟩ := hloads.init (by omega) entropy
  have hsucc : (d.lastId + 1).toNat = d.lastId.toNat + 1 := toNat_next (by omega)
  rw [h.magic] at hm
  have hmap : initMap events = _ := initMap_eq (by rw [hcontent]; exact hm) hd.keys
  refine ⟨d, events, by rw [System.log, hbytes]; exact hinit, ?_, fun hnone => ?_, ?_⟩
  · rw [hmap]
    exact h.beginnings _
  · rw [hmap, h.consistent.begin_eq hnone, Nat.add_sub_cancel_left, take_length]
    exact h.consistent.map.symm
  refine ⟨hready.magic, ⟨?_, ?_, fun e he => ?_⟩, ?_, rfl, rfl, m, ?_, ?_⟩
  · rw [hmap]
    exact hd.keys
  · rw [hmap]
    exact hd.ids
  · rw [hmap] at he
    obtain ⟨x, hx, hid⟩ := exists_content hm he
    have := hdholds.shown.ids x hx
    rw [hid] at this
    refine ⟨(hd.bounds e he).1, ?_⟩
    dsimp only
    omega
  · dsimp only
    omega
  · rw [hmap]
    exact hm
  · rw [hsucc]
    exact hdholds

/-- A store in use: opened on an empty file, or on the log that a run has left behind. -/
inductive Started (platform : Platform) (dbKey : DbKey) (overrideMagic : Int32) : System →
    Prop where
  | fresh {entropy : Entropy} {s : System} :
      start platform entropy [] dbKey overrideMagic = some s →
        Started platform dbKey overrideMagic s
  | again {entropy : Entropy} {s s' s'' : System} {actions : List Action} :
      Started platform dbKey overrideMagic s → (∀ call ∈ callsOf actions, call.Small) →
      s.lastId.toNat + s.kv.map.length + 2 * (callsOf actions).length + 2 ≤ 0x8000000000000000 →
      run platform s actions = some s' →
      start platform entropy s'.log dbKey overrideMagic = some s'' →
      Started platform dbKey overrideMagic s''

theorem Started.ready {overrideMagic : Int32} (h : Started platform dbKey overrideMagic s)
    (hmagic : ¬ magicOf overrideMagic < 0) :
    Ready platform dbKey s ∧ s.kv.magic = magicOf overrideMagic := by
  induction h with
  | @fresh entropy s hstart =>
    obtain ⟨d, hinit, hholds, hlast⟩ := init_empty platform entropy dbKey
    rw [start, hinit] at hstart
    cases hstart
    have hone : (d.lastId + 1).toNat = 1 := by
      rw [hlast]
      rfl
    refine ⟨⟨hmagic, ⟨nodup_nil, nodup_nil, fun e he => absurd he (by
      simp [initMap])⟩, ?_, rfl, rfl, [], .nil, ?_⟩, rfl⟩
    · dsimp only
      omega
    · rw [hone]
      exact hholds
  | @again entropy s s' s'' actions _ hsmall hroom hrun hstart ih =>
    obtain ⟨hready, hkv⟩ := ih
    obtain ⟨history, hran⟩ := hready.ran.run hready hsmall hroom hrun
    have hbudget := hran.budget
    rw [nil_append] at hbudget
    obtain ⟨d, events, hinit, _, _, hready'⟩ := hran.reopen hready (by omega) entropy
    rw [start, hinit] at hstart
    cases hstart
    rw [hkv] at hready'
    exact ⟨hready', rfl⟩

/-- **The log follows the calls.** Whatever has been called, delivered and flushed, the system can
go on; the bytes of the log open to the map as the first calls leave it (with an `erase_by_prefix`
done in part, at most); its keys have ids of their own; and once all messages are delivered it is
the map of the store. -/
theorem log_follows_calls {platform : Platform} {dbKey : DbKey} {overrideMagic : Int32}
    {s s' : System} (hmagic : ¬ magicOf overrideMagic < 0)
    (hstarted : Started platform dbKey overrideMagic s) (actions : List Action)
    (hsmall : ∀ call ∈ callsOf actions, call.Small)
    (hroom : s.lastId.toNat + s.kv.map.length + 2 * (callsOf actions).length + 2
      ≤ 0x8000000000000000)
    (hrun : run platform s actions = some s') (entropy : Entropy) :
    (∀ action, action.Enabled s' → ∃ s'', step platform s' action = some s'') ∧
      ∃ d events, Binlog.init platform entropy s'.log dbKey .empty = some (.ok (d, events)) ∧
        Distinct (initMap events) (d.lastId + 1).toNat ∧
        Beginning platform.crc32 s.kv s.lastId (callsOf actions) (initMap events) ∧
        (s'.inFlight = [] → (initMap events).Perm s'.kv.map) := by
  obtain ⟨hready, _⟩ := hstarted.ready hmagic
  obtain ⟨history, hran⟩ := hready.ran.run hready hsmall hroom hrun
  have hbudget := hran.budget
  rw [nil_append] at hbudget
  refine ⟨fun action henabled => hran.progress hready (by omega) henabled, ?_⟩
  obtain ⟨d, events, hinit, hbeginning, hall, hready'⟩ := hran.reopen hready (by omega) entropy
  exact ⟨d, events, hinit, hready'.distinct, hbeginning, hall⟩

/-- The map that the bytes of a log open to, if they do. -/
def readBack (file : Bytes) : Option (List Entry) :=
  match Binlog.init .zeros .zeros file .empty .empty with
  | some (.ok (_, events)) => some (initMap events)
  | _ => none

/-- A store that was opened on an empty file, after some actions. -/
def fromEmpty (actions : List Action) : Option System :=
  (start .zeros .zeros [] .empty 0).bind fun s => run .zeros s actions

/-- A value too large for the reader is lost when the log is read back, with all messages
delivered. -/
theorem oversized_unread {key value data : Bytes} (hdata : storeEvent key value = some data)
    (hbig : BinlogEvent.maxSize < data.length + BinlogEvent.minSize)
    (hlt : data.length + BinlogEvent.minSize < 0x80000000)
    (halign : (data.length + BinlogEvent.minSize) % 4 = 0) :
    ∃ s, fromEmpty [.call (.set key value), .deliver .zeros 0 false] = some s ∧ s.inFlight = [] ∧
      s.kv.map = [⟨key, value, 1⟩] ∧ readBack s.log = some [] := by
  let r : Record := ⟨1, defaultMagic, 0, data⟩
  let b : Binlog := { Binlog.new [] .empty .empty with state := .run }
  let message : Message := ⟨1, r.image Platform.zeros.crc32⟩
  let kv : BinlogKeyValue := ⟨[⟨key, value, 1⟩], defaultMagic⟩
  obtain ⟨d, hadd, hd⟩ := addRawEvent_first .zeros (r := r) hlt halign
    (show ¬ defaultMagic < 0 by decide) rfl 0 .zeros
  obtain ⟨x, hx, _⟩ := init_oversized (r := r) hbig hlt .zeros .zeros
  have hopen : start .zeros .zeros [] .empty 0 = some ⟨⟨[], defaultMagic⟩, 1, [], b, .new 1⟩ := rfl
  have hcall : step .zeros ⟨⟨[], defaultMagic⟩, 1, [], b, .new 1⟩ (.call (.set key value))
      = some ⟨kv, 2, [message], b, .new 1⟩ := by
    have hraw : BinlogEvent.createRaw Platform.zeros.crc32 1 defaultMagic 0 data
        = some (r.image Platform.zeros.crc32) := Record.createRaw_eq (r := r) _ hlt
    have hset : BinlogKeyValue.set Platform.zeros.crc32 ⟨[], defaultMagic⟩ 1 key value
        = (storeEvent key value).bind fun data => (BinlogEvent.createRaw Platform.zeros.crc32 1
          defaultMagic 0 data).bind fun raw => some ⟨kv, 2, 1, [⟨1, raw⟩]⟩ := rfl
    rw [step, perform, hset, hdata, Option.bind_some, hraw]
    rfl
  have hdeliver : step .zeros ⟨kv, 2, [message], b, .new 1⟩ (.deliver .zeros 0 false)
      = some ⟨kv, 2, [], d, ⟨2, 2, 2, []⟩⟩ := by
    have hne : r.image Platform.zeros.crc32 ≠ [] := by
      intro hnil
      have hlen := Record.length_image Platform.zeros.crc32 r
      have hmin : 32 ≤ r.rawSize := Record.minSize_le_rawSize r
      rw [hnil, length_nil] at hlen
      omega
    have hdo : doAddRawEvent .zeros .zeros b (r.image Platform.zeros.crc32) = some d := by
      rw [doAddRawEvent, if_neg hne]
      exact hadd
    have hproc : (OrderedEventsProcessor.new 1).add 1 (r.image Platform.zeros.crc32)
        = some (⟨2, 2, 2, []⟩, [(1, r.image Platform.zeros.crc32)]) := rfl
    dsimp only [step, BinlogActor.addRawEvent, getElem?_cons_zero]
    rw [hproc]
    dsimp only [Option.bind_eq_bind, Option.bind_some]
    rw [map_cons, foldlM_cons, hdo]
    rfl
  refine ⟨⟨kv, 2, [], d, ⟨2, 2, 2, []⟩⟩, ?_, rfl, rfl, ?_⟩
  · rw [fromEmpty, hopen, Option.bind_some, run, foldlM_cons, hcall]
    dsimp only [Option.bind_eq_bind, Option.bind_some]
    rw [foldlM_cons, hdeliver]
    rfl
  · show readBack (d.file ++ d.buffer) = _
    rw [hd.written, readBack, hx]
    rfl

/-- Two keys are set and both are erased by one call, of which one message has arrived. -/
def halfErased : List Action :=
  [.call (.set [97] []), .call (.set [98] []), .call (.eraseByPrefix ⟨id, .refl⟩ []),
    .deliver .zeros 0 false, .deliver .zeros 0 false, .deliver .zeros 0 false]

/-- The log then holds one of the two keys, as it does after no number of the calls; and a value
that is too large is in the map and not in the log. -/
theorem log_between_calls :
    ((fromEmpty halfErased).bind fun s => readBack s.log) = some [⟨[98], [], 2⟩] ∧
    (∀ j ∈ range 4, ((performAll Platform.zeros.crc32 ⟨[], defaultMagic⟩ 1
      ((callsOf halfErased).take j)).map fun p => p.1.map.map fun e => (e.key, e.value))
        ≠ some [([98], [])]) ∧
    ∃ s, fromEmpty [.call (.set [] (replicate 0xfffffc 0)), .deliver .zeros 0 false] = some s ∧
      s.inFlight = [] ∧ s.kv.map = [⟨[], replicate 0xfffffc 0, 1⟩] ∧
      readBack s.log = some [] := by
  refine ⟨by rfl, by decide, ?_⟩
  have hlen : (replicate 0xfffffc (0 : UInt8)).length = 0xfffffc := length_replicate
  have hvalue : storeString (replicate 0xfffffc 0) = some (254 :: (Lib.leBytes 3 0xfffffc ++
      (replicate 0xfffffc 0 ++ padding 0xfffffc))) := by
    rw [storeString, hlen]
    rfl
  have hsize : (254 :: (Lib.leBytes 3 0xfffffc ++ (replicate 0xfffffc 0
      ++ padding 0xfffffc))).length = 0x1000000 := by
    rw [length_cons, length_append, length_append, hlen, length_padding, Lib.length_leBytes]
  refine oversized_unread (show storeEvent [] _ = some ([0, 0, 0, 0] ++ _) by
    rw [storeEvent, hvalue]
    rfl) ?_ ?_ ?_ <;> rw [length_append, hsize] <;> decide

/-- A key is set twice, and the second message overtakes the first one. -/
def reordered : List Action :=
  [.call (.set [97] [98]), .call (.set [97] [99]), .deliver .zeros 1 false, .deliver .zeros 0 false]

theorem log_follows_reordered : ∃ s s', start .zeros .zeros [] .empty 0 = some s ∧
    run .zeros s reordered = some s' ∧
    (∀ action, action.Enabled s' → ∃ s'', step .zeros s' action = some s'') ∧
      ∃ d events, Binlog.init .zeros .zeros s'.log .empty .empty = some (.ok (d, events)) ∧
        Distinct (initMap events) (d.lastId + 1).toNat ∧
        Beginning Platform.zeros.crc32 s.kv s.lastId (callsOf reordered) (initMap events) ∧
        (s'.inFlight = [] → (initMap events).Perm s'.kv.map) := by
  obtain ⟨s, hstart⟩ : ∃ s, start .zeros .zeros [] .empty 0 = some s := ⟨_, rfl⟩
  obtain ⟨s', hrun⟩ : ∃ s', run .zeros s reordered = some s' := by
    cases hstart
    exact ⟨_, rfl⟩
  have hroom : s.lastId.toNat + s.kv.map.length + 2 * 2 + 2 ≤ 0x8000000000000000 := by
    cases hstart
    decide
  exact ⟨s, s', hstart, hrun, log_follows_calls (by decide) (.fresh hstart) reordered
    (forall_mem_cons.mpr ⟨⟨_, rfl, by decide⟩, forall_mem_singleton.mpr ⟨_, rfl, by decide⟩⟩)
    hroom hrun .zeros⟩

end Tdlib.KeyValue
