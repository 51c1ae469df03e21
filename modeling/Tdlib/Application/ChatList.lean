import Tdlib.Lib.Ordered

/-!
# The main chat list

`UpdateHandler` keeps the chats it was told of, and beside them the sorted set `mainChatList` of the
chats of the main list. A chat carries its positions in all lists. Four updates change them, and
each time the keys of the old positions have to go from the set and those of the new ones to come
in: `assert` says that each of them was there, or was not.

Updates about a chat that was never announced end in a null pointer, and writing past the end of the
array of new positions in an exception of its own. A failure stops the handler where it stands, so a
handler is a computation that keeps the state on failure as well.
-/

namespace Tdlib.Application

open Tdlib.Lib List

inductive ChatList where
  | main
  | archive
  | filter (chatFilterId : Int)
deriving DecidableEq

structure ChatPosition where
  list : ChatList
  order : Int
  isPinned : Bool
deriving DecidableEq

structure OrderedChat where
  chatId : Int
  position : ChatPosition
deriving DecidableEq

namespace OrderedChat

def compareTo (a o : OrderedChat) : Int :=
  if a.position.order ≠ o.position.order then
    if o.position.order < a.position.order then -1 else 1
  else if a.chatId ≠ o.chatId then
    if o.chatId < a.chatId then -1 else 1
  else 0

/-- The greater order comes first, and then the greater identifier. -/
def key (c : OrderedChat) : (Int ×ₗ Int)ᵒᵈ := OrderDual.toDual (toLex (c.position.order, c.chatId))

variable {a o : OrderedChat}

theorem key_lt : a.key < o.key ↔
    o.position.order < a.position.order ∨
      o.position.order = a.position.order ∧ o.chatId < a.chatId := by
  unfold key
  rw [OrderDual.toDual_lt_toDual, Prod.Lex.toLex_lt_toLex]

theorem key_eq : a.key = o.key ↔ a.position.order = o.position.order ∧ a.chatId = o.chatId := by
  unfold key
  rw [OrderDual.toDual_inj, toLex_inj, Prod.mk.injEq]

theorem compareTo_neg : a.compareTo o < 0 ↔ a.key < o.key := by
  rw [key_lt]
  unfold compareTo
  split_ifs <;> omega

end OrderedChat

structure Chat where
  id : Int
  positions : List ChatPosition
deriving DecidableEq

/-- `users`, `chats` and `mainChatList`; of a user only whether they are known. -/
structure State where
  users : Int → Bool
  chats : Int → Option Chat
  mainChatList : Ordered OrderedChat.key

def State.initial : State := ⟨fun _ => false, fun _ => none, .empty _⟩

inductive Failure where
  | assertion
  | nullPointer
  | arrayIndexOutOfBounds
deriving DecidableEq

abbrev Handler := EStateM Failure State

def assert (condition : Bool) : Handler Unit :=
  if condition then pure () else throw .assertion

/-! ## Positions of a chat -/

/-- `mainChatList.remove`, which says whether it was there. -/
def remove (c : OrderedChat) : Handler Bool := fun s =>
  .ok (s.mainChatList.find? c.key).isSome { s with mainChatList := s.mainChatList.erase c.key }

/-- `mainChatList.add`, which keeps an element that compares equal. -/
def add (c : OrderedChat) : Handler Bool := fun s =>
  .ok (s.mainChatList.emplace c).2 { s with mainChatList := (s.mainChatList.emplace c).1 }

/-- The loop over the positions in the main list. -/
def forMain (chatId : Int) (body : OrderedChat → Handler Unit) : List ChatPosition → Handler Unit
  | [] => pure ()
  | position :: positions => do
      if position.list = .main then
        body ⟨chatId, position⟩
      forMain chatId body positions

/-- A chat is looked up; there may be none. -/
def getChat (chatId : Int) : Handler Chat := fun s =>
  match s.chats chatId with
  | some chat => .ok chat s
  | none => .error .nullPointer s

def putChat (chat : Chat) : Handler Unit := fun s =>
  .ok () { s with chats := Function.update s.chats chat.id (some chat) }

/-- The chat is an object that `chats` refers to, so that its new positions are found there. -/
def setChatPositions (chat : Chat) (positions : List ChatPosition) : Handler Unit := do
  forMain chat.id (fun c => do assert (← remove c)) chat.positions
  putChat { chat with positions }
  forMain chat.id (fun c => do assert (← add c)) positions

/-! ## A new array of positions -/

/-- `new_positions[pos++] = position`, with the part of the array written so far. -/
def store (length : Nat) (written : List ChatPosition) (position : ChatPosition) :
    Handler (List ChatPosition) :=
  if written.length < length then pure (written ++ [position]) else throw .arrayIndexOutOfBounds

/-- The loop over `j`, which leaves out the index `i`. -/
def copyExcept (length i : Nat) :
    Nat → List ChatPosition → List ChatPosition → Handler (List ChatPosition)
  | _, [], written => pure written
  | j, position :: positions, written => do
      if j ≠ i then
        let written ← store length written position
        copyExcept length i (j + 1) positions written
      else
        copyExcept length i (j + 1) positions written

def newPositions (positions : List ChatPosition) (position : ChatPosition) :
    Handler (List ChatPosition) := do
  let i := positions.findIdx fun p => p.list = .main
  -- Never negative: if something is left out, it is one of the positions.
  let length := positions.length + (if position.order = 0 then 0 else 1)
    - (if i < positions.length then 1 else 0)
  let written ← if position.order ≠ 0 then store length [] position else pure []
  let written ← copyExcept length i 0 positions written
  assert (written.length = length)
  pure written

/-! ## Updates -/

inductive Update where
  | user (userId : Int)
  | userStatus (userId : Int)
  | newChat (chat : Chat)
  | chatLastMessage (chatId : Int) (positions : List ChatPosition)
  | chatPosition (chatId : Int) (position : ChatPosition)
  | chatDraftMessage (chatId : Int) (positions : List ChatPosition)
  /-- Sets a field of a chat that no position depends on: title, photo, permissions and so on. -/
  | chatField (chatId : Int)
  /-- About no chat. -/
  | other
deriving DecidableEq

def onResult : Update → Handler Unit
  | .user userId => fun s => .ok () { s with users := Function.update s.users userId true }
  | .userStatus userId => fun s => if s.users userId then .ok () s else .error .nullPointer s
  | .newChat chat => do
      putChat { chat with positions := [] }
      setChatPositions { chat with positions := [] } chat.positions
  | .chatLastMessage chatId positions => do
      setChatPositions (← getChat chatId) positions
  | .chatPosition chatId position =>
    if position.list ≠ .main then
      pure ()
    else do
      let chat ← getChat chatId
      setChatPositions chat (← newPositions chat.positions position)
  | .chatDraftMessage chatId positions => do
      setChatPositions (← getChat chatId) positions
  | .chatField chatId => do
      let _ ← getChat chatId
  | .other => pure ()

def final : EStateM.Result Failure State Unit → State
  | .ok _ s => s
  | .error _ s => s

/-- The updates come one after the other; a failure of one does not stop the next. -/
def run (s : State) (updates : List Update) : State :=
  updates.foldl (fun s update => final (onResult update s)) s

/-! ## What is to hold -/

def mainPositions (positions : List ChatPosition) : List ChatPosition :=
  positions.filter fun p => p.list = .main

/-- The set holds the positions in the main list of the known chats, and of each at most one. -/
structure Consistent (s : State) : Prop where
  id_eq : ∀ id chat, s.chats id = some chat → chat.id = id
  listed : ∀ c, c ∈ s.mainChatList.toList ↔
    ∃ chat, s.chats c.chatId = some chat ∧ c.position ∈ mainPositions chat.positions
  single : ∀ id chat, s.chats id = some chat → (mainPositions chat.positions).length ≤ 1

/-- An update that may come after chats were announced: each chat is announced once and before
anything else is said of it, and arrays have at most one position in the main list. -/
def Update.Proper (known : Finset Int) : Update → Prop
  | .user _ => True
  | .userStatus _ => True
  | .newChat chat => chat.id ∉ known ∧ (mainPositions chat.positions).length ≤ 1
  | .chatLastMessage chatId positions => chatId ∈ known ∧ (mainPositions positions).length ≤ 1
  | .chatPosition chatId _ => chatId ∈ known
  | .chatDraftMessage chatId positions => chatId ∈ known ∧ (mainPositions positions).length ≤ 1
  | .chatField chatId => chatId ∈ known
  | .other => True

instance (known : Finset Int) : (update : Update) → Decidable (update.Proper known)
  | .user _ | .userStatus _ | .other => .isTrue trivial
  | .newChat _ | .chatLastMessage _ _ | .chatDraftMessage _ _ => instDecidableAnd
  | .chatPosition chatId _ | .chatField chatId => inferInstanceAs (Decidable (chatId ∈ known))

def Update.announced (known : Finset Int) : Update → Finset Int
  | .newChat chat => insert chat.id known
  | _ => known

def Proper : Finset Int → List Update → Prop
  | _, [] => True
  | known, update :: updates => update.Proper known ∧ Proper (update.announced known) updates

instance decidableProper : (known : Finset Int) → (updates : List Update) →
    Decidable (Proper known updates)
  | _, [] => .isTrue trivial
  | known, update :: updates =>
    have := decidableProper (update.announced known) updates
    inferInstanceAs (Decidable (_ ∧ _))

variable {s s' : State} {chat : Chat} {positions : List ChatPosition} {position : ChatPosition}
  {α β : Type}

theorem mainPositions_cons_main (h : position.list = .main) :
    mainPositions (position :: positions) = position :: mainPositions positions :=
  filter_cons_of_pos (by simpa using h)

theorem mainPositions_cons_other (h : position.list ≠ .main) :
    mainPositions (position :: positions) = mainPositions positions :=
  filter_cons_of_neg (by simpa using h)

/-! ## Steps of a handler -/

theorem bind_ok {x : Handler α} {f : α → Handler β} {a : α} (h : x s = .ok a s') :
    (x >>= f) s = f a s' := by
  show EStateM.bind x f s = _
  unfold EStateM.bind
  rw [h]

variable {chatId id : Int} {body : OrderedChat → Handler Unit} {length i j : Nat}
  {written : List ChatPosition} {known : Finset Int} {update : Update}

/-- No position in the main list: nothing is done. -/
theorem forMain_nil (h : mainPositions positions = []) :
    forMain chatId body positions = pure () := by
  induction positions with
  | nil => rfl
  | cons p positions ih =>
    have hp : p.list ≠ .main := by
      intro hmain
      rw [mainPositions_cons_main hmain] at h
      cases h
    rw [mainPositions_cons_other hp] at h
    rw [forMain, if_neg hp, ih h]

/-- One position: the body is done once. -/
theorem forMain_one (h : mainPositions positions = [position]) :
    forMain chatId body positions = body ⟨chatId, position⟩ := by
  induction positions with
  | nil => cases h
  | cons p positions ih =>
    rw [forMain]
    by_cases hp : p.list = .main
    · rw [mainPositions_cons_main hp] at h
      obtain ⟨rfl, hrest⟩ := cons.inj h
      rw [if_pos hp, forMain_nil hrest]
      exact bind_pure _
    · rw [mainPositions_cons_other hp] at h
      rw [if_neg hp, ih h]

theorem assert_remove {c : OrderedChat} (h : c ∈ s.mainChatList.toList) :
    (remove c >>= assert) s
      = .ok () { s with mainChatList := s.mainChatList.erase c.key } := by
  have hfound : (s.mainChatList.find? c.key).isSome = true := by
    rw [Ordered.find?_eq_some.mpr ⟨h, rfl⟩]
    rfl
  show assert (s.mainChatList.find? c.key).isSome _ = _
  rw [hfound]
  rfl

theorem assert_add {c : OrderedChat} (h : ∀ o ∈ s.mainChatList.toList, o.key ≠ c.key) :
    (add c >>= assert) s
      = .ok () { s with mainChatList := s.mainChatList.insert c } := by
  have hadded : s.mainChatList.emplace c = (s.mainChatList.insert c, true) := by
    rw [Ordered.emplace, Ordered.find?_eq_none.mpr h]
    rfl
  show assert (s.mainChatList.emplace c).2
    { s with mainChatList := (s.mainChatList.emplace c).1 } = _
  rw [hadded]
  rfl

theorem length_le_one {l : List α} (h : l.length ≤ 1) : l = [] ∨ ∃ a, l = [a] := by
  cases l with
  | nil => exact .inl rfl
  | cons a l =>
    rw [length_cons] at h
    exact .inr ⟨a, by rw [length_eq_zero_iff.mp (by omega : l.length = 0)]⟩

/-! ## Setting the positions of a chat -/

theorem key_ne_of_chatId {a c : OrderedChat} (h : a.chatId ≠ c.chatId) : a.key ≠ c.key :=
  fun heq => h (OrderedChat.key_eq.mp heq).2

/-- The first loop: the chat leaves the set. -/
theorem Consistent.removed (h : Consistent s) (hchat : s.chats chat.id = some chat) :
    ∃ list, forMain chat.id (fun c => remove c >>= assert) chat.positions s
        = .ok () { s with mainChatList := list } ∧
      ∀ c, c ∈ list.toList ↔ c ∈ s.mainChatList.toList ∧ c.chatId ≠ chat.id := by
  have hlisted : ∀ c : OrderedChat, c.chatId = chat.id →
      (c ∈ s.mainChatList.toList ↔ c.position ∈ mainPositions chat.positions) := by
    intro c hid
    rw [h.listed, hid, hchat]
    exact ⟨fun ⟨_, heq, hmem⟩ => Option.some.inj heq ▸ hmem, fun hmem => ⟨_, rfl, hmem⟩⟩
  rcases length_le_one (h.single _ _ hchat) with hnone | ⟨p, hone⟩
  · refine ⟨s.mainChatList, by rw [forMain_nil hnone]; rfl, fun c => ?_⟩
    refine ⟨fun hc => ⟨hc, fun hid => ?_⟩, And.left⟩
    rw [hlisted c hid, hnone] at hc
    exact not_mem_nil hc
  have hmem : (⟨chat.id, p⟩ : OrderedChat) ∈ s.mainChatList.toList := by
    rw [hlisted _ rfl, hone]
    exact mem_singleton_self p
  refine ⟨_, by rw [forMain_one hone]; exact assert_remove hmem, fun c => ?_⟩
  rw [Ordered.mem_erase]
  refine and_congr_right fun hc => ⟨fun hkey hid => hkey ?_, fun hid => key_ne_of_chatId hid⟩
  rw [hlisted c hid, hone, mem_singleton] at hc
  rw [← hc, ← hid]

/-- The second loop: the chat comes in with its new position. -/
theorem added (h : ∀ c ∈ s.mainChatList.toList, c.chatId ≠ id)
    (hsingle : (mainPositions positions).length ≤ 1) :
    ∃ list, forMain id (fun c => add c >>= assert) positions s
        = .ok () { s with mainChatList := list } ∧
      ∀ c, c ∈ list.toList ↔
        c ∈ s.mainChatList.toList ∨ c.chatId = id ∧ c.position ∈ mainPositions positions := by
  rcases length_le_one hsingle with hnone | ⟨p, hone⟩
  · refine ⟨s.mainChatList, by rw [forMain_nil hnone]; rfl, fun c => ?_⟩
    rw [hnone]
    exact ⟨.inl, fun hc => hc.resolve_right fun hnew => not_mem_nil hnew.2⟩
  have hnew : ∀ c ∈ s.mainChatList.toList, c.key ≠ (⟨id, p⟩ : OrderedChat).key :=
    fun c hc => key_ne_of_chatId (h c hc)
  refine ⟨_, by rw [forMain_one hone]; exact assert_add hnew, fun c => ?_⟩
  rw [Ordered.mem_insert, hone, mem_singleton, or_comm]
  refine or_congr ⟨And.left, fun hc => ⟨hc, hnew c hc⟩⟩ ⟨?_, ?_⟩
  · rintro rfl
    exact ⟨rfl, rfl⟩
  · rintro ⟨rfl, rfl⟩
    rfl

/-- The chat found under an identifier after one was put. -/
theorem update_eq_some (chat : Chat) {found : Chat}
    (h : Function.update s.chats chat.id (some chat) id = some found) :
    id = chat.id ∧ found = chat ∨ id ≠ chat.id ∧ s.chats id = some found := by
  rw [Function.update_apply] at h
  split at h
  · rename_i hid
    exact .inl ⟨hid, (Option.some.inj h).symm⟩
  · rename_i hid
    exact .inr ⟨hid, h⟩

/-- **Setting positions keeps the list consistent**, and no assertion fails. -/
theorem Consistent.set (h : Consistent s) (hchat : s.chats chat.id = some chat)
    (hsingle : (mainPositions positions).length ≤ 1) :
    ∃ s', setChatPositions chat positions s = .ok () s' ∧ Consistent s' ∧
      s'.chats = Function.update s.chats chat.id (some { chat with positions }) := by
  obtain ⟨removed, hremove, hrest⟩ := h.removed hchat
  let put : State := { s with
    chats := Function.update s.chats chat.id (some { chat with positions })
    mainChatList := removed }
  obtain ⟨list, hadd, hlist⟩ := added (s := put) (fun c hc => ((hrest c).mp hc).2) hsingle
  refine ⟨{ put with mainChatList := list }, ?_, ⟨?_, ?_, ?_⟩, rfl⟩
  · unfold setChatPositions
    rw [bind_ok hremove]
    exact hadd
  · intro id found hget
    rcases update_eq_some { chat with positions } hget with ⟨rfl, rfl⟩ | ⟨-, hget⟩
    · rfl
    · exact h.id_eq id found hget
  · intro c
    rw [hlist, hrest, h.listed]
    constructor
    · rintro (⟨⟨found, hget, hmem⟩, hid⟩ | ⟨hid, hmem⟩)
      · exact ⟨found, (Function.update_of_ne hid _ _).trans hget, hmem⟩
      · refine ⟨{ chat with positions }, ?_, hmem⟩
        rw [hid]
        exact Function.update_self _ _ _
    · rintro ⟨found, hget, hmem⟩
      rcases update_eq_some { chat with positions } hget with ⟨hid, rfl⟩ | ⟨hid, hget⟩
      · exact .inr ⟨hid, hmem⟩
      · exact .inl ⟨⟨found, hget, hmem⟩, hid⟩
  · intro id found hget
    rcases update_eq_some { chat with positions } hget with ⟨-, rfl⟩ | ⟨-, hget⟩
    · exact hsingle
    · exact h.single id found hget

/-! ## The new array -/

theorem store_ok (h : written.length < length) :
    store length written position = pure (written ++ [position]) := if_pos h

/-- After the index that is left out, everything is copied. -/
theorem copyExcept_after (hi : i < j) (h : written.length + positions.length ≤ length) :
    copyExcept length i j positions written = pure (written ++ positions) := by
  induction positions generalizing j written with
  | nil => rw [copyExcept, append_nil]
  | cons p positions ih =>
    rw [length_cons] at h
    rw [copyExcept, if_pos (by omega), store_ok (by omega), pure_bind, ih (by omega)]
    · rw [append_assoc]
      rfl
    · rw [length_append, length_singleton]
      omega

/-- The array is long enough for what is left when one position is taken out. -/
theorem copyExcept_eq (hi : j ≤ i)
    (h : written.length + (positions.eraseIdx (i - j)).length ≤ length) :
    copyExcept length i j positions written
      = pure (written ++ positions.eraseIdx (i - j)) := by
  induction positions generalizing j written with
  | nil => rw [copyExcept, eraseIdx_nil, append_nil]
  | cons p positions ih =>
    rw [copyExcept]
    by_cases heq : j = i
    · subst heq
      rw [Nat.sub_self, eraseIdx_cons_zero] at h ⊢
      rw [if_neg (not_not.mpr rfl), copyExcept_after (Nat.lt_succ_self j) h]
    have hsucc : i - j = (i - (j + 1)) + 1 := by omega
    rw [hsucc, eraseIdx_cons_succ] at h ⊢
    rw [length_cons] at h
    rw [if_pos heq, store_ok (by omega), pure_bind, ih (by omega)]
    · rw [append_assoc]
      rfl
    · rw [length_append, length_singleton]
      omega

/-- The array is filled to its end. -/
theorem copyExcept_fills (h : written.length + (positions.eraseIdx i).length = length) :
    (do
      let written ← copyExcept length i 0 positions written
      assert (written.length = length)
      pure written) = (pure (written ++ positions.eraseIdx i) : Handler _) := by
  rw [copyExcept_eq (Nat.zero_le i) (le_of_eq h), pure_bind, Nat.sub_zero, length_append, h,
    assert, if_pos (decide_eq_true rfl), pure_bind]

/-- What the branch builds: the old position in the main list is replaced, and the new one comes
first unless its order is zero. -/
theorem newPositions_eq : newPositions positions position
    = pure ((if position.order = 0 then [] else [position])
        ++ positions.eraseIdx (positions.findIdx fun p => p.list = .main)) := by
  unfold newPositions
  dsimp only
  generalize positions.findIdx (fun p => decide (p.list = .main)) = i
  have hlength : ∀ n, positions.length + n - (if i < positions.length then 1 else 0)
      = n + (positions.eraseIdx i).length := by
    rw [length_eraseIdx]
    split_ifs <;> omega
  rw [hlength]
  by_cases horder : position.order = 0
  · rw [if_neg (not_not.mpr horder), if_pos horder, if_pos horder]
    exact copyExcept_fills rfl
  · rw [if_pos horder, if_neg horder, if_neg horder, store_ok (by rw [length_nil]; omega),
      pure_bind]
    exact copyExcept_fills rfl

/-- Without the first of them, one less is in the main list. -/
theorem mainPositions_eraseIdx (positions : List ChatPosition) :
    mainPositions (positions.eraseIdx (positions.findIdx fun p => p.list = .main))
      = (mainPositions positions).tail := by
  induction positions with
  | nil => rfl
  | cons p positions ih =>
    by_cases hp : p.list = .main
    · rw [findIdx_cons, decide_eq_true hp, mainPositions_cons_main hp]
      rfl
    · rw [findIdx_cons, decide_eq_false hp, mainPositions_cons_other hp]
      show mainPositions (p :: positions.eraseIdx _) = _
      rw [mainPositions_cons_other hp, ih]

/-- A chat with one position in the main list gets at most one. -/
theorem length_newPositions (position : ChatPosition)
    (h : (mainPositions positions).length ≤ 1) :
    (mainPositions ((if position.order = 0 then [] else [position])
      ++ positions.eraseIdx (positions.findIdx fun p => p.list = .main))).length ≤ 1 := by
  have hkept : mainPositions (positions.eraseIdx (positions.findIdx fun p => p.list = .main))
      = [] := by
    rw [mainPositions_eraseIdx, ← length_eq_zero_iff, length_tail]
    omega
  split
  · rw [nil_append, hkept]
    exact Nat.zero_le 1
  · rw [singleton_append, mainPositions, filter_cons]
    split
    · exact le_of_eq (congrArg (·.length + 1) hkept)
    · exact le_trans (le_of_eq (congrArg length hkept)) (Nat.zero_le 1)

/-! ## Updates -/

theorem Consistent.initial : Consistent State.initial where
  id_eq := nofun
  listed _ := ⟨nofun, nofun⟩
  single := nofun

/-- The chats known are those announced. -/
def Knows (s : State) (known : Finset Int) : Prop :=
  ∀ id, id ∈ known ↔ (s.chats id).isSome

theorem Knows.found (h : Knows s known) (hid : id ∈ known) :
    ∃ chat, s.chats id = some chat ∧ getChat id s = .ok chat s := by
  obtain ⟨chat, hchat⟩ := Option.isSome_iff_exists.mp ((h id).mp hid)
  refine ⟨chat, hchat, ?_⟩
  unfold getChat
  rw [hchat]

/-- Setting the positions of a known chat. -/
theorem Consistent.set_known (h : Consistent s) (hknown : Knows s known)
    (hchat : s.chats chat.id = some chat) (hsingle : (mainPositions positions).length ≤ 1) :
    ∃ s', setChatPositions chat positions s = .ok () s' ∧ Consistent s' ∧
      Knows s' known := by
  obtain ⟨s', hset, hcons, hchats⟩ := h.set hchat hsingle
  refine ⟨s', hset, hcons, fun id => ?_⟩
  rw [hknown, hchats, Function.update_apply]
  split
  · rename_i hid
    rw [hid, hchat]
    rfl
  · rfl

/-- A chat is announced, as yet without positions. -/
theorem Consistent.announce (chat : Chat) (h : Consistent s) (hnew : s.chats chat.id = none)
    (hnone : chat.positions = []) :
    Consistent { s with chats := Function.update s.chats chat.id (some chat) } where
  id_eq id found hget := by
    rcases update_eq_some chat hget with ⟨hid, rfl⟩ | ⟨-, hget⟩
    · exact hid.symm
    · exact h.id_eq id found hget
  listed c := by
    rw [h.listed]
    constructor
    · rintro ⟨found, hget, hmem⟩
      refine ⟨found, (Function.update_of_ne (fun hid => ?_) _ _).trans hget, hmem⟩
      rw [hid, hnew] at hget
      cases hget
    · rintro ⟨found, hget, hmem⟩
      rcases update_eq_some chat hget with ⟨-, rfl⟩ | ⟨-, hget⟩
      · rw [hnone] at hmem
        cases hmem
      · exact ⟨found, hget, hmem⟩
  single id found hget := by
    rcases update_eq_some chat hget with ⟨-, rfl⟩ | ⟨-, hget⟩
    · rw [hnone]
      exact Nat.zero_le 1
    · exact h.single id found hget

theorem Consistent.new_chat (h : Consistent s) (hknown : Knows s known) (hnew : chat.id ∉ known)
    (hsingle : (mainPositions chat.positions).length ≤ 1) :
    ∃ s', onResult (.newChat chat) s = .ok () s' ∧ Consistent s' ∧
      Knows s' (insert chat.id known) := by
  have hnone : s.chats chat.id = none := by
    rw [hknown, Option.not_isSome_iff_eq_none] at hnew
    exact hnew
  let bare : Chat := { chat with positions := [] }
  have hannounced := h.announce bare hnone rfl
  refine hannounced.set_known (fun id => ?_) (Function.update_self _ _ _) hsingle
  show _ ↔ (Function.update s.chats chat.id _ id).isSome
  rw [Finset.mem_insert, hknown, Function.update_apply]
  split
  · rename_i hid
    exact iff_of_true (.inl hid) rfl
  · rename_i hid
    exact or_iff_right hid

/-- An update fails only if it is about the status of an unknown user. -/
def Handled (update : Update) (s s' : State) : Prop :=
  onResult update s = .ok () s' ∨
    onResult update s = .error .nullPointer s' ∧ ∃ userId, update = .userStatus userId

/-- **One update** keeps the list consistent. -/
theorem Consistent.step (h : Consistent s) (hknown : Knows s known)
    (hproper : update.Proper known) :
    ∃ s', Handled update s s' ∧ Consistent s' ∧ Knows s' (update.announced known) := by
  -- Two updates replace the array.
  have hreplace : ∀ id positions, id ∈ known → (mainPositions positions).length ≤ 1 →
      ∃ s', (getChat id >>= fun chat => setChatPositions chat positions) s = .ok () s' ∧
        Consistent s' ∧ Knows s' known := by
    intro id positions hid hsingle
    obtain ⟨chat, hchat, hget⟩ := hknown.found hid
    rw [bind_ok hget]
    exact h.set_known hknown (by rw [h.id_eq _ _ hchat]; exact hchat) hsingle
  cases update with
  | user userId =>
    exact ⟨_, .inl rfl, ⟨h.id_eq, h.listed, h.single⟩, hknown⟩
  | userStatus userId =>
    refine ⟨s, ?_, h, hknown⟩
    by_cases hu : s.users userId = true
    · exact .inl (if_pos hu)
    · exact .inr ⟨if_neg hu, userId, rfl⟩
  | newChat chat =>
    obtain ⟨s', hset, hrest⟩ := h.new_chat hknown hproper.1 hproper.2
    exact ⟨s', .inl hset, hrest⟩
  | chatLastMessage chatId positions | chatDraftMessage chatId positions =>
    obtain ⟨s', hset, hrest⟩ := hreplace chatId positions hproper.1 hproper.2
    exact ⟨s', .inl hset, hrest⟩
  | chatPosition chatId position =>
    by_cases hlist : position.list ≠ .main
    · exact ⟨s, .inl (by rw [onResult, if_pos hlist]; rfl), h, hknown⟩
    obtain ⟨chat, hchat, hget⟩ := hknown.found hproper
    obtain ⟨s', hset, hrest⟩ := h.set_known hknown
      (by rw [h.id_eq _ _ hchat]; exact hchat)
      (length_newPositions position (h.single _ _ hchat))
    refine ⟨s', .inl ?_, hrest⟩
    rw [onResult, if_neg hlist, bind_ok hget, newPositions_eq]
    exact hset
  | chatField chatId =>
    obtain ⟨chat, -, hget⟩ := hknown.found hproper
    refine ⟨s, .inl ?_, h, hknown⟩
    rw [onResult, bind_ok hget]
    rfl
  | other => exact ⟨s, .inl rfl, h, hknown⟩

theorem Handled.final_eq (h : Handled update s s') : final (onResult update s) = s' := by
  rcases h with h | ⟨h, -⟩
  · rw [h]
    rfl
  · rw [h]
    rfl

theorem Consistent.after {before : List Update} {later : List Update} (h : Consistent s)
    (hknown : Knows s known) (hproper : Proper known (before ++ update :: later)) :
    Consistent (run s (before ++ [update])) ∧
      Handled update (run s before) (run s (before ++ [update])) := by
  induction before generalizing s known with
  | nil =>
    obtain ⟨s', hhandled, hcons, -⟩ := h.step hknown hproper.1
    have hrun : run s ([] ++ [update]) = s' := hhandled.final_eq
    rw [hrun]
    exact ⟨hcons, hhandled⟩
  | cons first before ih =>
    obtain ⟨s', hhandled, hcons, hknown'⟩ := h.step hknown hproper.1
    have hrun : ∀ updates, run s (first :: updates) = run s' updates := by
      intro updates
      show run (final (onResult first s)) updates = _
      rw [hhandled.final_eq]
    rw [cons_append, hrun, hrun]
    exact ih hcons hknown' hproper.2

/-- **The main chat list is consistent** and sorted by `compareTo` after each update of every proper
sequence, and no assertion fails on the way: the only failure there is, is about a user. -/
theorem main_list_consistent {before : List Update} {update : Update} (later : List Update)
    (h : Proper ∅ (before ++ update :: later)) :
    Consistent (run .initial (before ++ [update])) ∧
      (run .initial (before ++ [update])).mainChatList.toList.Pairwise
        (fun a o => a.compareTo o < 0) ∧
      Handled update (run .initial before) (run .initial (before ++ [update])) := by
  obtain ⟨hcons, hhandled⟩ := Consistent.initial.after (fun _ => by simp [State.initial]) h
  have hsorted := (run .initial (before ++ [update])).mainChatList.sorted
  simp only [← OrderedChat.compareTo_neg] at hsorted
  exact ⟨hcons, hsorted, hhandled⟩

/-- A chat leaves the list while its other position stays, and comes back with the last message. -/
theorem main_list_consistent_back :
    Consistent (run .initial ([.newChat ⟨1, [⟨.archive, 4, false⟩, ⟨.main, 5, false⟩]⟩,
      .newChat ⟨2, []⟩, .chatPosition 2 ⟨.main, 5, true⟩, .userStatus 9,
      .chatPosition 1 ⟨.main, 0, false⟩] ++ [.chatLastMessage 1 [⟨.main, 6, false⟩]])) ∧
    (run .initial ([.newChat ⟨1, [⟨.archive, 4, false⟩, ⟨.main, 5, false⟩]⟩,
      .newChat ⟨2, []⟩, .chatPosition 2 ⟨.main, 5, true⟩, .userStatus 9,
      .chatPosition 1 ⟨.main, 0, false⟩] ++ [.chatLastMessage 1 [⟨.main, 6, false⟩]])
        ).mainChatList.toList = [⟨1, ⟨.main, 6, false⟩⟩, ⟨2, ⟨.main, 5, true⟩⟩] :=
  ⟨(main_list_consistent [.other] (by decide)).1, by decide⟩

end Tdlib.Application
