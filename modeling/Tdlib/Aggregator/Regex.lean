import Tdlib.Aggregator.ParserProof

/-!
# Evaluating a query

`RegexAggregator.aggregate` parses the expression and evaluates the tree bottom
up. Every word is sent to the server as a search of its own, and every response
is deserialised into new objects, so the model threads a counter from which
`search` allocates references: two searches never return the same object, even
when they return the same message.

An operation node keeps its result in the mutable field of its token; here
`traversePostOrder` returns the tree with that field filled in. `none` stands for
an exception leaving `aggregate`.
-/

namespace Tdlib.Aggregator

/-- What identifies a message to a user. -/
def Message.ident (m : Message) : Int × Int := (m.chatId, m.id)

/-- What the server answers to each query, as message identifiers. -/
abbrev Results := String → List (Int × Int)

/-- Deserialising a response: new objects, at consecutive references from `heap`. -/
def allocate : Nat → List (Int × Int) → List Message
  | _, [] => []
  | heap, (chatId, id) :: rest => ⟨heap, chatId, id⟩ :: allocate (heap + 1) rest

/-- `search(query)`, with the next free reference. -/
def search (R : Results) (query : String) (heap : Nat) : List Message × Nat :=
  (allocate heap (R query), heap + (R query).length)

/-! ## Sets of messages, compared by reference -/

/-- The reference of `m` occurs in `s`. -/
def contains (s : List Message) (m : Message) : Bool := (s.map Message.ref).contains m.ref

/-- `Set.of(array)`, which throws when two elements are equal. -/
def setOf (array : List Message) : Option (List Message) :=
  if (array.map Message.ref).Nodup then some array else none

/-- `HashSet.addAll`. -/
def addAll (resultSet right : List Message) : List Message :=
  resultSet ++ right.filter (fun m => !contains resultSet m)

/-- `HashSet.retainAll`. -/
def retainAll (resultSet right : List Message) : List Message :=
  resultSet.filter (contains right)

/-! ## The traversal -/

/-- `getResulted()`; a token that is no operation has no such field. -/
def Token.getResulted : Token → Option (List Message)
  | .or resulted => resulted
  | .and resulted => resulted
  | _ => none

/-- `makeOperation(token, left, right)`, returning the token with its result set. -/
def makeOperation (token : Token) (left right : List Message) : Token :=
  match token with
  | .or _ => .or (some (addAll left right))
  | .and _ => .and (some (retainAll left right))
  | t => t

/-- The four cases of operand kinds; `left` and `right` are the values of the children. -/
def combine (R : Results) (value left right : Token) (heap : Nat) : Option (Token × Nat) :=
  match left, right with
  | .word l, .word r => do
      let (leftQueryResult, heap) := search R l heap
      let (rightQueryResult, heap) := search R r heap
      let leftSet ← setOf leftQueryResult
      let rightSet ← setOf rightQueryResult
      some (makeOperation value leftSet rightSet, heap)
  | .word l, right =>
    if right.isOperation then do
      let resulted ← right.getResulted
      let (leftQueryResult, heap) := search R l heap
      let leftSet ← setOf leftQueryResult
      some (makeOperation value resulted leftSet, heap)
    else some (value, heap)
  | left, .word r =>
    if left.isOperation then do
      let resulted ← left.getResulted
      let (rightQueryResult, heap) := search R r heap
      let rightSet ← setOf rightQueryResult
      some (makeOperation value resulted rightSet, heap)
    else some (value, heap)
  | left, right =>
    if right.isOperation && left.isOperation then do
      let resultedLeft ← left.getResulted
      let resultedRight ← right.getResulted
      some (makeOperation value resultedLeft resultedRight, heap)
    else some (value, heap)

def traversePostOrder (R : Results) : Node Token → Nat → Option (Node Token × Nat)
  | .null, heap => some (.null, heap)
  | .mk value l r, heap => do
      let (left, heap) ← traversePostOrder R l heap
      let (right, heap) ← traversePostOrder R r heap
      match left, right with
      | .mk lv _ _, .mk rv _ _ =>
        let (value, heap) ← combine R value lv rv heap
        some (.mk value left right, heap)
      | _, _ => some (.mk value left right, heap)

/-- The messages handed to the result handler. -/
def aggregate (frames : Nat) (R : Results) (expression : String) : Option (List Message) :=
  match Parser.parse frames (getAllTokens expression) with
  | .error _ => none
  | .ok result =>
    match traversePostOrder R result 0 with
    | some (.mk value _ _, heap) =>
      match value with
      | .word w => some (search R w heap).1
      | value => if value.isOperation then value.getResulted else none
    | _ => none

/-! ## What a query means -/

/-- The set algebra: `|` is union, `&` is intersection. -/
def Denotes (R : Results) : Node Token → Int × Int → Prop
  | .mk (.word w) _ _, m => m ∈ R w
  | .mk (.or _) l r, m => Denotes R l m ∨ Denotes R r m
  | .mk (.and _) l r, m => Denotes R l m ∧ Denotes R r m
  | _, _ => False

/-- The alternatives of a query: what is left when its outermost `|` are taken apart. -/
def alternatives : Node Token → List (Node Token)
  | .mk (.or _) l r => alternatives l ++ alternatives r
  | n => [n]

/-- Every message of a conjunctive alternative is also returned by a single-word alternative. -/
def Covered (R : Results) (tree : Node Token) : Prop :=
  ∀ r left right, .mk (.and r) left right ∈ alternatives tree →
    ∀ m, Denotes R (.mk (.and r) left right) m →
      ∃ w, .mk (.word w) .null .null ∈ alternatives tree ∧ m ∈ R w

end Tdlib.Aggregator
