import Mathlib

/-!
# The message-query parser

`Lexer` cuts an expression such as `(Java|Kotlin)&Spring` into tokens, and
`Parser` turns the tokens into a binary tree by recursive descent over

    S -> X | X '|' S
    X -> V | V '&' X
    V -> Word | '(' S ')'

Two things about the source shape the model. `Parser` never runs off its
iterator: every advance is guarded by `hasNext`, so once the input is exhausted
the last token simply *stays current* and can be examined again by any number of
enclosing productions. And the recursion is the JVM's, so its depth is bounded:
the first argument of `S`, `X` and `V` counts the frames that are left, and
running out of them is the `StackOverflowError` that `(` alone provokes.
-/

namespace Tdlib.Aggregator

/--
A `TdApi.Message` object. The generated class does not override `equals`, so
collections compare messages by reference: `ref` is the object's identity, and
`(chatId, id)` is what identifies the message to a user.
-/
structure Message where
  ref : Nat
  chatId : Int
  id : Int
deriving DecidableEq

/-- The tokens. An operation carries the mutable field its result is left in. -/
inductive Token where
  | word (result : String)
  | or (resulted : Option (List Message))
  | and (resulted : Option (List Message))
  | openBracket
  | closeBracket
deriving DecidableEq

namespace Token

def isOr : Token → Bool
  | .or _ => true
  | _ => false

def isAnd : Token → Bool
  | .and _ => true
  | _ => false

/-- `instanceof Operation`. -/
def isOperation (t : Token) : Bool := t.isOr || t.isAnd

end Token

/-- `Node<T>`; `null` is the null reference a leaf has for children. -/
inductive Node (T : Type) where
  | null
  | mk (value : T) (left right : Node T)
deriving DecidableEq

/-! ## The lexer -/

/-- The characters `[ \r\t\n]` that the constructor strips from the input. -/
def isBlank (c : Char) : Bool := c == ' ' || c == '\r' || c == '\t' || c == '\n'

/-- The characters of the class `[|&()]`. -/
def isSpecial (c : Char) : Bool := c == '|' || c == '&' || c == '(' || c == ')'

/-- The successive matches of `[^|&()]+|[|&()]`: maximal ordinary runs, and single specials. -/
def groups : List Char → List (List Char)
  | [] => []
  | c :: cs =>
    if isSpecial c then [c] :: groups cs
    else
      match groups cs with
      | (d :: run) :: rest =>
        if isSpecial d then [c] :: (d :: run) :: rest else (c :: d :: run) :: rest
      | rest => [c] :: rest

/-- The `switch` on a match's text. -/
def tokenOf (group : List Char) : Token :=
  if group = ['&'] then .and none
  else if group = ['|'] then .or none
  else if group = ['('] then .openBracket
  else if group = [')'] then .closeBracket
  else .word (String.ofList group)

/-- `new Lexer(input).getAllTokens()`. -/
def getAllTokens (input : String) : List Token :=
  (groups (input.toList.filter (fun c => !isBlank c))).map tokenOf

/-! ## The parser -/

/-- What a failed parse throws. -/
inductive Thrown where
  | runtimeException
  | stackOverflowError
  | noSuchElementException
deriving DecidableEq

/-- The parser's cursor: the current token and what the iterator still holds. -/
structure Parser where
  currentToken : Token
  iterator : List Token
deriving DecidableEq

namespace Parser

/-- `if (iterator.hasNext()) next();` -/
def advance (p : Parser) : Parser :=
  match p.iterator with
  | [] => p
  | t :: ts => ⟨t, ts⟩

mutual

/-- `S -> X | X '|' S`. -/
def S : Nat → Parser → Except Thrown (Node Token × Parser)
  | 0, _ => .error .stackOverflowError
  | frames + 1, p =>
    match X frames p with
    | .error e => .error e
    | .ok (x, p1) =>
      if p1.currentToken.isOr then
        match S frames p1.advance with
        | .error e => .error e
        | .ok (s, p2) => .ok (.mk p1.currentToken x s, p2)
      else .ok (x, p1)

/-- `X -> V | V '&' X`. -/
def X : Nat → Parser → Except Thrown (Node Token × Parser)
  | 0, _ => .error .stackOverflowError
  | frames + 1, p =>
    match V frames p with
    | .error e => .error e
    | .ok (v, p1) =>
      if p1.currentToken.isAnd then
        match X frames p1.advance with
        | .error e => .error e
        | .ok (x, p2) => .ok (.mk p1.currentToken v x, p2)
      else .ok (v, p1)

/-- `V -> Word | '(' S ')'`. -/
def V : Nat → Parser → Except Thrown (Node Token × Parser)
  | 0, _ => .error .stackOverflowError
  | frames + 1, p =>
    match p.currentToken with
    | .word w => .ok (.mk (.word w) .null .null, p.advance)
    | .openBracket =>
      match S frames p.advance with
      | .error e => .error e
      | .ok (s, p1) =>
        if p1.currentToken = .closeBracket then .ok (s, p1.advance)
        else .error .runtimeException
    | _ => .error .runtimeException

end

/-- The constructor, which takes the first token, followed by `parse()`. -/
def parse (frames : Nat) : List Token → Except Thrown (Node Token)
  | [] => .error .noSuchElementException
  | t :: ts =>
    match S frames ⟨t, ts⟩ with
    | .error e => .error e
    | .ok (tree, _) => .ok tree

end Parser

/-! ## The grammar -/

mutual

/-- `DerS w t`: the tokens `w` are derivable from `S`, and `t` is the derivation's tree. -/
inductive DerS : List Token → Node Token → Prop where
  | one {w : List Token} {t : Node Token} : DerX w t → DerS w t
  | or {w u : List Token} {t s : Node Token} {r : Option (List Message)} :
      DerX w t → DerS u s → DerS (w ++ .or r :: u) (.mk (.or r) t s)

/-- The same from `X`. -/
inductive DerX : List Token → Node Token → Prop where
  | one {w : List Token} {t : Node Token} : DerV w t → DerX w t
  | and {w u : List Token} {t s : Node Token} {r : Option (List Message)} :
      DerV w t → DerX u s → DerX (w ++ .and r :: u) (.mk (.and r) t s)

/-- The same from `V`. -/
inductive DerV : List Token → Node Token → Prop where
  | word (w : String) : DerV [.word w] (.mk (.word w) .null .null)
  | bracket {w : List Token} {t : Node Token} :
      DerS w t → DerV (.openBracket :: (w ++ [.closeBracket])) t

end

end Tdlib.Aggregator
