/-
# Parsers

The helpers of the parser, from `advance` and `check` to `nested` and `synchronize`. A parser reads
tokens from the front of a list. Its state is the list still to be read, the nesting
level, the next free node number and the errors noted so far; it ends in a result or in a syntax
error, and keeps its state in both cases. A list may lack its closing token: past its end stands an
end of input on line 1, and nothing is ever read from an end of input on.
-/

import Lox.Grammar.Error
import Lox.Tree

namespace Lox
namespace Grammar

/-- What a parser works on. -/
structure State where
  rest : List Token
  depth : Nat
  nextId : NodeId
  errors : List Error

/-- A parser of `α`. -/
abbrev Parser := EStateM Error State

namespace State

/-- The next token (the parser's `peek`). -/
def next (s : State) : Token := s.rest.headD (Token.endOfInput 1)

/-- Whether nothing is left to read (`is_at_end`). -/
def atEnd (s : State) : Bool := s.next.kind.same .endOfInput

/-- The error that blames the next token. -/
def blame (s : State) (cause : Cause) : Error := ⟨cause, s.next, s.rest.length⟩

end State

/-- Ends in an error at the next token. -/
def fail {α : Type} (cause : Cause) : Parser α := fun s => .error (s.blame cause) s

/-- Notes an error at the next token and goes on (`report`). -/
def note (cause : Cause) : Parser Unit :=
  modify fun s => { s with errors := s.errors ++ [s.blame cause] }

/-- Notes an error at a token already read and goes on. -/
def noteAt (cause : Cause) (token : Token) : Parser Unit :=
  modify fun s => { s with errors := s.errors ++ [⟨cause, token, s.rest.length⟩] }

/-- The next token, unread. -/
def peek : Parser Token := fun s => .ok s.next s

/-- Whether nothing is left to read. -/
def atEnd : Parser Bool := fun s => .ok s.atEnd s

/-- The number of tokens left in the list. -/
def unread : Parser Nat := fun s => .ok s.rest.length s

/-- Reads past the next token (`advance`). -/
def skip : Parser Unit := modify fun s => { s with rest := s.rest.tail }

/-- Whether the next token is of the given kind (`check`). -/
def sees (kind : Kind) : Parser Bool := fun s => .ok (s.next.kind.same kind) s

/-- Reads the next token if it is of one of the given kinds (`matches`). -/
def acceptAny (kinds : List Kind) : Parser (Option Token) := fun s =>
  match s.rest with
  | t :: rest =>
    if kinds.any t.kind.same then .ok (some t) { s with rest := rest } else .ok none s
  | [] => .ok none s

/-- Reads the next token if it is of the given kind. -/
def accept (kind : Kind) : Parser (Option Token) := acceptAny [kind]

/-- Reads a token of the given kind, which has to be there (`consume`). -/
def expect (kind : Kind) (wanted : Wanted) : Parser Token := do
  match ← accept kind with
  | some t => return t
  | none => fail (.missing wanted)

/-- A node number not used before. -/
def freshId : Parser NodeId := fun s => .ok s.nextId { s with nextId := s.nextId + 1 }

/-- Runs a parser one level deeper (`nested`), and comes back up whether it ends in a result or an
error. -/
def nested {α : Type} (p : Parser α) : Parser α := fun s =>
  if s.depth ≥ maxNesting then fail .tooDeep s
  else
    match p { s with depth := s.depth + 1 } with
    | .ok a s => .ok a { s with depth := s.depth - 1 }
    | .error e s => .error e { s with depth := s.depth - 1 }

/-- Items after a comma each, at most `fuel` of them, of which `count` came before. Each one past
the most allowed is noted. -/
def moreItems {α : Type} (item : Parser α) (tooMany : Cause) : Nat → Nat → Parser (List α)
  | 0, _ => return []
  | fuel + 1, count => do
    match ← accept (.punct .comma) with
    | none => return []
    | some _ =>
      if count ≥ maxArity then note tooMany
      let a ← item
      let more ← moreItems item tooMany fuel (count + 1)
      return a :: more

/-- One or more items with commas between them. -/
def separated {α : Type} (item : Parser α) (tooMany : Cause) : Parser (List α) := do
  let first ← item
  let more ← moreItems item tooMany (← unread) 1
  return first :: more

/-- Items with commas between them up to a closing parenthesis; there may be none. -/
def parenthesised {α : Type} (item : Parser α) (tooMany : Cause) (wanted : Wanted) :
    Parser (List α × Token) := do
  let items ← if ← sees (.punct .rightParen) then pure [] else separated item tooMany
  let paren ← expect (.punct .rightParen) wanted
  return (items, paren)

/-- Whether a token opens a statement or declaration that a reader can resume at. -/
def opensStatement (t : Token) : Bool :=
  match t.kind with
  | .keyword k =>
    k ∈ [.class_, .fun_, .var_, .for_, .if_, .while_, .print_, .return_]
  | _ => false

/-- Skips to the end of input, to behind a semicolon or to a token that opens a statement: the loop
of the parser's `synchronize`. `last` is the token skipped last (`previous`). -/
def resumeAfter (last : Token) : List Token → List Token
  | [] => []
  | t :: rest =>
    if t.kind.same .endOfInput || last.kind.same (.punct .semicolon) || opensStatement t then
      t :: rest
    else resumeAfter t rest

/-- Where reading resumes after an error, the parser's `synchronize`: the token to blame is skipped,
unless it is the end. -/
def resume : List Token → List Token
  | [] => []
  | t :: rest => if t.kind.same .endOfInput then t :: rest else resumeAfter t rest

/-- Runs a parser, as `declaration` runs the rules below it: an error is noted, and reading resumes
at the next statement. -/
def recovering {α : Type} (p : Parser α) : Parser (Option α) := fun s =>
  match p s with
  | .ok a s => .ok (some a) s
  | .error e s => .ok none { s with rest := resume s.rest, errors := s.errors ++ [e] }

end Grammar
end Lox
