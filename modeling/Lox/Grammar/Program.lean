/-
# Programs

The rules tied together. The parsers that refer to each other share a fuel that bounds how far they
can go without an answer; `fuelFor n` is enough for `n` tokens, because five steps down the rules
read a token.
-/

import Lox.Grammar.Expression
import Lox.Grammar.Statement

namespace Lox
namespace Grammar

mutual

/-- A sign with its operand, or a call. -/
def unary : Nat → Parser Expr
  | 0 => fail (.missing .expression)
  | fuel + 1 => unaryRule (nested (unary fuel)) (nested (assignment fuel))

/-- An assignment, or an expression of a tighter level. -/
def assignment : Nat → Parser Expr
  | 0 => fail (.missing .expression)
  | fuel + 1 => assignmentRule (unary fuel) (assignment fuel)

end

/-- An expression, one level deeper (`expression`). -/
def expression (fuel : Nat) : Parser Expr := nested (assignment fuel)

mutual

/-- A statement, one level deeper (`statement`). -/
def statement : Nat → Parser Stmt
  | 0 => fail (.missing .expression)
  | fuel + 1 => nested (statementRule (expression fuel) (statement fuel) (block fuel))

/-- A declaration, or nothing after an error and the skip to the next statement. -/
def declaration : Nat → Parser (Option Stmt)
  | 0 => fail (.missing .expression)
  | fuel + 1 =>
    recovering (declarationRule (expression fuel) (statement fuel)
      (routineRule .function (block fuel)) (methods fuel))

/-- The declarations of a block up to its closing brace (`block`). -/
def block : Nat → Parser (List Stmt)
  | 0 => fail (.missing .expression)
  | fuel + 1 => do
    if ← bodyOver then
      let _ ← expect (.punct .rightBrace) .blockEnd
      return []
    else
      let first ← declaration fuel
      let more ← block fuel
      return first.toList ++ more

/-- The methods of a class up to its closing brace. -/
def methods : Nat → Parser (List FunDecl)
  | 0 => fail (.missing .expression)
  | fuel + 1 => do
    if ← bodyOver then return []
    else
      let first ← routineRule .method (block fuel)
      let more ← methods fuel
      return first :: more

end

/-- A fuel that no parser uses up on `n` tokens. -/
def fuelFor (n : Nat) : Nat := 5 * n + 5

/-- Declarations up to the end of the input, at most `limit` of them. -/
def declarations : Nat → Parser (List Stmt)
  | 0 => return []
  | limit + 1 => do
    if ← atEnd then return []
    else
      let first ← declaration (fuelFor (← unread))
      let more ← declarations limit
      return first.toList ++ more

/-- One expression and then the end of the input. -/
def soleExpression : Parser Expr := do
  let e ← expression (fuelFor (← unread))
  if ← atEnd then return e else fail (.missing .inputEnd)

/-- What the grammar makes of a list of tokens: a tree, the errors in the order they were met, and
the next free node number. -/
structure Parsed (α : Type) where
  tree : α
  errors : List Error
  nextId : NodeId

/-- A state at the front of a list of tokens. -/
def State.start (tokens : List Token) (nextId : NodeId) : State := ⟨tokens, 0, nextId, []⟩

/-- The statements of a list of tokens (the parser's `parse`). -/
def parse (tokens : List Token) (nextId : NodeId) : Parsed (List Stmt) :=
  match declarations tokens.length (.start tokens nextId) with
  | .ok statements s => ⟨statements, s.errors, s.nextId⟩
  | .error e s => ⟨[], s.errors ++ [e], s.nextId⟩

/-- The one expression of a list of tokens, if it has no fatal error (`parse_expression`). -/
def parseExpression (tokens : List Token) (nextId : NodeId) : Parsed (Option Expr) :=
  match soleExpression (.start tokens nextId) with
  | .ok e s => ⟨some e, s.errors, s.nextId⟩
  | .error e s => ⟨none, s.errors ++ [e], s.nextId⟩

end Grammar
end Lox
