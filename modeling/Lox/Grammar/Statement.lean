/-
# Statements and declarations

The rules for statements and declarations, each over the parsers it refers to. A `for` loop has no
node of its own: it is a block of its first clause and a `while` loop whose body ends with its last
clause.
-/

import Lox.Grammar.Parser

namespace Lox
namespace Grammar

/-- An expression if the next token is not of the given kind. -/
def optionalBefore (kind : Kind) (expression : Parser Expr) : Parser (Option Expr) := do
  if ← sees kind then return none else return some (← expression)

/-- A variable declaration behind its keyword (`var_declaration`). -/
def varRule (expression : Parser Expr) : Parser Stmt := do
  let name ← expect .identifier .variableName
  let init ←
    match ← accept (.punct .equal) with
    | some _ => pure (some (← expression))
    | none => pure none
  let _ ← expect (.punct .semicolon) .variableEnd
  return .var name init

/-- An expression as a statement (`expression_statement`). -/
def expressionRule (expression : Parser Expr) : Parser Stmt := do
  let e ← expression
  let _ ← expect (.punct .semicolon) .statementEnd
  return .expression e

/-- A `print` statement behind its keyword (`print_statement`). -/
def printRule (expression : Parser Expr) : Parser Stmt := do
  let e ← expression
  let _ ← expect (.punct .semicolon) .printEnd
  return .print e

/-- A `return` statement behind its keyword (`return_statement`). -/
def returnRule (keyword : Token) (expression : Parser Expr) : Parser Stmt := do
  let value ← optionalBefore (.punct .semicolon) expression
  let _ ← expect (.punct .semicolon) .returnEnd
  return .ret keyword value

/-- A `while` loop behind its keyword (`while_statement`). -/
def whileRule (expression : Parser Expr) (statement : Parser Stmt) : Parser Stmt := do
  let _ ← expect (.punct .leftParen) .whileCondition
  let cond ← expression
  let _ ← expect (.punct .rightParen) .whileConditionEnd
  return .loop cond (← statement)

/-- An `if` statement behind its keyword (`if_statement`); an `else` belongs to the nearest `if`. -/
def ifRule (expression : Parser Expr) (statement : Parser Stmt) : Parser Stmt := do
  let _ ← expect (.punct .leftParen) .ifCondition
  let cond ← expression
  let _ ← expect (.punct .rightParen) .ifConditionEnd
  let thenB ← statement
  match ← accept (.keyword .else_) with
  | some _ => return .branch cond thenB (some (← statement))
  | none => return .branch cond thenB none

/-- The tree of a `for` loop. -/
def forLoop (init : Option Stmt) (cond step : Option Expr) (body : Stmt) : Stmt :=
  let body :=
    match step with
    | some e => .block [body, .expression e]
    | none => body
  let loop := .loop (cond.getD (.literal (.bool true))) body
  match init with
  | some s => .block [s, loop]
  | none => loop

/-- The first clause of a `for` loop. -/
def forInit (expression : Parser Expr) : Parser (Option Stmt) := do
  match ← acceptAny [.punct .semicolon, .keyword .var_] with
  | some mark =>
    if mark.kind.same (.punct .semicolon) then return none
    else return some (← varRule expression)
  | none => return some (← expressionRule expression)

/-- A `for` loop behind its keyword (`for_statement`). -/
def forRule (expression : Parser Expr) (statement : Parser Stmt) : Parser Stmt := do
  let _ ← expect (.punct .leftParen) .forClauses
  let init ← forInit expression
  let cond ← optionalBefore (.punct .semicolon) expression
  let _ ← expect (.punct .semicolon) .loopConditionEnd
  let step ← optionalBefore (.punct .rightParen) expression
  let _ ← expect (.punct .rightParen) .forClausesEnd
  return forLoop init cond step (← statement)

/-- A statement by its first token (`any_statement`, below the `nested` of `statement`). -/
def statementRule (expression : Parser Expr) (statement : Parser Stmt)
    (block : Parser (List Stmt)) : Parser Stmt := do
  let t ← peek
  match t.kind with
  | .keyword .for_ => skip; forRule expression statement
  | .keyword .if_ => skip; ifRule expression statement
  | .keyword .while_ => skip; whileRule expression statement
  | .keyword .return_ => skip; returnRule t expression
  | .punct .leftBrace => skip; return .block (← block)
  | .keyword .print_ => skip; printRule expression
  | _ => expressionRule expression

/-- A name, parameters and a body (`function`). -/
def routineRule (r : Routine) (block : Parser (List Stmt)) : Parser FunDecl := do
  let name ← expect .identifier (.routineName r)
  let _ ← expect (.punct .leftParen) (.parameters r)
  let (params, _) ←
    parenthesised (expect .identifier .parameterName) .tooManyParameters .parametersEnd
  let _ ← expect (.punct .leftBrace) (.routineBody r)
  return ⟨name, params, ← block⟩

/-- A class declaration behind its keyword (`class_declaration`). -/
def classRule (methods : Parser (List FunDecl)) : Parser Stmt := do
  let name ← expect .identifier .className
  let _ ← expect (.punct .leftBrace) .classBody
  let methods ← methods
  let _ ← expect (.punct .rightBrace) .classEnd
  return .classDecl name methods

/-- A declaration or statement by its first token (`declaration`). -/
def declarationRule (expression : Parser Expr) (statement : Parser Stmt)
    (function : Parser FunDecl) (methods : Parser (List FunDecl)) : Parser Stmt := do
  match (← peek).kind with
  | .keyword .class_ => skip; classRule methods
  | .keyword .fun_ => skip; return .function (← function)
  | .keyword .var_ => skip; varRule expression
  | _ => statement

/-- Whether a list of declarations or methods is over: at a closing brace or the end. -/
def bodyOver : Parser Bool := fun s => .ok (s.next.kind.same (.punct .rightBrace) || s.atEnd) s

end Grammar
end Lox
