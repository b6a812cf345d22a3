/-
# Expressions

The rules for expressions, each over the parsers it refers to. From the loosest to the tightest:
assignment, `or`, `and`, equality, comparison, sum, product, sign, call, and the primary forms.
Binary operators associate to the left, assignment to the right.
-/

import Lox.Grammar.Parser

namespace Lox
namespace Grammar

/-- More operands of a left-associative level, at most `fuel` of them. -/
def moreOperands (node : Expr → Token → Expr → Expr) (ops : List Kind) (operand : Parser Expr) :
    Nat → Expr → Parser Expr
  | 0, left => return left
  | fuel + 1, left => do
    match ← acceptAny ops with
    | none => return left
    | some op =>
      let right ← operand
      moreOperands node ops operand fuel (node left op right)

/-- Operands with the given operators between them, grouped from the left (`binary_level`). -/
def leftAssoc (node : Expr → Token → Expr → Expr) (ops : List Kind) (operand : Parser Expr) :
    Parser Expr := do
  let first ← operand
  moreOperands node ops operand (← unread) first

/-- Products and quotients (`factor`). -/
def product (unary : Parser Expr) : Parser Expr :=
  leftAssoc .binary [.punct .slash, .punct .star] unary

/-- Sums and differences (`term`). -/
def sum (unary : Parser Expr) : Parser Expr :=
  leftAssoc .binary [.punct .minus, .punct .plus] (product unary)

/-- Comparisons by order (`comparison`). -/
def comparison (unary : Parser Expr) : Parser Expr :=
  leftAssoc .binary
    [.punct .greater, .punct .greaterEqual, .punct .less, .punct .lessEqual] (sum unary)

/-- Comparisons for equality (`equality`). -/
def equality (unary : Parser Expr) : Parser Expr :=
  leftAssoc .binary [.punct .bangEqual, .punct .equalEqual] (comparison unary)

/-- Conjunctions (`logical_and`). -/
def conjunction (unary : Parser Expr) : Parser Expr :=
  leftAssoc .logical [.keyword .and_] (equality unary)

/-- Disjunctions (`logical_or`). -/
def disjunction (unary : Parser Expr) : Parser Expr :=
  leftAssoc .logical [.keyword .or_] (conjunction unary)

/-- A disjunction, or an assignment to one that is a variable or a property (`assignment`). Another
target is noted and stands for the whole. -/
def assignmentRule (unary assignment : Parser Expr) : Parser Expr := do
  let target ← disjunction unary
  match ← accept (.punct .equal) with
  | none => return target
  | some equals =>
    let value ← assignment
    match target with
    | .ident _ name => return .assign (← freshId) name value
    | .get object name => return .set object name value
    | other =>
      noteAt .invalidTarget equals
      return other

/-- A constant, a name, the receiver, or an expression in parentheses (`primary`). -/
def primary (expression : Parser Expr) : Parser Expr := do
  let t ← peek
  match t.kind with
  | .keyword .false_ => skip; return .literal (.bool false)
  | .keyword .true_ => skip; return .literal (.bool true)
  | .keyword .nil_ => skip; return .literal .nil
  | .number x => skip; return .literal (.number x)
  | .string s => skip; return .literal (.string s)
  | .keyword .this_ => skip; return .receiver (← freshId) t
  | .identifier => skip; return .ident (← freshId) t
  | .punct .leftParen =>
    skip
    let inner ← expression
    let _ ← expect (.punct .rightParen) .groupEnd
    return .grouping inner
  | _ => fail (.missing .expression)

/-- Argument lists (`finish_call`) and property names after an expression, at most `fuel` of them.
-/
def suffixes (expression : Parser Expr) : Nat → Expr → Parser Expr
  | 0, e => return e
  | fuel + 1, e => do
    match ← acceptAny [.punct .leftParen, .punct .dot] with
    | none => return e
    | some mark =>
      if mark.kind.same (.punct .leftParen) then
        let (args, paren) ← parenthesised expression .tooManyArguments .argumentsEnd
        suffixes expression fuel (.call e paren args)
      else
        let name ← expect .identifier .propertyName
        suffixes expression fuel (.get e name)

/-- A primary form with its calls and properties (`call`). -/
def call (expression : Parser Expr) : Parser Expr := do
  let first ← primary expression
  suffixes expression (← unread) first

/-- A call, or a sign before an operand (`unary`). -/
def unaryRule (operand expression : Parser Expr) : Parser Expr := do
  match ← acceptAny [.punct .bang, .punct .minus] with
  | some op => return .unary op (← operand)
  | none => call expression

end Grammar
end Lox
