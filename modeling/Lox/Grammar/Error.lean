/-
# Syntax errors

A syntax error names what was missing or what limit was passed, and the token to blame. Errors
that abandon a declaration also count the tokens that were still unread when they arose.
-/

import Lox.Report

namespace Lox
namespace Grammar

/-- The two forms that a name, parameters and a body take. -/
inductive Routine where
  | function
  | method
deriving DecidableEq, Repr

/-- What is called for at some point of the grammar. -/
inductive Wanted where
  | className | classBody | classEnd
  | routineName (r : Routine) | parameters (r : Routine) | routineBody (r : Routine)
  | parameterName | parametersEnd
  | variableName | variableEnd
  | forClauses | loopConditionEnd | forClausesEnd
  | ifCondition | ifConditionEnd
  | whileCondition | whileConditionEnd
  | returnEnd | printEnd | statementEnd | blockEnd
  | propertyName | argumentsEnd | groupEnd
  | expression | inputEnd
deriving DecidableEq, Repr

/-- Why tokens do not follow the grammar. -/
inductive Cause where
  | missing (wanted : Wanted)
  | tooDeep
  | invalidTarget
  | tooManyParameters
  | tooManyArguments
deriving DecidableEq, Repr

/-- The most parameters of a function and arguments of a call. -/
def maxArity : Nat := 255

/-- The most levels of statements, expressions and operands inside one another. -/
def maxNesting : Nat := 100

namespace Routine

/-- The word for the form. -/
def word : Routine → String
  | function => "function"
  | method => "method"

end Routine

namespace Wanted

/-- The text that calls for it. -/
def message : Wanted → String
  | className => "Expect class name."
  | classBody => "Expect '\x7b' before class body."
  | classEnd => "Expect '\x7d' after class body."
  | routineName r => "Expect " ++ r.word ++ " name."
  | parameters r => "Expect '(' after " ++ r.word ++ " name."
  | routineBody r => "Expect '\x7b' before " ++ r.word ++ " body."
  | parameterName => "Expect parameter name."
  | parametersEnd => "Expect ')' after parameters."
  | variableName => "Expect variable name."
  | variableEnd => "Expect ';' after variable declaration."
  | forClauses => "Expect '(' after 'for'."
  | loopConditionEnd => "Expect ';' after loop condition."
  | forClausesEnd => "Expect ')' after for clauses."
  | ifCondition => "Expect '(' after 'if'."
  | ifConditionEnd => "Expect ')' after if condition."
  | whileCondition => "Expect '(' after 'while'."
  | whileConditionEnd => "Expect ')' after condition."
  | returnEnd => "Expect ';' after return value."
  | printEnd => "Expect ';' after value."
  | statementEnd => "Expect ';' after expression."
  | blockEnd => "Expect '\x7d' after block."
  | propertyName => "Expect property name after '.'."
  | argumentsEnd => "Expect ')' after arguments."
  | groupEnd => "Expect ')' after expression."
  | expression => "Expect expression."
  | inputEnd => "Expect end of expression."

end Wanted

namespace Cause

/-- The text of the cause. -/
def message : Cause → String
  | missing wanted => wanted.message
  | tooDeep => "Too deeply nested."
  | invalidTarget => "Invalid assignment target."
  | tooManyParameters => "Can't have more than " ++ Number.digitsText maxArity ++ " parameters."
  | tooManyArguments => "Can't have more than " ++ Number.digitsText maxArity ++ " arguments."

/-- Whether the error abandons the declaration it arose in. The others are noted in passing. -/
def isFatal : Cause → Bool
  | missing _ => true
  | tooDeep => true
  | _ => false

end Cause

/-- A syntax error: its cause, the token to blame and the number of tokens unread at that point. -/
structure Error where
  cause : Cause
  token : Token
  unread : Nat
deriving DecidableEq, Repr

namespace Error

/-- The error as it is shown. -/
def report (e : Error) : Report := .grammar e.token e.cause.message

end Error

end Grammar
end Lox
