/-
# Reports

What is shown to a person when something goes wrong. Every stage has causes of its own; a report is
the common form they are rendered in: a line, a place in the source where there is one, and a
message.
-/

import Lox.Text.Utf8
import Lox.Token

namespace Lox

/-- The place of a token in a report (`location_of`): the end of the input, or its lexeme. -/
def Token.location (t : Token) : String :=
  match t.kind with
  | .endOfInput => " at end"
  | _ => " at '" ++ t.lexeme ++ "'"

/-- A problem as it is shown. -/
inductive Report where
  /-- A piece of the source is not a token. -/
  | lexical (line : Nat) (message : String)
  /-- The tokens do not follow the grammar. -/
  | grammar (token : Token) (message : String)
  /-- The tree breaks a rule about scopes. -/
  | scope (token : Token) (message : String)
  /-- The running program failed. -/
  | runtime (line : Nat) (message : String)
  /-- The output could not be written. -/
  | output (message : String)
  /-- Bytes are not text. -/
  | encoding (error : Text.Utf8.Error)

namespace Report

/-- The line of the problem. -/
def line? : Report → Option Nat
  | lexical line _ => some line
  | grammar token _ => some token.line
  | scope token _ => some token.line
  | runtime line _ => some line
  | output _ => none
  | encoding _ => none

/-- The place of the problem, when a token is to blame. -/
def location? : Report → Option String
  | grammar token _ => some token.location
  | scope token _ => some token.location
  | _ => none

/-- The message alone (the error's `message`). -/
def message : Report → String
  | lexical _ message => message
  | grammar _ message => message
  | scope _ message => message
  | runtime _ message => message
  | output message => message
  | encoding error => error.message

/-- A message headed by its line and place. -/
def located (line : Nat) (location message : String) : String :=
  "[line " ++ Number.digitsText line ++ "] Error" ++ location ++ ": " ++ message

/-- The whole text of the report, as the errors of `lex`, `parse`, `resolve` and `runtime` are
shown. A running program's message comes first and its line below. -/
def text : Report → String
  | lexical line message => located line "" message
  | grammar token message => located token.line token.location message
  | scope token message => located token.line token.location message
  | runtime line message => message ++ "\n[line " ++ Number.digitsText line ++ "]"
  | output message => message
  | encoding error => error.message

/-- The reports, each on lines of its own. -/
def listText (reports : List Report) : String :=
  String.join (reports.map fun r => r.text ++ "\n")

end Report

end Lox
