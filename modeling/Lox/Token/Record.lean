/-
# Token documents

Tokens as a document for other programs: one record per token, with the name of the kind, or the
name and the literal of a string or number.
-/

import Lox.Text.Document
import Lox.Token

namespace Lox

open Text (Document)

namespace Kind

/-- A kind as a document: its name, or a record from its name to its literal. -/
def document (k : Kind) : Document :=
  match k with
  | .string contents => .record [(k.name, .text contents)]
  | .number value => .record [(k.name, .number value)]
  | _ => .text k.name

end Kind

namespace Token

/-- A token as a record. -/
def document (t : Token) : Document :=
  .record [("token_type", t.kind.document), ("lexeme", .text t.lexeme), ("line", .count t.line)]

/-- A list of tokens as a document. -/
def listDocument (ts : List Token) : Document := .list (ts.map document)

end Token

end Lox
