/-
# The text of values

What `print` shows, and the form that tells strings apart from other values.
-/

import Lox.Heap
import Lox.Text.Quoted

namespace Lox
namespace Heap

/-- The name of a class. -/
def className (h : Heap) (r : ClassRef) : String :=
  match h.class? r with
  | some c => c.name
  | none => ""

/-- The text of a value (the value's `fmt`). -/
def text (h : Heap) : Value → String
  | .nil => "nil"
  | .bool true => "true"
  | .bool false => "false"
  | .number x => Number.valueText x
  | .string s => s
  | .native _ => "<native fn>"
  | .function r =>
    match h.function? r with
    | some f => "<fn " ++ f.decl.name.lexeme ++ ">"
    | none => "<fn >"
  | .ofClass r => h.className r
  | .object r =>
    match h.object? r with
    | some o => h.className o.classRef ++ " instance"
    | none => " instance"

/-- The text of a value with strings quoted. -/
def quotedText (h : Heap) : Value → String
  | .string s => Text.quoted s
  | v => h.text v

end Heap
end Lox
