/-
# Documents

A small data format for handing values to other programs: numbers, texts, lists and records with
ordered fields, written on one line or with one item a line and two blanks of indentation per
level.
-/

import Lox.Number.Text
import Lox.Text.Quoted

namespace Lox
namespace Text

/-- A value of the data format. -/
inductive Document where
  | number (x : Float)
  | count (n : Nat)
  | text (s : String)
  | list (items : List Document)
  | record (fields : List (String × Document))

/-- How a document is spread over lines. -/
inductive Layout where
  | compact
  | indented
deriving DecidableEq, Repr

namespace Layout

/-- What stands before an item at the given depth. -/
def gap : Layout → Nat → String
  | compact, _ => ""
  | indented, depth => "\n" ++ String.ofList (List.replicate (2 * depth) ' ')

/-- What stands between the name of a field and its value. -/
def colon : Layout → String
  | compact => ":"
  | indented => ": "

/-- Items between brackets, separated by commas; no items leave nothing between the brackets. -/
def enclose (layout : Layout) (depth : Nat) (left right : String) : List String → String
  | [] => left ++ right
  | items =>
    left ++ layout.gap (depth + 1) ++ ("," ++ layout.gap (depth + 1)).intercalate items ++
      layout.gap depth ++ right

end Layout

namespace Document

/-- Four hexadecimal digits. -/
def hex4 (n : Nat) : String :=
  let ds := Nat.toDigits 16 n
  String.ofList (List.replicate (4 - ds.length) '0' ++ ds)

/-- One character inside a text: the short escapes, four hexadecimal digits for the other
characters below the blank, and everything else as it is. -/
def escaped (c : Char) : String :=
  match c with
  | '"' => "\\\""
  | '\\' => "\\\\"
  | '\x08' => "\\b"
  | '\x0c' => "\\f"
  | '\n' => "\\n"
  | '\r' => "\\r"
  | '\t' => "\\t"
  | c => if c.toNat < 0x20 then "\\u" ++ hex4 c.toNat else c.toString

/-- A text in quotes. -/
def textLiteral (s : String) : String := "\"" ++ String.join (s.toList.map escaped) ++ "\""

mutual

/-- The text of a document that stands at the given depth. -/
def renderAt (layout : Layout) (depth : Nat) : Document → String
  | number x => Number.documentText x
  | count n => Number.digitsText n
  | text s => textLiteral s
  | list items => layout.enclose depth "[" "]" (renderItems layout (depth + 1) items)
  | record fields => layout.enclose depth "\x7b" "\x7d" (renderFields layout (depth + 1) fields)

/-- The texts of the items of a list. -/
def renderItems (layout : Layout) (depth : Nat) : List Document → List String
  | [] => []
  | d :: ds => renderAt layout depth d :: renderItems layout depth ds

/-- The texts of the fields of a record. -/
def renderFields (layout : Layout) (depth : Nat) : List (String × Document) → List String
  | [] => []
  | (name, d) :: fields =>
    (textLiteral name ++ layout.colon ++ renderAt layout depth d) ::
      renderFields layout depth fields

end

/-- The text of a document. -/
def render (layout : Layout) (d : Document) : String := renderAt layout 0 d

end Document

end Text
end Lox
