/-
# Quoted text

The unambiguous form of a string: in double quotes, with quotes, backslashes and control characters
escaped and everything else as it is.
-/

namespace Lox
namespace Text

/-- A natural number in lower-case hexadecimal digits. -/
def hex (n : Nat) : String := String.ofList (Nat.toDigits 16 n)

/-- Whether a character is a control character: below the blank, or from delete to `U+009F`. -/
def isControl (c : Char) : Bool := c.toNat < 0x20 || (0x7F ≤ c.toNat && c.toNat ≤ 0x9F)

/-- One character of a quoted text. -/
def quotedChar (c : Char) : String :=
  match c with
  | '"' => "\\\""
  | '\\' => "\\\\"
  | '\n' => "\\n"
  | '\r' => "\\r"
  | '\t' => "\\t"
  | '\x00' => "\\0"
  | c => if isControl c then "\\u\x7b" ++ hex c.toNat ++ "\x7d" else c.toString

/-- The quoted form of a text. -/
def quoted (s : String) : String := "\"" ++ String.join (s.toList.map quotedChar) ++ "\""

end Text
end Lox
