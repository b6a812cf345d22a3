/-
# UTF-8

Bytes are read as UTF-8 one at a time. A sequence has a leading byte that fixes how many bytes
follow and in which range the first of them lies, so that overlong forms, surrogates and code
points past the last one are refused at the first byte that rules them out. The error tells where
the broken sequence starts, and how many of its bytes could still have begun a character.
-/

namespace Lox
namespace Text
namespace Utf8

/-- Why bytes are not UTF-8. `index` is the length of the longest valid beginning. -/
inductive Error where
  /-- The first `length` bytes from `index` begin no character together with the next byte. -/
  | invalid (index length : Nat)
  /-- The bytes stop inside a character. -/
  | incomplete (index : Nat)
deriving DecidableEq, Repr

namespace Error

/-- The length of the longest valid beginning. -/
def index : Error → Nat
  | invalid index _ => index
  | incomplete index => index

/-- The text of the error. -/
def message : Error → String
  | invalid index length => s!"invalid utf-8 sequence of {length} bytes from index {index}"
  | incomplete index => s!"incomplete utf-8 byte sequence from index {index}"

end Error

/-- A character of which `seen` bytes were read and `owed` are still to come; the next one lies
between `low` and `high`, and `code` holds the bits read so far. -/
structure Unfinished where
  seen : Nat
  owed : Nat
  low : UInt8
  high : UInt8
  code : Nat

/-- The character that a byte past the ASCII range opens. -/
def open? (b : UInt8) : Option Unfinished :=
  if 0xC2 ≤ b && b ≤ 0xDF then some ⟨1, 1, 0x80, 0xBF, b.toNat % 32⟩
  else if b == 0xE0 then some ⟨1, 2, 0xA0, 0xBF, 0⟩
  else if b == 0xED then some ⟨1, 2, 0x80, 0x9F, 13⟩
  else if 0xE1 ≤ b && b ≤ 0xEF then some ⟨1, 2, 0x80, 0xBF, b.toNat % 16⟩
  else if b == 0xF0 then some ⟨1, 3, 0x90, 0xBF, 0⟩
  else if 0xF1 ≤ b && b ≤ 0xF3 then some ⟨1, 3, 0x80, 0xBF, b.toNat % 8⟩
  else if b == 0xF4 then some ⟨1, 3, 0x80, 0x8F, 4⟩
  else none

/-- Reads on from `index`, with `read` the characters before it in reverse. -/
def decodeFrom (index : Nat) (pending : Option Unfinished) (read : List Char) :
    List UInt8 → Except Error (List Char)
  | [] =>
    match pending with
    | none => .ok read.reverse
    | some _ => .error (.incomplete index)
  | b :: bytes =>
    match pending with
    | none =>
      if b < 0x80 then decodeFrom (index + 1) none (Char.ofNat b.toNat :: read) bytes
      else
        match open? b with
        | none => .error (.invalid index 1)
        | some u => decodeFrom index (some u) read bytes
    | some u =>
      if u.low ≤ b && b ≤ u.high then
        let code := u.code * 64 + b.toNat % 64
        if u.owed ≤ 1 then decodeFrom (index + u.seen + 1) none (Char.ofNat code :: read) bytes
        else decodeFrom index (some ⟨u.seen + 1, u.owed - 1, 0x80, 0xBF, code⟩) read bytes
      else .error (.invalid index u.seen)

/-- The text that bytes encode. -/
def decode (bytes : ByteArray) : Except Error String :=
  (decodeFrom 0 none [] bytes.toList).map String.ofList

/-- The text of bytes that may stop inside a character: what is left of it reads as `U+FFFD`. -/
def decodeCut (bytes : ByteArray) : String :=
  match decode bytes with
  | .ok text => text
  | .error e =>
    match decode (bytes.extract 0 e.index) with
    | .ok text => text.push (Char.ofNat 0xFFFD)
    | .error _ => ""

end Utf8
end Text
end Lox
