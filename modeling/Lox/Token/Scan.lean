/-
# Scanning

The scanner's `scan_token` and `next`, and `scan_tokens` over a whole source. A source is cut from
the front into pieces: a blank, a comment, a token, or a piece that is none of these. Each piece is
the longest one that can be cut there, and a newline moves the line on whatever the piece it stands
in, so the line of a piece is one more than the newlines up to its end. After the last piece comes
one token for the end of the input.
-/

import Lox.Number.Read
import Lox.Report

namespace Lox

/-- Why a piece of the source is not a token. -/
inductive LexicalCause where
  | unexpected (c : Char)
  | unterminatedString
  | unterminatedComment
deriving DecidableEq, Repr

namespace LexicalCause

/-- The text of the cause. -/
def message : LexicalCause → String
  | unexpected c => "Unexpected character: " ++ c.toString
  | unterminatedString => "Unterminated string."
  | unterminatedComment => "Unterminated block comment."

end LexicalCause

/-- A piece of the source that is not a token, with its line. -/
structure LexicalError where
  cause : LexicalCause
  line : Nat
deriving DecidableEq, Repr

namespace LexicalError

/-- The error as it is shown. -/
def report (e : LexicalError) : Report := .lexical e.line e.cause.message

end LexicalError

namespace Scan

/-- What a piece of the source is. -/
inductive Role where
  | skipped
  | token (kind : Kind)
  | fault (cause : LexicalCause)

/-- A piece cut from the front of a source: its text, what it is, and what follows it. -/
structure Piece where
  text : List Char
  role : Role
  rest : List Char

/-- Letters and the underscore begin an identifier. -/
def isNameStart (c : Char) : Bool := c.isAlpha || c == '_'

/-- Letters, digits and the underscore continue an identifier. -/
def isNamePart (c : Char) : Bool := c.isAlphanum || c == '_'

/-- Splits after the first `*/` (`skip_block_comment`). -/
def closeComment : List Char → Option (List Char × List Char)
  | '*' :: '/' :: rest => some (['*', '/'], rest)
  | c :: cs => (closeComment cs).map fun (inside, rest) => (c :: inside, rest)
  | [] => none

/-- A mark, or its longer form if an equals sign follows (`match_byte`). -/
def markOrEqual (c : Char) (short long : Punct) : List Char → Piece
  | '=' :: rest => ⟨[c, '='], .token (.punct long), rest⟩
  | rest => ⟨[c], .token (.punct short), rest⟩

/-- A slash, a comment to the end of the line, or a comment between `/*` and `*/`. -/
def slash : List Char → Piece
  | '/' :: cs =>
    ⟨'/' :: '/' :: cs.takeWhile (· != '\n'), .skipped, cs.dropWhile (· != '\n')⟩
  | '*' :: cs =>
    match closeComment cs with
    | some (inside, rest) => ⟨'/' :: '*' :: inside, .skipped, rest⟩
    | none => ⟨'/' :: '*' :: cs, .fault .unterminatedComment, []⟩
  | cs => ⟨['/'], .token (.punct .slash), cs⟩

/-- A string up to the next quote (`parse_string`). -/
def string (cs : List Char) : Piece :=
  let contents := cs.takeWhile (· != '"')
  match cs.dropWhile (· != '"') with
  | _ :: rest => ⟨'"' :: contents ++ ['"'], .token (.string (String.ofList contents)), rest⟩
  | [] => ⟨'"' :: cs, .fault .unterminatedString, []⟩

/-- A fraction: a point with at least one digit after it. -/
def fraction : List Char → List Char × List Char
  | '.' :: d :: cs =>
    if d.isDigit then (d :: cs.takeWhile Char.isDigit, cs.dropWhile Char.isDigit)
    else ([], '.' :: d :: cs)
  | cs => ([], cs)

/-- A number that begins with the digit `d` (`parse_number`). -/
def number (d : Char) (cs : List Char) : Piece :=
  let whole := d :: cs.takeWhile Char.isDigit
  let (places, rest) := fraction (cs.dropWhile Char.isDigit)
  let text := if places.isEmpty then whole else whole ++ '.' :: places
  ⟨text, .token (.number (Number.ofNumeral whole places)), rest⟩

/-- The kind of a word: a reserved word or an identifier. -/
def wordKind (word : List Char) : Kind :=
  match Keyword.ofSpelling? (String.ofList word) with
  | some k => .keyword k
  | none => .identifier

/-- A word that begins with `c` (`parse_identifier`). -/
def word (c : Char) (cs : List Char) : Piece :=
  let text := c :: cs.takeWhile isNamePart
  ⟨text, .token (wordKind text), cs.dropWhile isNamePart⟩

/-- The characters between pieces. -/
def isBlank (c : Char) : Bool := c == ' ' || c == '\r' || c == '\t' || c == '\n'

/-- The marks of one character that begin no longer piece. -/
def lone? : Char → Option Punct
  | '(' => some .leftParen
  | ')' => some .rightParen
  | '\x7b' => some .leftBrace
  | '\x7d' => some .rightBrace
  | ',' => some .comma
  | '.' => some .dot
  | '-' => some .minus
  | '+' => some .plus
  | ';' => some .semicolon
  | '*' => some .star
  | _ => none

/-- The marks that an equals sign makes longer, with the longer form. -/
def extensible? : Char → Option (Punct × Punct)
  | '!' => some (.bang, .bangEqual)
  | '=' => some (.equal, .equalEqual)
  | '<' => some (.less, .lessEqual)
  | '>' => some (.greater, .greaterEqual)
  | _ => none

/-- The first piece of the source `c :: cs` (`scan_token`). -/
def cut (c : Char) (cs : List Char) : Piece :=
  if isBlank c then ⟨[c], .skipped, cs⟩
  else if c == '/' then slash cs
  else if c == '"' then string cs
  else if c.isDigit then number c cs
  else if isNameStart c then word c cs
  else
    match lone? c, extensible? c with
    | some p, _ => ⟨[c], .token (.punct p), cs⟩
    | none, some (short, long) => markOrEqual c short long cs
    | none, none => ⟨[c], .fault (.unexpected c), cs⟩

/-- What follows a closed comment is no longer than what the comment was looked for in. -/
theorem closeComment_length {cs inside rest : List Char}
    (h : closeComment cs = some (inside, rest)) : rest.length ≤ cs.length := by
  fun_induction closeComment cs generalizing inside with
  | case1 rest' => simp at h; simp [← h.2]; omega
  | case2 c cs hne ih =>
    obtain ⟨⟨i, r⟩, hc, he⟩ := Option.map_eq_some_iff.1 h
    simp at he
    have := ih (he.2 ▸ hc)
    simp; omega
  | case3 => simp at h

theorem dropWhile_length_le (p : Char → Bool) (cs : List Char) :
    (cs.dropWhile p).length ≤ cs.length := (List.dropWhile_sublist p).length_le

/-- A mark leaves no more than what follows its first character. -/
theorem markOrEqual_length (c : Char) (short long : Punct) (cs : List Char) :
    (markOrEqual c short long cs).rest.length ≤ cs.length := by
  unfold markOrEqual; split <;> simp

/-- A slash or a comment leaves no more than what follows the slash. -/
theorem slash_length (cs : List Char) : (slash cs).rest.length ≤ cs.length := by
  unfold slash
  split
  · have := dropWhile_length_le (· != '\n') ‹_›; simp; omega
  · split
    · have := closeComment_length ‹_›; simp; omega
    · simp
  · simp

/-- A string, closed or not, leaves no more than what follows its quote. -/
theorem string_length (cs : List Char) : (string cs).rest.length ≤ cs.length := by
  unfold string
  have := dropWhile_length_le (· != '"') cs
  split
  · simp_all; omega
  · simp

/-- A fraction takes characters from the front. -/
theorem fraction_length (cs : List Char) : (fraction cs).2.length ≤ cs.length := by
  unfold fraction
  split
  · split
    · have := dropWhile_length_le Char.isDigit ‹_›; simp; omega
    · simp
  · simp

/-- A number leaves no more than what follows its first digit. -/
theorem number_length (d : Char) (cs : List Char) : (number d cs).rest.length ≤ cs.length :=
  Nat.le_trans (fraction_length _) (dropWhile_length_le _ _)

/-- A word leaves no more than what follows its first character. -/
theorem word_length (c : Char) (cs : List Char) : (word c cs).rest.length ≤ cs.length :=
  dropWhile_length_le _ _

/-- Cutting a piece leaves less to scan. -/
theorem cut_length (c : Char) (cs : List Char) : (cut c cs).rest.length ≤ cs.length := by
  unfold cut
  split
  · exact Nat.le_refl _
  split
  · exact slash_length cs
  split
  · exact string_length cs
  split
  · exact number_length c cs
  split
  · exact word_length c cs
  split
  · exact Nat.le_refl _
  · exact markOrEqual_length c _ _ cs
  · exact Nat.le_refl _

/-- The tokens and faults of a source whose first piece starts on the given line. -/
def items (line : Nat) : List Char → List (Except LexicalError Token)
  | [] => [.ok (Token.endOfInput line)]
  | c :: cs =>
    let piece := cut c cs
    let line := line + piece.text.count '\n'
    match piece.role with
    | .skipped => items line piece.rest
    | .token kind => .ok ⟨kind, String.ofList piece.text, line⟩ :: items line piece.rest
    | .fault cause => .error ⟨cause, line⟩ :: items line piece.rest
termination_by cs => cs.length
decreasing_by all_goals exact Nat.lt_succ_of_le (cut_length c cs)

end Scan

/-- The tokens and faults of a source, in order: what the scanner's `next` yields one by one. -/
def scan (source : String) : List (Except LexicalError Token) := Scan.items 1 source.toList

/-- The tokens of a source (`scan_tokens`). -/
def tokens (source : String) : List Token :=
  (scan source).filterMap fun item => item.toOption

/-- The faults of a source, which `scan_tokens` leaves in the diagnostics. -/
def lexicalErrors (source : String) : List LexicalError :=
  (scan source).filterMap fun
    | .ok _ => none
    | .error e => some e

end Lox
