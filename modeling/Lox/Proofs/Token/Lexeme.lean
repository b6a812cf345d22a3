/-
# The lexical grammar

`Lexeme text role` holds of the texts that are a piece by themselves: a blank, a comment, a mark, a
number, a string or a word. `Unclosed source cause` holds of the sources that start with a string
or a block comment that never ends. The scanner is compared with both from the front of a source: a
piece that it cuts is what the grammar says of it (`cut_told`), and no lexeme at the front goes
further than that piece (`Lexeme.reaches`).
-/

import Mathlib.Data.List.TakeWhile
import Lox.Proofs.Token.Spelled

namespace Lox

namespace Scan

/-- The text is a piece of a source, and what the piece is. -/
inductive Lexeme : List Char → Role → Prop
  | blank {c : Char} (hc : isBlank c = true) : Lexeme [c] .skipped
  | lineComment {body : List Char} (inside : '\n' ∉ body) : Lexeme ('/' :: '/' :: body) .skipped
  | blockComment {body : List Char} (first : ¬['*', '/'] <:+: body ++ ['*']) :
    Lexeme ('/' :: '*' :: (body ++ ['*', '/'])) .skipped
  | mark (p : Punct) : Lexeme p.spelling.toList (.token (.punct p))
  | whole {d : Char} {ds : List Char} (hd : d.isDigit = true) (hds : ∀ c ∈ ds, c.isDigit = true) :
    Lexeme (d :: ds) (.token (.number (Number.ofNumeral (d :: ds) [])))
  | decimal {d e : Char} {ds es : List Char}
    (hd : d.isDigit = true) (hds : ∀ c ∈ ds, c.isDigit = true)
    (he : e.isDigit = true) (hes : ∀ c ∈ es, c.isDigit = true) :
    Lexeme (d :: (ds ++ '.' :: e :: es)) (.token (.number (Number.ofNumeral (d :: ds) (e :: es))))
  | string {contents : List Char} (inside : '"' ∉ contents) :
    Lexeme ('"' :: (contents ++ ['"'])) (.token (.string (String.ofList contents)))
  | reserved (k : Keyword) : Lexeme k.spelling.toList (.token (.keyword k))
  | identifier {c : Char} {cs : List Char} (hc : isNameStart c = true)
    (hcs : ∀ d ∈ cs, isNamePart d = true) (free : ∀ k : Keyword, c :: cs ≠ k.spelling.toList) :
    Lexeme (c :: cs) (.token .identifier)

/-- The source starts with a string or a block comment that it never closes. -/
inductive Unclosed : List Char → LexicalCause → Prop
  | string {cs : List Char} (inside : '"' ∉ cs) : Unclosed ('"' :: cs) .unterminatedString
  | comment {cs : List Char} (inside : ¬['*', '/'] <:+: cs) :
    Unclosed ('/' :: '*' :: cs) .unterminatedComment

section Cut

variable {c : Char} {cs : List Char}

/-- A blank is a piece of its own. -/
theorem cut_blank (hc : isBlank c = true) : cut c cs = ⟨[c], .skipped, cs⟩ := by
  simp [cut, hc]

/-- Behind a slash it is told by the next character what the piece is. -/
theorem cut_slash : cut '/' cs = slash cs := rfl

/-- A quote begins a string. -/
theorem cut_quote : cut '"' cs = string cs := rfl

/-- The blanks are the space, the carriage return, the tab and the newline. -/
theorem isBlank_iff : isBlank c = true ↔ c = ' ' ∨ c = '\r' ∨ c = '\t' ∨ c = '\n' := by
  simp [isBlank, or_assoc]

/-- A digit is no blank. -/
theorem isBlank_of_isDigit (hd : c.isDigit = true) : isBlank c = false := by
  rw [Bool.eq_false_iff, ne_eq, isBlank_iff]
  rintro (rfl | rfl | rfl | rfl) <;> cases hd

/-- What begins a name is no blank. -/
theorem isBlank_of_isNameStart (hd : isNameStart c = true) : isBlank c = false := by
  rw [Bool.eq_false_iff, ne_eq, isBlank_iff]
  rintro (rfl | rfl | rfl | rfl) <;> cases hd

/-- What begins a name is no digit. -/
theorem isDigit_of_isNameStart (hc : isNameStart c = true) : c.isDigit = false := by
  rw [Bool.eq_false_iff]
  intro hd
  have small : c.val ≤ '9'.val := of_decide_eq_true (Bool.and_eq_true_iff.1 hd).2
  simp only [isNameStart, Bool.or_eq_true, beq_iff_eq] at hc
  obtain letter | rfl := hc
  · -- Letters of either case lie beyond the digits.
    have large : 'A'.val ≤ c.val ∨ 'a'.val ≤ c.val := by
      obtain upper | lower := Bool.or_eq_true_iff.1 letter
      · exact .inl (of_decide_eq_true upper).1
      · exact .inr (of_decide_eq_true (Bool.and_eq_true_iff.1 lower).1)
    simp only [UInt32.le_iff_toNat_le] at small large
    have : 'A'.val.toNat = 65 ∧ 'a'.val.toNat = 97 ∧ '9'.val.toNat = 57 := by decide
    omega
  · cases hd

/-- A digit begins a number. -/
theorem cut_digit (hd : c.isDigit = true) : cut c cs = number c cs := by
  have hs : c ≠ '/' := by rintro rfl; cases hd
  have hq : c ≠ '"' := by rintro rfl; cases hd
  simp [cut, isBlank_of_isDigit hd, hs, hq, hd]

/-- A letter or an underscore begins a word. -/
theorem cut_word (hc : isNameStart c = true) : cut c cs = word c cs := by
  have hs : c ≠ '/' := by rintro rfl; cases hc
  have hq : c ≠ '"' := by rintro rfl; cases hc
  simp [cut, isBlank_of_isNameStart hc, isDigit_of_isNameStart hc, hs, hq, hc]

end Cut

section Text

/-- A closed comment and what follows it are the text it was split from. -/
theorem append_of_closeComment {cs inside rest : List Char}
    (h : closeComment cs = some (inside, rest)) : inside ++ rest = cs := by
  fun_induction closeComment cs generalizing inside with
  | case1 rest' =>
    simp only [Option.some.injEq, Prod.mk.injEq] at h
    simp [← h.1, ← h.2]
  | case2 c cs hne ih =>
    obtain ⟨⟨i, r⟩, hc, he⟩ := Option.map_eq_some_iff.1 h
    simp only [Prod.mk.injEq] at he
    obtain ⟨rfl, rfl⟩ := he
    simp [ih hc]
  | case3 => cases h

/-- The text of a mark and what follows it are the source. -/
theorem markOrEqual_text (c : Char) (short long : Punct) (cs : List Char) :
    (markOrEqual c short long cs).text ++ (markOrEqual c short long cs).rest = c :: cs := by
  unfold markOrEqual
  split <;> rfl

/-- The text of a slash or comment and what follows it are the source. -/
theorem slash_text (cs : List Char) : (slash cs).text ++ (slash cs).rest = '/' :: cs := by
  unfold slash
  split
  · simp
  · split
    · simp [append_of_closeComment ‹_›]
    · simp
  · simp

/-- The text of a string, closed or not, and what follows it are the source. -/
theorem string_text (cs : List Char) : (string cs).text ++ (string cs).rest = '"' :: cs := by
  have split := List.takeWhile_append_dropWhile (p := (· != '"')) (l := cs)
  have head := List.head?_dropWhile_not (· != '"') cs
  unfold string
  cases h : cs.dropWhile (· != '"') with
  | nil => simp
  | cons q rest =>
    rw [h] at split head
    obtain rfl : q = '"' := by simpa using head
    simp [split]

/-- A fraction is not there, or it is a point and at least one digit at the front. -/
theorem fraction_text (cs : List Char) :
    fraction cs = ([], cs) ∨
      ∃ d ds, (fraction cs).1 = d :: ds ∧ '.' :: d :: (ds ++ (fraction cs).2) = cs := by
  unfold fraction
  split
  · split
    · exact .inr ⟨_, _, rfl, by simp⟩
    · exact .inl rfl
  · exact .inl rfl

/-- The text of a number and what follows it are the source. -/
theorem number_text (d : Char) (cs : List Char) :
    (number d cs).text ++ (number d cs).rest = d :: cs := by
  have split := List.takeWhile_append_dropWhile (p := Char.isDigit) (l := cs)
  obtain h | ⟨e, es, he, h⟩ := fraction_text (cs.dropWhile Char.isDigit)
  · simp [number, h, split]
  · simp only [number, he, List.isEmpty_cons]
    simp [h]

/-- The text of a word and what follows it are the source. -/
theorem word_text (c : Char) (cs : List Char) : (word c cs).text ++ (word c cs).rest = c :: cs := by
  simp [word]

/-- A piece and what follows it are the source. -/
theorem cut_text_append_rest (c : Char) (cs : List Char) :
    (cut c cs).text ++ (cut c cs).rest = c :: cs := by
  unfold cut
  split
  · rfl
  split
  · rename_i h
    rw [slash_text, eq_of_beq h]
  split
  · rename_i h
    rw [string_text, eq_of_beq h]
  split
  · exact number_text c cs
  split
  · exact word_text c cs
  split
  · rfl
  · exact markOrEqual_text c _ _ cs
  · rfl

end Text

section Comment

/-- A comment ends at its first `*/`. -/
theorem closeComment_append {body : List Char} (first : ¬['*', '/'] <:+: body ++ ['*'])
    (rest : List Char) :
    closeComment (body ++ '*' :: '/' :: rest) = some (body ++ ['*', '/'], rest) := by
  induction body with
  | nil => rfl
  | cons b body ih =>
    rw [List.cons_append, List.infix_cons_iff, not_or] at first
    have hne : ∀ r, b = '*' → body ++ '*' :: '/' :: rest = '/' :: r → False := by
      rintro r rfl h
      cases body with
      | nil => cases h
      | cons b body =>
        obtain rfl : b = '/' := (List.cons.inj h).1
        exact first.1 ⟨body ++ ['*'], rfl⟩
    rw [List.cons_append, closeComment.eq_2 _ _ hne, ih first.2]
    rfl

/-- Where a comment ends is the first `*/`. -/
theorem first_of_closeComment {cs inside rest : List Char}
    (h : closeComment cs = some (inside, rest)) :
    ∃ body, inside = body ++ ['*', '/'] ∧ ¬['*', '/'] <:+: body ++ ['*'] := by
  fun_induction closeComment cs generalizing inside with
  | case1 rest' =>
    simp only [Option.some.injEq, Prod.mk.injEq] at h
    exact ⟨[], h.1.symm, by decide⟩
  | case2 c cs hne ih =>
    obtain ⟨⟨i, r⟩, hc, he⟩ := Option.map_eq_some_iff.1 h
    simp only [Prod.mk.injEq] at he
    obtain ⟨rfl, rfl⟩ := he
    obtain ⟨body, rfl, first⟩ := ih hc
    have split := append_of_closeComment hc
    refine ⟨c :: body, rfl, ?_⟩
    rw [List.cons_append, List.infix_cons_iff, not_or]
    refine ⟨?_, first⟩
    rintro ⟨t, ht⟩
    -- A close at the head would lie in the body and be one of the source.
    cases body with
    | nil => simp at ht
    | cons b body =>
      simp only [List.cons_append, List.nil_append, List.cons.injEq] at ht
      exact hne _ ht.1.symm (by rw [← split, ← ht.2.1]; rfl)
  | case3 => cases h

/-- A comment is not closed exactly if no `*/` stands in what follows. -/
theorem closeComment_eq_none_iff (cs : List Char) :
    closeComment cs = none ↔ ¬['*', '/'] <:+: cs := by
  fun_induction closeComment cs with
  | case1 rest => simpa using ⟨[], rest, rfl⟩
  | case2 c cs hne ih =>
    rw [Option.map_eq_none_iff, ih, List.infix_cons_iff, not_or]
    refine ⟨fun h => ⟨?_, h⟩, fun h => h.2⟩
    rintro ⟨t, ht⟩
    simp only [List.cons_append, List.nil_append, List.cons.injEq] at ht
    exact hne t ht.1.symm ht.2.symm
  | case3 => simp

end Comment

section Sound

/-- A source that starts unclosed is one piece. -/
theorem Unclosed.cut {c : Char} {cs : List Char} {cause : LexicalCause}
    (h : Unclosed (c :: cs) cause) : Scan.cut c cs = ⟨c :: cs, .fault cause, []⟩ := by
  cases h with
  | string inside =>
    have none : cs.dropWhile (· != '"') = [] :=
      List.dropWhile_eq_nil_iff.2 fun q hq => bne_iff_ne.2 fun h => inside (h ▸ hq)
    rw [cut_quote, Scan.string, none]
  | comment inside =>
    rw [cut_slash, slash, (closeComment_eq_none_iff _).2 inside]

/-- What the grammar says of a text cut from the front of a source. -/
inductive Told (source : List Char) : List Char → Role → Prop
  | lexeme {text : List Char} {role : Role} (h : Lexeme text role) : Told source text role
  | unclosed {cause : LexicalCause} (h : Unclosed source cause) : Told source source (.fault cause)
  | stray (c : Char) : Told source [c] (.fault (.unexpected c))

/-- What is cut at a slash is the slash, a comment, or a comment that is not closed. -/
theorem slash_told (cs : List Char) : Told ('/' :: cs) (slash cs).text (slash cs).role := by
  unfold slash
  split
  · refine .lexeme (.lineComment fun h => ?_)
    simpa using List.mem_takeWhile_imp h
  · split
    · obtain ⟨body, rfl, first⟩ := first_of_closeComment ‹_›
      exact .lexeme (.blockComment first)
    · exact .unclosed (.comment ((closeComment_eq_none_iff _).1 ‹_›))
  · exact .lexeme (.mark .slash)

/-- What is cut at a quote is a string, or one that is not closed. -/
theorem string_told (cs : List Char) : Told ('"' :: cs) (string cs).text (string cs).role := by
  have inside : '"' ∉ cs.takeWhile (· != '"') := fun h => by simpa using List.mem_takeWhile_imp h
  unfold string
  cases h : cs.dropWhile (· != '"') with
  | nil =>
    refine .unclosed (.string fun hq => ?_)
    simpa using List.dropWhile_eq_nil_iff.1 h _ hq
  | cons q rest => exact .lexeme (.string inside)

/-- The places behind a point are digits. -/
theorem fraction_digits {cs ds : List Char} {d : Char} (h : (fraction cs).1 = d :: ds) :
    d.isDigit = true ∧ ∀ c ∈ ds, c.isDigit = true := by
  unfold fraction at h
  split at h
  · split at h
    · cases h
      exact ⟨‹_›, fun c hc => List.mem_takeWhile_imp hc⟩
    · cases h
  · cases h

/-- What is cut at a digit is a number. -/
theorem number_told {d : Char} (hd : d.isDigit = true) (cs : List Char) :
    Told (d :: cs) (number d cs).text (number d cs).role := by
  have hds : ∀ c ∈ cs.takeWhile Char.isDigit, c.isDigit = true :=
    fun c hc => List.mem_takeWhile_imp hc
  obtain h | ⟨e, es, he, -⟩ := fraction_text (cs.dropWhile Char.isDigit)
  · simp only [number, h]
    exact .lexeme (.whole hd hds)
  · obtain ⟨hfirst, hmore⟩ := fraction_digits he
    simp only [number, he]
    exact .lexeme (.decimal hd hds hfirst hmore)

/-- What is cut at a letter is a reserved word or a name. -/
theorem word_told {c : Char} (hc : isNameStart c = true) (cs : List Char) :
    Told (c :: cs) (word c cs).text (word c cs).role := by
  have hcs : ∀ d ∈ cs.takeWhile isNamePart, isNamePart d = true :=
    fun d hd => List.mem_takeWhile_imp hd
  simp only [word, wordKind]
  cases h : Keyword.ofSpelling? (String.ofList (c :: cs.takeWhile isNamePart)) with
  | some k =>
    have spelled := congrArg String.toList (Keyword.spelling_of_ofSpelling? h)
    rw [String.toList_ofList] at spelled
    rw [spelled]
    exact .lexeme (.reserved k)
  | none =>
    refine .lexeme (.identifier hc hcs fun k hk => ?_)
    exact Keyword.ne_spelling_of_ofSpelling? h k (by rw [hk, String.ofList_toList])

/-- A mark that begins no longer one is spelled by its character. -/
theorem lone?_spelling {c : Char} {p : Punct} (h : lone? c = some p) :
    p.spelling.toList = [c] := by
  unfold lone? at h
  split at h <;> cases h <;> rfl

/-- A mark that can be longer is spelled by its character, and the longer one by an equals sign
more. -/
theorem extensible?_spelling {c : Char} {short long : Punct}
    (h : extensible? c = some (short, long)) :
    short.spelling.toList = [c] ∧ long.spelling.toList = [c, '='] := by
  unfold extensible? at h
  split at h <;> cases h <;> exact ⟨rfl, rfl⟩

/-- What is cut there is the short mark or the long one. -/
theorem markOrEqual_told {c : Char} {short long : Punct}
    (h : extensible? c = some (short, long)) (cs : List Char) :
    Told (c :: cs) (markOrEqual c short long cs).text (markOrEqual c short long cs).role := by
  obtain ⟨hs, hl⟩ := extensible?_spelling h
  unfold markOrEqual
  split
  · exact hl ▸ .lexeme (.mark long)
  · exact hs ▸ .lexeme (.mark short)

/-- A piece is a lexeme, unless it starts unclosed or is one character of no lexeme. -/
theorem cut_told (c : Char) (cs : List Char) : Told (c :: cs) (cut c cs).text (cut c cs).role := by
  unfold cut
  split
  · exact .lexeme (.blank ‹_›)
  split
  · rename_i h
    exact eq_of_beq h ▸ slash_told cs
  split
  · rename_i h
    exact eq_of_beq h ▸ string_told cs
  split
  · exact number_told ‹_› cs
  split
  · exact word_told ‹_› cs
  split
  · rename_i h
    exact lone?_spelling h ▸ .lexeme (.mark _)
  · exact markOrEqual_told ‹_› cs
  · exact .stray c

end Sound

section Longest

/-- The piece goes at least to the end of the text, and is what the text is if it goes no
further. -/
structure Reaches (p : Piece) (text : List Char) (role : Role) : Prop where
  front : text <+: p.text
  role : p.text = text → p.role = role
  sound : ∀ cause, p.role ≠ .fault cause

/-- At a line comment at least the comment is cut. -/
theorem lineComment_reaches {body : List Char} (inside : '\n' ∉ body) (rest : List Char) :
    Reaches (slash ('/' :: body ++ rest)) ('/' :: '/' :: body) .skipped := by
  have all : ∀ c ∈ body, (c != '\n') = true := fun c hc => bne_iff_ne.2 fun h => inside (h ▸ hc)
  have text : (body ++ rest).takeWhile (· != '\n') = body ++ rest.takeWhile (· != '\n') :=
    List.takeWhile_append_of_pos all
  simp only [List.cons_append, slash, text]
  exact ⟨⟨_, rfl⟩, fun _ => rfl, by simp⟩

/-- At a closed comment at least the comment is cut. -/
theorem blockComment_reaches {body : List Char} (first : ¬['*', '/'] <:+: body ++ ['*'])
    (rest : List Char) :
    Reaches (slash ('*' :: (body ++ ['*', '/']) ++ rest)) ('/' :: '*' :: (body ++ ['*', '/']))
      .skipped := by
  have close := closeComment_append first rest
  simp only [List.cons_append, List.append_assoc, List.nil_append, slash, close]
  exact ⟨⟨[], by simp⟩, fun _ => rfl, by simp⟩

/-- A slash is cut, or a comment that it begins, unless that is not closed. -/
theorem slash_reaches (rest : List Char) (closed : ∀ cause, ¬Unclosed ('/' :: rest) cause) :
    Reaches (slash rest) ['/'] (.token (.punct .slash)) := by
  unfold slash
  split
  · exact ⟨⟨_, rfl⟩, by simp, by simp⟩
  · split
    · exact ⟨⟨_, rfl⟩, by simp, by simp⟩
    · exact absurd (.comment ((closeComment_eq_none_iff _).1 ‹_›)) (closed _)
  · exact ⟨⟨[], rfl⟩, fun _ => rfl, by simp⟩

/-- A string is cut up to the quote that closes it, whatever follows. -/
theorem string_exact {contents : List Char} (inside : '"' ∉ contents) (rest : List Char) :
    string (contents ++ ['"'] ++ rest)
      = ⟨'"' :: (contents ++ ['"']), .token (.string (String.ofList contents)), rest⟩ := by
  have all : ∀ c ∈ contents, (c != '"') = true :=
    fun c hc => bne_iff_ne.2 fun h => inside (h ▸ hc)
  have take : (contents ++ '"' :: rest).takeWhile (· != '"') = contents := by
    rw [List.takeWhile_append_of_pos all]
    simp
  have drop : (contents ++ '"' :: rest).dropWhile (· != '"') = '"' :: rest := by
    rw [List.dropWhile_append_of_pos all]
    simp
  rw [List.append_assoc, List.singleton_append, string, take, drop]
  rfl

/-- At a closed string at least the string is cut. -/
theorem string_reaches {contents : List Char} (inside : '"' ∉ contents) (rest : List Char) :
    Reaches (string (contents ++ ['"'] ++ rest)) ('"' :: (contents ++ ['"']))
      (.token (.string (String.ofList contents))) := by
  rw [string_exact inside]
  exact ⟨⟨[], by simp⟩, fun _ => rfl, by simp⟩

/-- At a run of digits at least the run is cut, as a number. -/
theorem whole_reaches (d : Char) {ds : List Char} (hds : ∀ c ∈ ds, c.isDigit = true)
    (rest : List Char) :
    Reaches (number d (ds ++ rest)) (d :: ds)
      (.token (.number (Number.ofNumeral (d :: ds) []))) := by
  have take : (ds ++ rest).takeWhile Char.isDigit = ds ++ rest.takeWhile Char.isDigit :=
    List.takeWhile_append_of_pos hds
  simp only [number, take]
  generalize fraction ((ds ++ rest).dropWhile Char.isDigit) = f
  obtain ⟨places, rest'⟩ := f
  cases places with
  | nil =>
    refine ⟨⟨_, rfl⟩, fun h => ?_, by simp⟩
    have ended : rest.takeWhile Char.isDigit = [] :=
      List.append_right_eq_self.1 (List.cons.inj h).2
    simp only [ended, List.append_nil]
  | cons e es => exact ⟨⟨rest.takeWhile Char.isDigit ++ '.' :: e :: es, by simp⟩, by simp, by simp⟩

/-- Digits stop at a point. -/
theorem digits_point {ds : List Char} (hds : ∀ c ∈ ds, c.isDigit = true) (more : List Char) :
    (ds ++ '.' :: more).takeWhile Char.isDigit = ds ∧
      (ds ++ '.' :: more).dropWhile Char.isDigit = '.' :: more := by
  have point : Char.isDigit '.' = false := by decide
  rw [List.takeWhile_append_of_pos hds, List.dropWhile_append_of_pos hds]
  simp [point]

/-- At a number with a fraction at least the number is cut. -/
theorem decimal_reaches (d : Char) {e : Char} {ds es : List Char}
    (hds : ∀ c ∈ ds, c.isDigit = true) (he : e.isDigit = true) (hes : ∀ c ∈ es, c.isDigit = true)
    (rest : List Char) :
    Reaches (number d (ds ++ '.' :: e :: es ++ rest)) (d :: (ds ++ '.' :: e :: es))
      (.token (.number (Number.ofNumeral (d :: ds) (e :: es)))) := by
  obtain ⟨take, drop⟩ := digits_point hds (e :: (es ++ rest))
  have places : (es ++ rest).takeWhile Char.isDigit = es ++ rest.takeWhile Char.isDigit :=
    List.takeWhile_append_of_pos hes
  simp only [List.append_assoc, List.cons_append, number, take, drop, fraction, he, places,
    if_true]
  refine ⟨⟨rest.takeWhile Char.isDigit, by simp⟩, fun h => ?_, by simp⟩
  have ended : rest.takeWhile Char.isDigit = [] := by simpa using h
  simp only [ended, List.append_nil]

/-- At a word at least the word is cut. -/
theorem word_reaches (c : Char) {cs : List Char} (hcs : ∀ d ∈ cs, isNamePart d = true)
    (rest : List Char) : Reaches (word c (cs ++ rest)) (c :: cs) (.token (wordKind (c :: cs))) := by
  have take : (cs ++ rest).takeWhile isNamePart = cs ++ rest.takeWhile isNamePart :=
    List.takeWhile_append_of_pos hcs
  simp only [word, take]
  exact ⟨⟨_, rfl⟩, fun h => congrArg (fun text => Role.token (wordKind text)) h, by simp⟩

/-- A character that begins no longer mark is cut as its mark. -/
theorem cut_lone {c : Char} {p : Punct} (h : lone? c = some p) (cs : List Char) :
    cut c cs = ⟨[c], .token (.punct p), cs⟩ := by
  unfold lone? at h
  split at h <;> cases h <;> rfl

/-- At a character that can begin a longer mark it is told by what follows which mark is cut. -/
theorem cut_extensible {c : Char} {short long : Punct} (h : extensible? c = some (short, long))
    (cs : List Char) : cut c cs = markOrEqual c short long cs := by
  unfold extensible? at h
  split at h <;> cases h <;> rfl

/-- A mark that begins no longer one is cut where it stands. -/
theorem lone_reaches {p : Punct} (d : Char) (h : lone? d = some p) {c : Char} {cs : List Char}
    (front : p.spelling.toList <+: c :: cs) :
    Reaches (cut c cs) p.spelling.toList (.token (.punct p)) := by
  rw [lone?_spelling h] at front ⊢
  obtain ⟨rfl, -⟩ := List.cons_prefix_cons.1 front
  rw [cut_lone h]
  exact ⟨⟨[], rfl⟩, fun _ => rfl, by simp⟩

/-- Where a short form stands, it is cut or its longer form is. -/
theorem short_reaches {short long : Punct} (d : Char) (h : extensible? d = some (short, long))
    {c : Char} {cs : List Char} (front : short.spelling.toList <+: c :: cs) :
    Reaches (cut c cs) short.spelling.toList (.token (.punct short)) := by
  rw [(extensible?_spelling h).1] at front ⊢
  obtain ⟨rfl, -⟩ := List.cons_prefix_cons.1 front
  rw [cut_extensible h]
  unfold markOrEqual
  split
  · exact ⟨⟨_, rfl⟩, by simp, by simp⟩
  · exact ⟨⟨[], rfl⟩, fun _ => rfl, by simp⟩

/-- Where a long form stands, it is cut. -/
theorem long_reaches {short long : Punct} (d : Char) (h : extensible? d = some (short, long))
    {c : Char} {cs : List Char} (front : long.spelling.toList <+: c :: cs) :
    Reaches (cut c cs) long.spelling.toList (.token (.punct long)) := by
  rw [(extensible?_spelling h).2] at front ⊢
  obtain ⟨rest, he⟩ := front
  obtain ⟨rfl, rfl⟩ := List.cons.inj he
  rw [cut_extensible h]
  exact ⟨⟨[], rfl⟩, fun _ => rfl, by simp [markOrEqual]⟩

/-- Where a mark stands, at least the mark is cut, unless something begins there that is not closed.
-/
theorem mark_reaches (p : Punct) {c : Char} {cs : List Char}
    (closed : ∀ cause, ¬Unclosed (c :: cs) cause) (front : p.spelling.toList <+: c :: cs) :
    Reaches (cut c cs) p.spelling.toList (.token (.punct p)) := by
  cases p with
  | slash =>
    obtain ⟨rest, h⟩ := front
    obtain ⟨rfl, rfl⟩ := List.cons.inj h
    exact slash_reaches rest closed
  | leftParen => exact lone_reaches '(' rfl front
  | rightParen => exact lone_reaches ')' rfl front
  | leftBrace => exact lone_reaches '\x7b' rfl front
  | rightBrace => exact lone_reaches '\x7d' rfl front
  | comma => exact lone_reaches ',' rfl front
  | dot => exact lone_reaches '.' rfl front
  | minus => exact lone_reaches '-' rfl front
  | plus => exact lone_reaches '+' rfl front
  | semicolon => exact lone_reaches ';' rfl front
  | star => exact lone_reaches '*' rfl front
  | bang => exact short_reaches '!' rfl front
  | equal => exact short_reaches '=' rfl front
  | greater => exact short_reaches '>' rfl front
  | less => exact short_reaches '<' rfl front
  | bangEqual => exact long_reaches '!' rfl front
  | equalEqual => exact long_reaches '=' rfl front
  | greaterEqual => exact long_reaches '>' rfl front
  | lessEqual => exact long_reaches '<' rfl front

/-- A reserved word has the form of a name and is told by its spelling. -/
theorem keyword_word (k : Keyword) : ∃ c cs, k.spelling.toList = c :: cs ∧
    isNameStart c = true ∧ (∀ d ∈ cs, isNamePart d = true) ∧ wordKind (c :: cs) = .keyword k := by
  cases k <;> exact ⟨_, _, rfl, rfl, List.all_eq_true.1 rfl, by decide +kernel⟩

/-- A word with the spelling of no reserved word is a name. -/
theorem wordKind_of_free {text : List Char} (free : ∀ k : Keyword, text ≠ k.spelling.toList) :
    wordKind text = .identifier := by
  unfold wordKind
  cases h : Keyword.ofSpelling? (String.ofList text) with
  | none => rfl
  | some k =>
    have spelled := congrArg String.toList (Keyword.spelling_of_ofSpelling? h)
    exact absurd (by rwa [String.toList_ofList] at spelled) (free k)

/-- No lexeme at the front of a source goes further than its piece. -/
theorem Lexeme.reaches {text : List Char} {role : Role} (h : Lexeme text role) {c : Char}
    {cs : List Char} (closed : ∀ cause, ¬Unclosed (c :: cs) cause) (front : text <+: c :: cs) :
    Reaches (cut c cs) text role := by
  cases h with
  | mark p => exact mark_reaches p closed front
  | reserved k =>
    obtain ⟨d, ds, spelled, hd, hds, kind⟩ := keyword_word k
    rw [spelled] at front ⊢
    obtain ⟨rest, he⟩ := front
    obtain ⟨rfl, rfl⟩ := List.cons.inj he
    rw [cut_word hd, ← kind]
    exact word_reaches d hds rest
  | identifier hc hcs free =>
    obtain ⟨rest, he⟩ := front
    obtain ⟨rfl, rfl⟩ := List.cons.inj he
    rw [cut_word hc, ← wordKind_of_free free]
    exact word_reaches _ hcs rest
  | blank hc =>
    obtain ⟨rest, he⟩ := front
    obtain ⟨rfl, rfl⟩ := List.cons.inj he
    rw [cut_blank hc]
    exact ⟨⟨[], rfl⟩, fun _ => rfl, by simp⟩
  | lineComment inside =>
    obtain ⟨rest, he⟩ := front
    obtain ⟨rfl, rfl⟩ := List.cons.inj he
    exact lineComment_reaches inside rest
  | blockComment first =>
    obtain ⟨rest, he⟩ := front
    obtain ⟨rfl, rfl⟩ := List.cons.inj he
    exact blockComment_reaches first rest
  | whole hd hds =>
    obtain ⟨rest, he⟩ := front
    obtain ⟨rfl, rfl⟩ := List.cons.inj he
    rw [cut_digit hd]
    exact whole_reaches _ hds rest
  | decimal hd hds he hes =>
    obtain ⟨rest, he'⟩ := front
    obtain ⟨rfl, rfl⟩ := List.cons.inj he'
    rw [cut_digit hd]
    exact decimal_reaches _ hds he hes rest
  | string inside =>
    obtain ⟨rest, he⟩ := front
    obtain ⟨rfl, rfl⟩ := List.cons.inj he
    exact string_reaches inside rest

end Longest

end Scan

end Lox
