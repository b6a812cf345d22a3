/-
# Sources one below the other

No piece but a comment between `/*` and `*/` and a string goes on over a newline, and these go on to
where they are closed. So the pieces of a source that nothing is wrong with are the same when a
newline and other text follow it (`cut_newline`): the tokens of the whole are those of the one and
then those of the other, as far down as it begins (`tokens_newline`). Lines before a source move its
tokens down and do nothing else (`tokens_belowLines`).
-/

import Lox.Proofs.Token.Lexeme

namespace Lox

/-- The token so many lines further down. -/
def Token.moved (lines : Nat) (t : Token) : Token := { t with line := t.line + lines }

namespace Scan

/-- The piece with more of the source behind it. -/
def Piece.before (more : List Char) (p : Piece) : Piece := { p with rest := p.rest ++ more }

/-- Nothing is wrong with the piece. -/
def Piece.Sound (p : Piece) : Prop := ∀ cause, p.role ≠ .fault cause

section Cut

/-- A run that no newline belongs to ends before the newline at the latest. -/
theorem takeWhile_newline {p : Char → Bool} (hp : p '\n' = false) (cs q : List Char) :
    (cs ++ '\n' :: q).takeWhile p = cs.takeWhile p := by
  induction cs with
  | nil => simp [hp]
  | cons c cs ih => simp only [List.cons_append, List.takeWhile_cons, ih]

/-- What follows such a run ends in what was added behind the newline. -/
theorem dropWhile_newline {p : Char → Bool} (hp : p '\n' = false) (cs q : List Char) :
    (cs ++ '\n' :: q).dropWhile p = cs.dropWhile p ++ '\n' :: q := by
  induction cs with
  | nil => simp [hp]
  | cons c cs ih =>
    simp only [List.cons_append, List.dropWhile_cons, ih]
    split <;> rfl

/-- A comment that is closed is closed at the same place with more behind it. -/
theorem closeComment_more {cs inside rest : List Char}
    (h : closeComment cs = some (inside, rest)) (more : List Char) :
    closeComment (cs ++ more) = some (inside, rest ++ more) := by
  obtain ⟨body, rfl, first⟩ := first_of_closeComment h
  rw [← append_of_closeComment h]
  simpa using closeComment_append first (rest ++ more)

/-- Where a run of characters stops, it stops when there is more behind. -/
theorem dropWhile_more {p : Char → Bool} {d : Char} {cs rest : List Char}
    (h : cs.dropWhile p = d :: rest) (more : List Char) :
    (cs ++ more).takeWhile p = cs.takeWhile p ∧ (cs ++ more).dropWhile p = d :: rest ++ more := by
  induction cs with
  | nil => cases h
  | cons c cs ih =>
    rw [List.dropWhile_cons] at h
    simp only [List.cons_append, List.takeWhile_cons, List.dropWhile_cons]
    split at h
    · rw [(ih h).1, (ih h).2]
      simp_all
    · simp_all

/-- A text that does not begin with the character does not when a newline follows it. -/
theorem append_newline_ne {c : Char} (hc : c ≠ '\n') {cs : List Char}
    (h : ∀ rest, cs ≠ c :: rest) (q rest : List Char) : cs ++ '\n' :: q ≠ c :: rest := by
  cases cs with
  | nil => exact fun he => hc (List.cons.inj he).1.symm
  | cons d ds =>
    intro he
    exact h ds (by rw [(List.cons.inj he).1])

variable (cs q : List Char)

theorem markOrEqual_newline (c : Char) (short long : Punct) :
    markOrEqual c short long (cs ++ '\n' :: q) =
      (markOrEqual c short long cs).before ('\n' :: q) := by
  fun_cases markOrEqual c short long cs with
  | case1 rest => rfl
  | case2 _ h => exact markOrEqual.eq_2 _ _ _ _ (append_newline_ne (by decide) h q)

/-- A slash or comment that is no fault is the same with a newline and more behind it. -/
theorem slash_newline (h : (slash cs).Sound) :
    slash (cs ++ '\n' :: q) = (slash cs).before ('\n' :: q) := by
  fun_cases slash cs with
  | case1 cs =>
    simp only [List.cons_append, slash, takeWhile_newline (p := (· != '\n')) rfl,
      dropWhile_newline (p := (· != '\n')) rfl]
    rfl
  | case2 cs inside rest hc =>
    rw [List.cons_append, slash, closeComment_more hc]
    rfl
  | case3 cs hc => exact absurd (by rw [slash, hc]) (h .unterminatedComment)
  | case4 _ hslash hstar =>
    exact slash.eq_3 _ (append_newline_ne (by decide) hslash q)
      (append_newline_ne (by decide) hstar q)

/-- A string that is no fault is the same with a newline and more behind it. -/
theorem string_newline (h : (string cs).Sound) :
    string (cs ++ '\n' :: q) = (string cs).before ('\n' :: q) := by
  unfold string at h ⊢
  cases hd : cs.dropWhile (· != '"') with
  | nil =>
    rw [hd] at h
    exact absurd rfl (h .unterminatedString)
  | cons d rest =>
    obtain ⟨ht, hr⟩ := dropWhile_more hd ('\n' :: q)
    rw [ht, hr]
    rfl

/-- A fraction does not go on behind a newline. -/
theorem fraction_newline : fraction (cs ++ '\n' :: q) =
    ((fraction cs).1, (fraction cs).2 ++ '\n' :: q) := by
  fun_cases fraction cs with
  | case1 d cs hd =>
    simp only [List.cons_append, fraction, hd, if_true, takeWhile_newline (p := Char.isDigit) rfl,
      dropWhile_newline (p := Char.isDigit) rfl]
  | case2 d cs hd => simp [fraction, hd]
  | case3 _ h =>
    -- A point right before the newline is the one that is not followed by what it was.
    by_cases hp : cs = ['.']
    · subst hp
      rfl
    · refine fraction.eq_2 _ fun d rest he => ?_
      cases cs with
      | nil => cases he
      | cons c cs =>
        cases cs with
        | nil => exact hp (by rw [(List.cons.inj he).1])
        | cons e cs => exact h e cs (by rw [(List.cons.inj he).1])

theorem number_newline (d : Char) :
    number d (cs ++ '\n' :: q) = (number d cs).before ('\n' :: q) := by
  simp only [number, takeWhile_newline (p := Char.isDigit) rfl,
    dropWhile_newline (p := Char.isDigit) rfl, fraction_newline]
  rfl

theorem word_newline (c : Char) : word c (cs ++ '\n' :: q) = (word c cs).before ('\n' :: q) := by
  simp only [word, takeWhile_newline (p := isNamePart) rfl, dropWhile_newline (p := isNamePart) rfl]
  rfl

/-- **Pieces end at a newline**, or before it, or where they are closed. -/
theorem cut_newline (c : Char) (h : (cut c cs).Sound) :
    cut c (cs ++ '\n' :: q) = (cut c cs).before ('\n' :: q) := by
  by_cases hb : isBlank c = true
  · rw [cut_blank hb, cut_blank hb]
    rfl
  by_cases hs : c = '/'
  · subst hs
    exact slash_newline cs q h
  by_cases hq : c = '"'
  · subst hq
    exact string_newline cs q h
  by_cases hd : c.isDigit = true
  · rw [cut_digit hd, cut_digit hd]
    exact number_newline cs q c
  by_cases hn : isNameStart c = true
  · rw [cut_word hn, cut_word hn]
    exact word_newline cs q c
  cases hl : lone? c with
  | some p =>
    rw [cut_lone hl, cut_lone hl]
    rfl
  | none =>
    cases he : extensible? c with
    | some marks =>
      rw [cut_extensible he, cut_extensible he]
      exact markOrEqual_newline cs q c _ _
    | none =>
      refine absurd ?_ (h (.unexpected c))
      simp [cut, hb, hs, hq, hd, hn, hl, he]

end Cut

/-! ## Items -/

/-- The items of a source that nothing is wrong with are items of the source when another one
follows on the next line. The end of the input is that of the other. -/
theorem items_newline (line : Nat) (cs q : List Char) (h : ∀ e, .error e ∉ items line cs) :
    ∃ before, items line cs = before ++ [.ok (Token.endOfInput (line + cs.count '\n'))] ∧
      items line (cs ++ '\n' :: q) = before ++ items (line + cs.count '\n' + 1) q := by
  have lines : ∀ line c cs, line + (c :: cs).count '\n' =
      line + (cut c cs).text.count '\n' + (cut c cs).rest.count '\n' := by
    intro line c cs
    rw [Nat.add_assoc, ← List.count_append, cut_text_append_rest]
  fun_induction items line cs with
  | case1 line =>
    refine ⟨[], rfl, ?_⟩
    rw [List.nil_append, items, cut_blank rfl]
    rfl
  | case2 line c cs piece line' hrole ih =>
    have sound : piece.Sound := by simp [Piece.Sound, hrole]
    obtain ⟨before, hb, hq⟩ := ih h
    refine ⟨before, by rw [hb, lines], ?_⟩
    rw [List.cons_append, items, cut_newline _ _ _ sound, lines]
    simp only [Piece.before]
    rw [hrole]
    exact hq
  | case3 line c cs piece line' kind hrole ih =>
    have sound : piece.Sound := by simp [Piece.Sound, hrole]
    obtain ⟨before, hb, hq⟩ := ih fun e he => h e (List.mem_cons_of_mem _ he)
    refine ⟨_ :: before, by rw [hb, lines]; rfl, ?_⟩
    rw [List.cons_append, items, cut_newline _ _ _ sound, lines]
    simp only [Piece.before]
    rw [hrole]
    exact congrArg (_ :: ·) hq
  | case4 line c cs piece line' cause hrole ih => exact absurd (List.mem_cons_self ..) (h _)

/-- The item so many lines further down. -/
def movedItem (lines : Nat) : Except LexicalError Token → Except LexicalError Token
  | .ok t => .ok (t.moved lines)
  | .error e => .error { e with line := e.line + lines }

/-- On a line that many further down the pieces are the same, that many lines further down. -/
theorem items_moved (line k : Nat) (cs : List Char) :
    items (line + k) cs = (items line cs).map (movedItem k) := by
  fun_induction items line cs with
  | case1 line => rw [items]; rfl
  | case2 line c cs piece line' hrole ih =>
    rw [items, hrole, ← ih, Nat.add_right_comm]
  | case3 line c cs piece line' kind hrole ih =>
    rw [items, hrole, List.map_cons, ← ih, Nat.add_right_comm]
    rfl
  | case4 line c cs piece line' cause hrole ih =>
    rw [items, hrole, List.map_cons, ← ih, Nat.add_right_comm]
    rfl

/-- Newlines in front only move the line on. -/
theorem items_replicate (line k : Nat) (cs : List Char) :
    items line (List.replicate k '\n' ++ cs) = items (line + k) cs := by
  induction k generalizing line with
  | zero => rfl
  | succ k ih =>
    rw [List.replicate_succ, List.cons_append, items, cut_blank rfl]
    exact (ih (line + 1)).trans (by rw [Nat.add_right_comm, Nat.add_assoc])

end Scan

/-! ## Sources -/

/-- A source so many lines further down. -/
def belowLines (lines : Nat) (source : String) : String :=
  String.ofList (List.replicate lines '\n') ++ source

theorem belowLines_zero (source : String) : belowLines 0 source = source := by
  rw [belowLines, List.replicate_zero, String.ofList_nil, String.empty_append]

/-- The lines that a source takes up. -/
def lineCount (source : String) : Nat := 1 + source.toList.count '\n'

/-- Newlines in front of a source are scanned by counting them. -/
theorem scan_belowLines (k : Nat) (source : String) :
    scan (belowLines k source) = Scan.items (1 + k) source.toList := by
  rw [scan, belowLines, String.toList_append, String.toList_ofList, Scan.items_replicate]

/-- What is scanned below some lines is what is scanned without them, moved down by as many. -/
theorem scan_belowLines_moved (k : Nat) (source : String) :
    scan (belowLines k source) = (scan source).map (Scan.movedItem k) := by
  rw [scan_belowLines, Scan.items_moved, scan]

/-- Lines before a source move its tokens down. -/
theorem tokens_belowLines (k : Nat) (source : String) :
    tokens (belowLines k source) = (tokens source).map (Token.moved k) := by
  rw [tokens, tokens, scan_belowLines_moved, List.filterMap_map, List.map_filterMap]
  congr 1
  funext item
  cases item <;> rfl

/-- Newlines in front of a source bring no fault. -/
theorem lexicalErrors_belowLines (k : Nat) {source : String} (h : lexicalErrors source = []) :
    lexicalErrors (belowLines k source) = [] := by
  rw [lexicalErrors, List.filterMap_eq_nil_iff] at h ⊢
  rw [scan_belowLines_moved]
  intro moved hm
  obtain ⟨item, hi, rfl⟩ := List.mem_map.1 hm
  cases item with
  | ok t => rfl
  | error e => cases h _ hi

/-- A source on the lines after another one. -/
theorem scan_newline {source : String} (h : lexicalErrors source = []) (next : String) :
    ∃ before, scan source = before ++ [.ok (Token.endOfInput (lineCount source))] ∧
      scan (source ++ "\n" ++ next) = before ++ scan (belowLines (lineCount source) next) := by
  have sound : ∀ e, .error e ∉ Scan.items 1 source.toList := by
    intro e he
    rw [lexicalErrors, List.filterMap_eq_nil_iff] at h
    cases h _ he
  obtain ⟨before, hb, hn⟩ := Scan.items_newline 1 source.toList next.toList sound
  refine ⟨before, hb, ?_⟩
  rw [scan_belowLines, lineCount, Nat.add_comm 1]
  rw [scan, String.toList_append, String.toList_append, List.append_assoc]
  exact hn

/-- **The tokens of two sources, one below the other**, are those of the one, but for its end, and
then those of the other. -/
theorem tokens_newline {source : String} (h : lexicalErrors source = []) (next : String) :
    ∃ before last, tokens source = before ++ [Token.endOfInput last] ∧
      tokens (source ++ "\n" ++ next) = before ++ tokens (belowLines (lineCount source) next) := by
  obtain ⟨before, hb, hn⟩ := scan_newline h next
  refine ⟨before.filterMap fun item => item.toOption, lineCount source, ?_, ?_⟩
  · rw [tokens, hb, List.filterMap_append]
    rfl
  · rw [tokens, tokens, hn, List.filterMap_append]

/-- Two sources without a fault have none when one stands below the other. -/
theorem lexicalErrors_newline {source next : String} (h : lexicalErrors source = [])
    (hn : lexicalErrors (belowLines (lineCount source) next) = []) :
    lexicalErrors (source ++ "\n" ++ next) = [] := by
  obtain ⟨before, hb, hj⟩ := scan_newline h next
  rw [lexicalErrors, hb, List.filterMap_append, List.append_eq_nil_iff] at h
  rw [lexicalErrors, hj, List.filterMap_append, List.append_eq_nil_iff]
  exact ⟨h.1, hn⟩

end Lox
