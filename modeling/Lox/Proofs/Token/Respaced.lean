/-
# Lexemes a space apart

A source may be written again as the lexemes of its tokens with one space between each two
(`respaced`), its comments, line breaks and stray characters dropped. No token lexeme goes on over
a space, and none ends before one or before the end of the source (`Lexeme.cut_gap`, one lemma for
each class of tokens): so the pieces of the new source are these lexemes and the spaces between
them (`divides_spaced`), whatever the lexemes are next to each other and whatever the strings among
them hold. What a piece yields but for its line is its `Token.face`, and spaces have none.
-/

import Lox.Proofs.Token.LongestMatch

namespace Lox

/-- What a token is, literal included, and its lexeme: all but the line. -/
def Token.face (t : Token) : Kind × String := (t.kind, t.lexeme)

/-- The lexemes of the tokens before the end of a source, one space between each two. -/
def respaced (source : String) : String :=
  " ".intercalate (((tokens source).filter (·.kind ≠ .endOfInput)).map (·.lexeme))

namespace Scan

/-- What follows a lexeme of a respaced source: a space, or nothing. -/
inductive Gap : List Char → Prop
  | done : Gap []
  | space (more : List Char) : Gap (' ' :: more)

section Cut

variable {rest : List Char} (gap : Gap rest)
include gap

/-- A run that no space belongs to ends before a gap. -/
theorem Gap.takeWhile {p : Char → Bool} (outside : p ' ' = false) {run : List Char}
    (inside : ∀ c ∈ run, p c = true) : (run ++ rest).takeWhile p = run := by
  rw [List.takeWhile_append_of_pos inside]
  cases gap with
  | done => simp
  | space more => simp [outside]

/-- Behind such a run follows the gap. -/
theorem Gap.dropWhile {p : Char → Bool} (outside : p ' ' = false) {run : List Char}
    (inside : ∀ c ∈ run, p c = true) : (run ++ rest).dropWhile p = rest := by
  rw [List.dropWhile_append_of_pos inside]
  cases gap with
  | done => rfl
  | space more => simp [outside]

/-- A mark before a space is not made longer, and a slash there opens no comment. -/
theorem mark_gap (p : Punct) {c : Char} {text : List Char} (h : p.spelling.toList = c :: text) :
    cut c (text ++ rest) = ⟨c :: text, .token (.punct p), rest⟩ := by
  cases gap <;> cases p <;> cases h <;> rfl

/-- A word before a gap is cut as it is. -/
theorem word_gap (c : Char) {text : List Char} (inside : ∀ d ∈ text, isNamePart d = true) :
    word c (text ++ rest) = ⟨c :: text, .token (wordKind (c :: text)), rest⟩ := by
  rw [word, gap.takeWhile rfl inside, gap.dropWhile rfl inside]

/-- No fraction begins at a gap. -/
theorem Gap.fraction : fraction rest = ([], rest) := by
  cases gap <;> rfl

/-- A run of digits before a gap is cut as a number. -/
theorem whole_gap (d : Char) {ds : List Char} (hds : ∀ c ∈ ds, c.isDigit = true) :
    number d (ds ++ rest)
      = ⟨d :: ds, .token (.number (Number.ofNumeral (d :: ds) [])), rest⟩ := by
  rw [number, gap.takeWhile rfl hds, gap.dropWhile rfl hds, gap.fraction]
  rfl

/-- A number with a fraction before a gap is cut as it is. -/
theorem decimal_gap (d : Char) {e : Char} {ds es : List Char} (hds : ∀ c ∈ ds, c.isDigit = true)
    (he : e.isDigit = true) (hes : ∀ c ∈ es, c.isDigit = true) :
    number d (ds ++ '.' :: e :: es ++ rest)
      = ⟨d :: (ds ++ '.' :: e :: es),
          .token (.number (Number.ofNumeral (d :: ds) (e :: es))), rest⟩ := by
  obtain ⟨take, drop⟩ := digits_point hds (e :: (es ++ rest))
  rw [List.append_assoc, List.cons_append, List.cons_append, number, take, drop]
  simp only [Scan.fraction, he, if_true, gap.takeWhile rfl hes, gap.dropWhile rfl hes]
  rfl

end Cut

/-- **A token lexeme is cut as it is** where a space or the end of the source follows it. -/
theorem Lexeme.cut_gap {c : Char} {text rest : List Char} {kind : Kind}
    (h : Lexeme (c :: text) (.token kind)) (gap : Gap rest) :
    cut c (text ++ rest) = ⟨c :: text, .token kind, rest⟩ := by
  generalize hw : c :: text = whole at h
  generalize hr : Role.token kind = role at h
  cases h with
  | blank _ => cases hr
  | lineComment _ => cases hr
  | blockComment _ => cases hr
  | mark p =>
    cases hr
    rw [← hw]
    exact mark_gap gap p hw.symm
  | whole hd hds =>
    cases hr
    cases hw
    rw [cut_digit hd, whole_gap gap _ hds]
  | decimal hd hds he hes =>
    cases hr
    cases hw
    rw [cut_digit hd, decimal_gap gap _ hds he hes]
  | string inside =>
    cases hr
    cases hw
    rw [cut_quote, string_exact inside]
  | reserved k =>
    cases hr
    obtain ⟨d, ds, spelled, hd, hds, kind⟩ := keyword_word k
    rw [spelled] at hw ⊢
    cases hw
    rw [cut_word hd, word_gap gap _ hds, kind]
  | identifier hc hcs free =>
    cases hr
    cases hw
    rw [cut_word hc, word_gap gap _ hcs, wordKind_of_free free]

/-! ## Pieces -/

section Pieces

/-- The token lexeme that a piece is. -/
def lexeme? : List Char × Role → Option (List Char × Kind)
  | (text, .token kind) => some (text, kind)
  | _ => none

/-- The pieces that are the lexemes, with a space between each two. -/
def spaced (lexemes : List (List Char × Kind)) : List (List Char × Role) :=
  (lexemes.map fun l => (l.1, Role.token l.2)).intersperse ([' '], .skipped)

theorem spaced_cons_cons (l m : List Char × Kind) (lexemes : List (List Char × Kind)) :
    spaced (l :: m :: lexemes)
      = (l.1, .token l.2) :: ([' '], .skipped) :: spaced (m :: lexemes) := rfl

/-- The lexemes among spaced pieces are those that were spaced. -/
theorem lexeme?_spaced (lexemes : List (List Char × Kind)) :
    (spaced lexemes).filterMap lexeme? = lexemes := by
  induction lexemes with
  | nil => rfl
  | cons l lexemes ih =>
    cases lexemes with
    | nil => rfl
    | cons m lexemes =>
      rw [spaced_cons_cons]
      exact congrArg (l :: ·) ih

/-- No spaced piece is a fault. -/
theorem fault_notMem_spaced (lexemes : List (List Char × Kind)) {piece : List Char × Role}
    (h : piece ∈ spaced lexemes) (cause : LexicalCause) : piece.2 ≠ .fault cause := by
  induction lexemes with
  | nil => cases h
  | cons l lexemes ih =>
    cases lexemes with
    | nil =>
      rw [List.mem_singleton.1 h]
      nofun
    | cons m lexemes =>
      rw [spaced_cons_cons, List.mem_cons, List.mem_cons] at h
      obtain rfl | rfl | h := h
      · nofun
      · nofun
      · exact ih h

/-- A lexeme is not empty. -/
theorem Lexeme.ne_nil {text : List Char} {role : Role} (h : Lexeme text role) : text ≠ [] := by
  cases h with
  | mark p => cases p <;> exact List.cons_ne_nil _ _
  | reserved k => cases k <;> exact List.cons_ne_nil _ _
  | _ => exact List.cons_ne_nil _ _

/-- A lexeme before a gap is the first piece there. -/
theorem Lexeme.first_gap {text rest : List Char} {kind : Kind} (h : Lexeme text (.token kind))
    (gap : Gap rest) : First (text ++ rest) text (.token kind) := by
  obtain ⟨c, text, rfl⟩ := List.exists_cons_of_ne_nil h.ne_nil
  rw [List.cons_append, first_iff, h.cut_gap gap]
  exact ⟨rfl, rfl⟩

/-- A space is the first piece of what it begins. -/
theorem first_space (more : List Char) : First ([' '] ++ more) [' '] .skipped := by
  rw [List.singleton_append, first_iff, cut_blank rfl]
  exact ⟨rfl, rfl⟩

/-- **Lexemes a space apart are cut one by one**, and so are the spaces between them. -/
theorem divides_spaced (lexemes : List (List Char × Kind))
    (h : ∀ l ∈ lexemes, Lexeme l.1 (.token l.2)) :
    Divides ([' '].intercalate (lexemes.map (·.1))) (spaced lexemes) := by
  induction lexemes with
  | nil => exact .done
  | cons l lexemes ih =>
    obtain ⟨first, others⟩ := List.forall_mem_cons.1 h
    cases lexemes with
    | nil =>
      rw [List.map_singleton, List.intercalate_singleton, ← List.append_nil l.1]
      exact .piece first.ne_nil (first.first_gap .done) .done
    | cons m lexemes =>
      rw [List.map_cons, List.map_cons, List.intercalate_cons_cons, List.append_assoc]
      refine .piece first.ne_nil (first.first_gap (.space _)) ?_
      exact .piece (by simp) (first_space _) (ih others)

/-- A token that is a first piece is a lexeme. -/
theorem First.lexeme {source text : List Char} {kind : Kind}
    (h : First source text (.token kind)) : Lexeme text (.token kind) := by
  generalize hr : Role.token kind = role at h
  cases h with
  | unclosed _ => cases hr
  | longest _ lexeme _ _ => exact lexeme
  | stray _ _ _ => cases hr

/-- The token pieces of a source are lexemes. -/
theorem Divides.lexemes {source : List Char} {pieces : List (List Char × Role)}
    (h : Divides source pieces) :
    ∀ l ∈ pieces.filterMap lexeme?, Lexeme l.1 (.token l.2) := by
  intro l hl
  induction h with
  | done => cases hl
  | @piece text rest role pieces _ first _ ih =>
    cases role with
    | skipped => exact ih hl
    | fault cause => exact ih hl
    | token kind =>
      obtain rfl | hl := List.mem_cons.1 (hl : l ∈ (text, kind) :: pieces.filterMap lexeme?)
      · exact first.lexeme
      · exact ih hl

/-- Pieces yield the faces of their lexemes, whatever the line they start on. -/
theorem faces_yielded (line : Nat) (pieces : List (List Char × Role)) :
    ((yielded line pieces).filterMap fun item => item.toOption).map Token.face
      = (pieces.filterMap lexeme?).map fun l => (l.2, String.ofList l.1) := by
  induction pieces generalizing line with
  | nil => rfl
  | cons piece pieces ih =>
    obtain ⟨text, role⟩ := piece
    cases role with
    | skipped => exact ih _
    | fault cause => exact ih _
    | token kind => exact congrArg (_ :: ·) (ih _)

theorem yielded_ok {line : Nat} {pieces : List (List Char × Role)}
    (h : ∀ piece ∈ pieces, ∀ cause, piece.2 ≠ .fault cause) {e : LexicalError} :
    .error e ∉ yielded line pieces := by
  induction pieces generalizing line with
  | nil => exact List.not_mem_nil
  | cons piece pieces ih =>
    obtain ⟨sound, others⟩ := List.forall_mem_cons.1 h
    obtain ⟨text, role⟩ := piece
    cases role with
    | skipped => exact ih others
    | fault cause => exact absurd rfl (sound cause)
    | token kind =>
      rw [yielded, List.mem_cons, not_or]
      exact ⟨nofun, ih others⟩

end Pieces

end Scan

/-- A source has tokens with the faces of its pieces, then the end of the input. -/
theorem tokens_faces {source : String} {pieces : List (List Char × Scan.Role)}
    (h : Scan.Divides source.toList pieces) : ∃ before last,
      tokens source = before ++ [Token.endOfInput last] ∧
      (∀ t ∈ before, t.kind ≠ .endOfInput) ∧
      before.map Token.face
        = (pieces.filterMap Scan.lexeme?).map fun l => (l.2, String.ofList l.1) := by
  refine ⟨(Scan.yielded 1 pieces).filterMap fun item => item.toOption,
    1 + source.toList.count '\n', ?_, ?_, Scan.faces_yielded 1 pieces⟩
  · rw [tokens, scan, h.items, List.filterMap_append]
    rfl
  · intro t ht
    obtain ⟨item, hi, he⟩ := List.mem_filterMap.1 ht
    obtain _ | t' := item
    · cases he
    · cases he
      exact h.ne_endOfInput 1 hi

/-- A source respaced is its lexemes with a space between each two. -/
theorem toList_respaced {source : String} {pieces : List (List Char × Scan.Role)}
    (h : Scan.Divides source.toList pieces) :
    (respaced source).toList = [' '].intercalate ((pieces.filterMap Scan.lexeme?).map (·.1)) := by
  obtain ⟨before, last, ht, inner, faces⟩ := tokens_faces h
  have kept : (tokens source).filter (·.kind ≠ .endOfInput) = before := by
    rw [ht, List.filter_append, List.filter_eq_self.2 fun t hm => decide_eq_true (inner t hm)]
    exact List.append_nil _
  have texts : before.map (·.lexeme)
      = (pieces.filterMap Scan.lexeme?).map fun l => String.ofList l.1 := by
    have := congrArg (List.map Prod.snd) faces
    rwa [List.map_map, List.map_map] at this
  rw [respaced, kept, texts, String.toList_intercalate, List.map_map]
  congr 1
  exact List.map_congr_left fun l _ => String.toList_ofList

/-- **Rescanning is stable.** The lexemes of the tokens of a source, written with one space between
each two, scan without errors to tokens of the same kinds and literals with the same lexemes, end of
the input included; only the lines may differ. This holds of every source, also of one that has
errors: what is no token is not written again. -/
theorem tokens_respaced (source : String) :
    lexicalErrors (respaced source) = [] ∧
      (tokens (respaced source)).map Token.face = (tokens source).map Token.face := by
  obtain ⟨pieces, h⟩ := Scan.exists_divides source.toList
  have again : Scan.Divides (respaced source).toList
      (Scan.spaced (pieces.filterMap Scan.lexeme?)) :=
    toList_respaced h ▸ Scan.divides_spaced _ h.lexemes
  constructor
  · rw [lexicalErrors, List.filterMap_eq_nil_iff, scan, again.items]
    intro item hi
    obtain hi | hi := List.mem_append.1 hi
    · obtain e | t := item
      · exact absurd hi (Scan.yielded_ok fun piece hp => Scan.fault_notMem_spaced _ hp)
      · rfl
    · rw [List.mem_singleton.1 hi]
  · obtain ⟨before, last, ht, -, faces⟩ := tokens_faces h
    obtain ⟨before', last', ht', -, faces'⟩ := tokens_faces again
    rw [Scan.lexeme?_spaced, ← faces] at faces'
    rw [ht, ht', List.map_append, List.map_append, faces']
    rfl

example : respaced "1.2.x//é\n!==/ /\"a\n /*é\"class classy" =
    "1.2 . x != = / / \"a\n /*é\" class classy" := by decide +kernel

end Lox
