/-
# Longest match

The first piece of a source is all of it when it starts unclosed, else the longest front that is a
lexeme, else one character (`First`). A source is divided into first pieces (`Divides`) in one way
only, and `scan` yields what that division yields, then the end of the input. `Cursor` asks for the
same items one at a time.
-/

import Lox.Proofs.Token.Lexeme

namespace Lox

namespace Scan

/-- The first piece of a source, and what it is. -/
inductive First (source : List Char) : List Char → Role → Prop
  | unclosed {cause : LexicalCause} (starts : Unclosed source cause) :
    First source source (.fault cause)
  | longest {text : List Char} {role : Role} (closed : ∀ cause, ¬Unclosed source cause)
    (lexeme : Lexeme text role) (front : text <+: source)
    (longest : ∀ text' role', Lexeme text' role' → text' <+: source →
      text'.length ≤ text.length) :
    First source text role
  | stray {c : Char} {cs : List Char} (head : source = c :: cs)
    (closed : ∀ cause, ¬Unclosed source cause)
    (none : ∀ text role, Lexeme text role → ¬text <+: source) :
    First source [c] (.fault (.unexpected c))

/-- The pieces are cut from the source one after the other, each a first piece of what is left. -/
inductive Divides : List Char → List (List Char × Role) → Prop
  | done : Divides [] []
  | piece {text rest : List Char} {role : Role} {pieces : List (List Char × Role)}
    (some : text ≠ []) (first : First (text ++ rest) text role) (more : Divides rest pieces) :
    Divides (text ++ rest) ((text, role) :: pieces)

/-- What the pieces yield when the first of them starts on the given line. -/
def yielded (line : Nat) : List (List Char × Role) → List (Except LexicalError Token)
  | [] => []
  | (text, role) :: pieces =>
    let line := line + text.count '\n'
    match role with
    | .skipped => yielded line pieces
    | .token kind => .ok ⟨kind, String.ofList text, line⟩ :: yielded line pieces
    | .fault cause => .error ⟨cause, line⟩ :: yielded line pieces

section First

/-- The first piece is a prefix of the source. -/
theorem cut_text_front (c : Char) (cs : List Char) : (cut c cs).text <+: c :: cs :=
  ⟨_, cut_text_append_rest c cs⟩

/-- A source that starts neither unclosed nor with a lexeme starts with a stray character. -/
theorem cut_stray {c : Char} {cs : List Char} (closed : ∀ cause, ¬Unclosed (c :: cs) cause)
    (none : ∀ text role, Lexeme text role → ¬text <+: c :: cs) :
    (cut c cs).text = [c] ∧ (cut c cs).role = .fault (.unexpected c) := by
  have front := cut_text_front c cs
  generalize ht : (cut c cs).text = text
  generalize hr : (cut c cs).role = role
  have told := cut_told c cs
  rw [ht, hr] at told
  rw [ht] at front
  cases told with
  | lexeme h => exact absurd front (none _ _ h)
  | unclosed h => exact absurd h (closed _)
  | stray d =>
    obtain ⟨rfl, -⟩ := List.cons_prefix_cons.1 front
    exact ⟨rfl, rfl⟩

/-- The scanner cuts the longest lexeme at the front of a source. -/
theorem cut_lexeme {c : Char} {cs : List Char} (closed : ∀ cause, ¬Unclosed (c :: cs) cause)
    {text : List Char} {role : Role} (h : Lexeme text role) (front : text <+: c :: cs) :
    Lexeme (cut c cs).text (cut c cs).role := by
  have sound := (h.reaches closed front).sound
  generalize ht : (cut c cs).text = text'
  generalize hr : (cut c cs).role = role'
  have told := cut_told c cs
  rw [ht, hr] at told
  rw [hr] at sound
  cases told with
  | lexeme h => exact h
  | unclosed _ => exact absurd rfl (sound _)
  | stray _ => exact absurd rfl (sound _)

/-- **The scanner cuts the first piece of a source, and there is one only.** -/
theorem first_iff (c : Char) (cs text : List Char) (role : Role) :
    First (c :: cs) text role ↔ text = (cut c cs).text ∧ role = (cut c cs).role := by
  constructor
  · intro first
    cases first with
    | unclosed starts =>
      rw [starts.cut]
      exact ⟨rfl, rfl⟩
    | stray head closed none =>
      obtain ⟨rfl, rfl⟩ := List.cons.inj head
      obtain ⟨ht, hr⟩ := cut_stray closed none
      exact ⟨ht.symm, hr.symm⟩
    | longest closed lexeme front longest =>
      have reaches := lexeme.reaches closed front
      have le := longest _ _ (cut_lexeme closed lexeme front) (cut_text_front c cs)
      have same := reaches.front.eq_of_length_le le
      exact ⟨same, (reaches.role same.symm).symm⟩
  · rintro ⟨rfl, rfl⟩
    by_cases starts : ∃ cause, Unclosed (c :: cs) cause
    · obtain ⟨cause, starts⟩ := starts
      rw [starts.cut]
      exact .unclosed starts
    have closed : ∀ cause, ¬Unclosed (c :: cs) cause := not_exists.1 starts
    by_cases some : ∃ text role, Lexeme text role ∧ text <+: c :: cs
    · obtain ⟨text, role, lexeme, front⟩ := some
      refine .longest closed (cut_lexeme closed lexeme front) (cut_text_front c cs) ?_
      exact fun text' role' h front' => (h.reaches closed front').front.length_le
    · have none : ∀ text role, Lexeme text role → ¬text <+: c :: cs :=
        fun text role h front => some ⟨text, role, h, front⟩
      obtain ⟨ht, hr⟩ := cut_stray closed none
      rw [ht, hr]
      exact .stray rfl closed none

end First

section Division

/-- The first piece is not empty. -/
theorem cut_text_ne_nil (c : Char) (cs : List Char) : (cut c cs).text ≠ [] := by
  intro h
  have whole := congrArg List.length (cut_text_append_rest c cs)
  have shorter := cut_length c cs
  simp [h] at whole
  omega

/-- A first piece is the one the scanner cuts. -/
theorem First.cut {c : Char} {text rest : List Char} {role : Role}
    (h : First (c :: (text ++ rest)) (c :: text) role) :
    Scan.cut c (text ++ rest) = ⟨c :: text, role, rest⟩ := by
  obtain ⟨ht, hr⟩ := (first_iff c (text ++ rest) _ role).1 h
  have whole := cut_text_append_rest c (text ++ rest)
  generalize Scan.cut c (text ++ rest) = p at *
  obtain ⟨text', role', rest'⟩ := p
  obtain rfl : c :: text = text' := ht
  obtain rfl : role = role' := hr
  obtain rfl : rest' = rest := List.append_cancel_left whole
  rfl

/-- Every source can be divided into longest pieces. -/
theorem exists_divides : (cs : List Char) → ∃ pieces, Divides cs pieces
  | [] => ⟨[], .done⟩
  | c :: cs => by
    have shorter := cut_length c cs
    obtain ⟨pieces, more⟩ := exists_divides (cut c cs).rest
    have first := (first_iff c cs _ _).2 ⟨rfl, rfl⟩
    refine ⟨((cut c cs).text, (cut c cs).role) :: pieces, ?_⟩
    rw [← cut_text_append_rest c cs] at first ⊢
    exact .piece (cut_text_ne_nil c cs) first more
termination_by cs => cs.length

/-- A source is divided in one way only. -/
theorem Divides.unique {source : List Char} {pieces other : List (List Char × Role)}
    (h : Divides source pieces) (h' : Divides source other) : other = pieces := by
  induction h generalizing other with
  | done =>
    generalize hs : [] = source at h'
    cases h' with
    | done => rfl
    | piece some _ _ => exact absurd (List.append_eq_nil_iff.1 hs.symm).1 some
  | @piece text rest role pieces some first more ih =>
    generalize hs : text ++ rest = source at h' first
    cases h' with
    | done => exact absurd (List.append_eq_nil_iff.1 hs).1 some
    | @piece text' rest' role' pieces' some' first' more' =>
      obtain ⟨c, t, rfl⟩ := List.exists_cons_of_ne_nil some'
      obtain ⟨rfl, rfl⟩ := (first_iff c (t ++ rest') text role).1 first
      obtain ⟨ht, rfl⟩ := (first_iff c (t ++ rest') (c :: t) role').1 first'
      rw [← ht] at hs ⊢
      obtain rfl := List.append_cancel_left hs
      rw [ih more']

/-- The pieces of a division give the source back. -/
theorem Divides.flatMap {source : List Char} {pieces : List (List Char × Role)}
    (h : Divides source pieces) : pieces.flatMap (·.1) = source := by
  induction h with
  | done => rfl
  | piece _ _ _ ih => simp [ih]

/-- The items of a source are what its pieces yield, then the end of the input. -/
theorem Divides.items {source : List Char} {pieces : List (List Char × Role)}
    (h : Divides source pieces) (line : Nat) : Scan.items line source
      = yielded line pieces ++ [.ok (Token.endOfInput (line + source.count '\n'))] := by
  induction h generalizing line with
  | done => rw [Scan.items]; rfl
  | @piece text rest role pieces some first more ih =>
    obtain ⟨c, t, rfl⟩ := List.exists_cons_of_ne_nil some
    have lines : line + (c :: t ++ rest).count '\n'
        = line + (c :: t).count '\n' + rest.count '\n' := by
      rw [List.count_append, Nat.add_assoc]
    rw [List.cons_append] at first lines ⊢
    rw [Scan.items, first.cut, lines]
    cases role with
    | skipped => exact ih _
    | token kind => exact congrArg (_ :: ·) (ih _)
    | fault cause => exact congrArg (_ :: ·) (ih _)

/-- No piece of a source is an end of input. -/
theorem First.ne_endOfInput {source text : List Char} {kind : Kind}
    (h : First source text (.token kind)) : kind ≠ .endOfInput := by
  rintro rfl
  cases h with
  | longest _ lexeme _ _ => cases lexeme

/-- The pieces do not yield the end of the input. -/
theorem Divides.ne_endOfInput {source : List Char} {pieces : List (List Char × Role)}
    (h : Divides source pieces) (line : Nat) {t : Token} (ht : .ok t ∈ yielded line pieces) :
    t.kind ≠ .endOfInput := by
  induction h generalizing line with
  | done => cases ht
  | @piece text rest role pieces some first more ih =>
    cases role with
    | skipped => exact ih _ ht
    | token kind =>
      obtain h | h := List.mem_cons.1 ht
      · cases h
        exact first.ne_endOfInput
      · exact ih _ h
    | fault cause =>
      obtain h | h := List.mem_cons.1 ht
      · cases h
      · exact ih _ h

end Division

section Cursor

/-- Where a reader of the items stands: what is left of the source, until the end of the input has
been yielded, and the line. -/
structure Cursor where
  rest : Option (List Char)
  line : Nat

/-- The first item of what is left, and where the reader stands after it. -/
def advance (line : Nat) : List Char → Except LexicalError Token × Cursor
  | [] => (.ok (Token.endOfInput line), ⟨none, line⟩)
  | c :: cs =>
    let piece := cut c cs
    let line := line + piece.text.count '\n'
    match piece.role with
    | .skipped => advance line piece.rest
    | .token kind => (.ok ⟨kind, String.ofList piece.text, line⟩, ⟨some piece.rest, line⟩)
    | .fault cause => (.error ⟨cause, line⟩, ⟨some piece.rest, line⟩)
termination_by cs => cs.length
decreasing_by exact Nat.lt_succ_of_le (cut_length c cs)

namespace Cursor

/-- The reader before the first item of a source. -/
def start (source : String) : Cursor := ⟨some source.toList, 1⟩

/-- One request for an item: nothing once the end of the input has been yielded. -/
def next (k : Cursor) : Option (Except LexicalError Token) × Cursor :=
  match k.rest with
  | some cs => (advance k.line cs).map some id
  | none => (none, k)

/-- The answer to the request that follows `n` others. -/
def answer (k : Cursor) : Nat → Option (Except LexicalError Token)
  | 0 => k.next.1
  | n + 1 => k.next.2.answer n

/-- The items left at a cursor. -/
def left (k : Cursor) : List (Except LexicalError Token) :=
  match k.rest with
  | some cs => items k.line cs
  | none => []

/-- What the scanner still yields is its next answer and what it yields after it. -/
theorem left_some (line : Nat) (cs : List Char) :
    left ⟨some cs, line⟩ = (advance line cs).1 :: (advance line cs).2.left := by
  change items line cs = _
  fun_induction items line cs with
  | case1 line => rw [advance]; rfl
  | case2 line c cs piece line' hrole ih => rw [advance, hrole]; exact ih
  | case3 line c cs piece line' kind hrole ih => rw [advance, hrole]; rfl
  | case4 line c cs piece line' cause hrole ih => rw [advance, hrole]; rfl

/-- A reader gets the items that are left, one after the other. -/
theorem answer_eq (k : Cursor) (n : Nat) : k.answer n = k.left[n]? := by
  induction n generalizing k with
  | zero =>
    obtain ⟨_ | cs, line⟩ := k
    · rfl
    · rw [left_some]
      rfl
  | succ n ih =>
    obtain ⟨_ | cs, line⟩ := k
    · exact ih ⟨none, line⟩
    · rw [left_some]
      exact ih _

end Cursor

end Cursor

end Scan

/-- **The scanner is lossless and cuts the longest match.** A source is divided into first pieces
in one way, the pieces together are the source, and the items of the source are what the pieces
yield and then one end of the input; a reader that asks for items one by one gets these and then
nothing. -/
theorem scan_divides (source : String) : ∃ pieces,
    (∀ other, Scan.Divides source.toList other ↔ other = pieces) ∧
    pieces.flatMap (·.1) = source.toList ∧
    scan source = Scan.yielded 1 pieces
      ++ [.ok (Token.endOfInput (1 + source.toList.count '\n'))] ∧
    (∀ t, .ok t ∈ Scan.yielded 1 pieces → t.kind ≠ .endOfInput) ∧
    ∀ n, (Scan.Cursor.start source).answer n = (scan source)[n]? := by
  obtain ⟨pieces, h⟩ := Scan.exists_divides source.toList
  refine ⟨pieces, fun other => ⟨h.unique, fun e => e ▸ h⟩, h.flatMap, h.items 1, ?_, ?_⟩
  · exact fun t ht => h.ne_endOfInput 1 ht
  · exact Scan.Cursor.answer_eq _

end Lox
