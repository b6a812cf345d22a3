/-
# The parser accepts the language

A list of tokens that ends with its only end of input is parsed without an error if and only if the
rules derive the tokens before it within the limits of the language, and then the parser's tree is
the tree of the derivation up to node numbers (`parse_eq_iff_program`). Each token is read once, so
the parser's bounds on steps and on declarations are never what ends it.
-/

import Lox.Proofs.Grammar.Completeness.Statement
import Lox.Proofs.Grammar.NearestElse
import Lox.Proofs.Grammar.Soundness.Statement
import Lox.Proofs.Tree.Equality

namespace Lox
namespace Grammar

open Derives

/-! ## Where declarations end -/

section Last

variable {nearest : Bool} {arity : Nat}

/-- The kinds of token that a declaration ends with. -/
abbrev EndsDeclaration (t : Token) : Prop := Mark .semicolon t ∨ Mark .rightBrace t

/-- The last of the tokens ends a declaration. -/
abbrev LastEnds (ts : List Token) : Prop := ∃ t, ts.getLast? = some t ∧ EndsDeclaration t

/-- The last token of a statement ends a declaration. -/
theorem statement_last : ∀ {d o ts s}, Statement nearest arity d o ts s → LastEnds ts
  | _, _, _, _, .expression (.intro _ hsemi) => ⟨_, by simp [List.getLast?_cons], .inl hsemi⟩
  | _, _, _, _, .print _ _ hsemi => ⟨_, by simp [List.getLast?_cons], .inl hsemi⟩
  | _, _, _, _, .ret _ _ hsemi => ⟨_, by simp [List.getLast?_cons], .inl hsemi⟩
  | _, _, _, _, .block _ _ hrb => ⟨_, by simp [List.getLast?_cons], .inr hrb⟩
  | _, _, _, _, .whileLoop _ _ _ _ hs | _, _, _, _, .ifThen _ _ _ _ hs
  | _, _, _, _, .ifElse _ _ _ _ _ _ _ hs | _, _, _, _, .forLoop _ _ _ _ _ _ _ hs => by
    obtain ⟨t, ht, hend⟩ := statement_last hs
    exact ⟨t, by simp [List.getLast?_cons, ht], hend⟩

/-- The last token of a declaration ends one. -/
theorem declaration_last {d ts s} (h : Declaration nearest arity d ts s) : LastEnds ts := by
  cases h with
  | classDecl _ _ _ _ hrb => exact ⟨_, by simp [List.getLast?_cons], .inr hrb⟩
  | function _ h => cases h with
    | intro _ _ _ _ _ _ _ hrb => exact ⟨_, by simp [List.getLast?_cons], .inr hrb⟩
  | var h => cases h with
    | plain _ _ hsemi | initialized _ _ _ _ hsemi =>
      exact ⟨_, by simp [List.getLast?_cons], .inl hsemi⟩
  | statement h => exact statement_last h

/-- The last token of declarations ends one. -/
theorem declarations_last : ∀ {d ts ss t}, Declarations nearest arity d ts ss →
    ts.getLast? = some t → EndsDeclaration t
  | _, _, _, t, .nil, ht => by simp at ht
  | _, _, _, t, .cons h hmore, ht => by
    rw [List.getLast?_append] at ht
    cases hl : List.getLast? _ with
    | some t' =>
      rw [hl] at ht
      exact declarations_last hmore (hl.trans ht)
    | none =>
      obtain ⟨t', ht', hend⟩ := declaration_last h
      rw [hl, ht'] at ht
      exact Option.some.inj ht ▸ hend

end Last

/-! ## All declarations up to the end of the input -/

/-- If no error is noted on the way, the tokens that were read are declarations within the limits,
with the trees that were built, and the end of the input is reached. -/
theorem declarations_sound : ∀ limit {s ss s'}, declarations limit s = .ok ss s' →
    s'.errors.length = s.errors.length → s.rest.length ≤ limit →
    ∃ ts, s.rest = ts ++ s'.rest ∧ s'.atEnd = true ∧
      Declarations true maxArity (maxNesting - s.depth) ts (ss.map Stmt.erase)
  | 0, s, ss, s', h, _, hl => by
    obtain ⟨rfl, rfl⟩ := pure_eq_ok_iff.1 h
    have hrest : s.rest = [] := List.eq_nil_of_length_eq_zero (Nat.le_zero.1 hl)
    exact ⟨[], rfl, by simp [State.atEnd, State.next, hrest, Token.endOfInput, Kind.same], .nil⟩
  | limit + 1, s, ss, s', h, hq, hl => by
    unfold declarations at h
    rw [atEnd_bind] at h
    cases hend : s.atEnd with
    | true =>
      simp only [hend, if_true] at h
      obtain ⟨rfl, rfl⟩ := pure_eq_ok_iff.1 h
      exact ⟨[], rfl, hend, .nil⟩
    | false =>
      simp only [hend, Bool.false_eq_true, if_false, unread_bind] at h
      obtain ⟨found, s₁, h₁, h⟩ := bind_eq_ok_iff.1 h
      obtain ⟨more, s₂, h₂, h⟩ := bind_eq_ok_iff.1 h
      obtain ⟨rfl, rfl⟩ := pure_eq_ok_iff.1 h
      have l₁ := (statement_declaration_advances _).2.1.ok h₁
      have e₁ := l₁.errors.length_le
      have e₂ := ((declarations_advances limit).ok h₂).errors.length_le
      obtain ⟨ts, hts, a, rfl, hdecl⟩ := (statement_declaration_sound _).2.1 h₁ (by omega)
      have hpos := declaration_length hdecl
      rw [hts, List.length_append] at hl
      obtain ⟨ts', hts', hend', hmore⟩ := declarations_sound limit h₂ (by omega) (by omega)
      rw [l₁.depth] at hmore
      exact ⟨ts ++ ts', by rw [hts, hts', List.append_assoc], hend', .cons hdecl hmore⟩

/-- At the end of the input no declaration is read. -/
theorem declarations_end {limit depth eof} (heof : eof.kind = .endOfInput) :
    Reads (declarations (limit + 1)) (List.map Stmt.erase) depth [] [eof] [] := by
  intro n errors
  have hend : atEnd ⟨[eof], depth, n, errors⟩ = .ok true ⟨[eof], depth, n, errors⟩ := by
    simp only [atEnd, State.atEnd, State.next, List.headD_cons, (Kind.same_iff_eq rfl).2 heof]
  exact ⟨[], n, bind_of_ok hend, rfl⟩

/-- The parser's bound on steps is enough for any part of the input. -/
theorem fuelFor_enough (ts rest : List Token) :
    5 * ts.length + 1 ≤ fuelFor (ts ++ rest).length := by
  rw [fuelFor, List.length_append]
  omega

/-- Before the tokens of a declaration the input is not at its end. -/
theorem not_atEnd_of_declaration {d ts s rest depth n errors}
    (h : Declaration true maxArity d ts s) :
    State.atEnd ⟨ts ++ rest, depth, n, errors⟩ = false := by
  obtain ⟨t, r, rfl, ht⟩ := declaration_head h
  rw [Bool.eq_false_iff]
  exact fun hs => beginsDeclaration_ne ht rfl ((Kind.same_iff_eq rfl).1 hs)

/-- If one declaration can be read, and then the others with one of the bound less, all of them are
read. -/
theorem declarations_step {limit depth d ts ts' rest s ss} (hd : Declaration true maxArity d ts s)
    (hdepth : depth + d ≤ maxNesting) (hr : NoElse (ts' ++ rest))
    (h' : Reads (declarations limit) (List.map Stmt.erase) depth ts' rest ss) :
    Reads (declarations (limit + 1)) (List.map Stmt.erase) depth (ts ++ ts') rest (s :: ss) := by
  intro n errors
  obtain ⟨first, n₁, hn₁, hfirst⟩ :=
    declaration_reads hd (fuelFor_enough ts (ts' ++ rest)) hdepth hr n errors
  obtain ⟨more, n₂, hn₂, rfl⟩ := h' n₁ errors
  obtain ⟨s, rfl, rfl⟩ := Option.map_eq_some_iff.1 hfirst
  refine ⟨s :: more, n₂, ?_, rfl⟩
  rw [List.append_assoc]
  exact declarations_round (not_atEnd_of_declaration hd) hn₁ hn₂

/-- Declarations within the limits are read up to the end of the input, and give their trees. -/
theorem declarations_reads : ∀ {d ts ss}, Declarations true maxArity d ts ss → ∀ {eof},
    eof.kind = .endOfInput → ∀ {limit depth}, ts.length < limit → depth + d ≤ maxNesting →
    Reads (declarations limit) (List.map Stmt.erase) depth ts [eof] ss
  | _, _, _, .nil, eof, heof, limit + 1, depth, _, _ => declarations_end heof
  | _, _, _, .cons h hmore, eof, heof, limit + 1, depth, hl, hd => by
    have hpos := declaration_length h
    rw [List.length_append] at hl
    refine declarations_step h hd (declarations_noElse hmore ?_)
      (declarations_reads hmore heof (by omega) hd)
    rintro t r ⟨⟩
    rw [heof]
    decide

/-! ## Programs -/

section Programs

variable {ts : List Token} {eof : Token} {n : NodeId} {ss : List Stmt}

/-- Where reading ends at the end of the input, and before the last token, all the others were
read. -/
theorem eq_of_append_atEnd {ts₁ : List Token} {s : State} (hts : ∀ t ∈ ts, t.kind ≠ .endOfInput)
    (h : ts ++ [eof] = ts₁ ++ s.rest) (hs : s.atEnd = true) (hlast : ts₁ ≠ ts ++ [eof]) :
    ts₁ = ts := by
  rcases List.eq_nil_or_concat s.rest with hr | ⟨r, x, hr⟩
  · rw [hr, List.append_nil] at h
    exact absurd h.symm hlast
  · rw [hr, List.concat_eq_append, ← List.append_assoc] at h
    obtain ⟨rfl, rfl⟩ := List.append_singleton_inj.1 h
    cases r with
    | nil => rw [List.append_nil]
    | cons t r =>
      have hnext : s.next = t := by rw [State.next, hr]; rfl
      rw [State.atEnd, hnext, Kind.same_iff_eq rfl] at hs
      exact absurd hs (hts t (by simp))

/-- What is parsed without an error is a program, and the tree is its own up to node numbers. -/
theorem program_of_parse (hts : ∀ t ∈ ts, t.kind ≠ .endOfInput) (heof : eof.kind = .endOfInput)
    (h : (parse (ts ++ [eof]) n).errors = []) :
    Program ts ((parse (ts ++ [eof]) n).tree.map Stmt.erase) := by
  unfold parse at h ⊢
  cases hd : declarations (ts ++ [eof]).length (.start (ts ++ [eof]) n) with
  | error e s =>
    rw [hd] at h
    simp at h
  | ok found s =>
    rw [hd] at h
    obtain ⟨ts₁, hrest, hend, hderiv⟩ :=
      declarations_sound _ hd (congrArg List.length h) (Nat.le_refl _)
    have hlast : ts₁ ≠ ts ++ [eof] := by
      rintro rfl
      have := declarations_last hderiv (t := eof) (by simp)
      simp [EndsDeclaration, Mark, heof] at this
    obtain rfl := eq_of_append_atEnd hts hrest hend hlast
    exact hderiv

/-- A program is parsed without an error, to its own tree up to node numbers. -/
theorem parse_of_program (heof : eof.kind = .endOfInput) (h : Program ts ss) :
    (parse (ts ++ [eof]) n).errors = [] ∧ (parse (ts ++ [eof]) n).tree.map Stmt.erase = ss := by
  obtain ⟨found, n', hd, hss⟩ := declarations_reads h heof (by simp : _ < (ts ++ [eof]).length)
    (by omega : 0 + maxNesting ≤ _) n []
  unfold parse
  rw [State.start, hd]
  exact ⟨rfl, hss⟩

/-- **The parser accepts the language and builds its trees.** Of a list of tokens with the end of
the input as its last token and nowhere else, the parser reports no error if and only if the rules
derive the tokens before it within the limits on nesting and arity, each `else` with the nearest
`if`; the tree that it then returns is the one derived tree, up to node numbers. That an `else`
goes to the nearest `if` is a choice of tree only: without regard to nesting, the tokens that are
derived are those that the rules derive with any choice. -/
theorem parse_eq_iff_program (hts : ∀ t ∈ ts, t.kind ≠ .endOfInput)
    (heof : eof.kind = .endOfInput) (n : NodeId) :
    ((parse (ts ++ [eof]) n).errors = [] ↔ ∃ ss, Program ts ss) ∧
    (∀ ss, Program ts ss ↔ (parse (ts ++ [eof]) n).errors = [] ∧
      (parse (ts ++ [eof]) n).tree.map Stmt.erase = ss) ∧
    ((∃ d ss, Declarations true maxArity d ts ss) ↔
      ∃ d ss, Declarations false maxArity d ts ss) := by
  refine ⟨⟨?_, ?_⟩, fun ss => ⟨parse_of_program heof, ?_⟩, ?_⟩
  · exact fun h => ⟨_, program_of_parse hts heof h⟩
  · rintro ⟨ss, h⟩
    exact (parse_of_program heof h).1
  · rintro ⟨h, rfl⟩
    exact program_of_parse hts heof h
  · exact ⟨fun ⟨d, ss, h⟩ => ⟨d, ss, h.anyReading⟩, fun ⟨_, _, h⟩ => h.nearest⟩

end Programs

/-- The tokens of `if (a) if (b) c; else d;`, all on line 1. -/
def danglingElse : List Token :=
  [⟨.keyword .if_, "if", 1⟩, ⟨.punct .leftParen, "(", 1⟩, ⟨.identifier, "a", 1⟩,
    ⟨.punct .rightParen, ")", 1⟩, ⟨.keyword .if_, "if", 1⟩, ⟨.punct .leftParen, "(", 1⟩,
    ⟨.identifier, "b", 1⟩, ⟨.punct .rightParen, ")", 1⟩, ⟨.identifier, "c", 1⟩,
    ⟨.punct .semicolon, ";", 1⟩, ⟨.keyword .else_, "else", 1⟩, ⟨.identifier, "d", 1⟩,
    ⟨.punct .semicolon, ";", 1⟩]

/-- Of the two trees for an `else` behind two `if`s, the rules and the parser give the one with the
`else` on the second `if`. -/
theorem parse_danglingElse : (∀ t ∈ danglingElse, t.kind ≠ .endOfInput) ∧
    Program danglingElse
      [.branch (.ident 0 ⟨.identifier, "a", 1⟩)
        (.branch (.ident 0 ⟨.identifier, "b", 1⟩) (.expression (.ident 0 ⟨.identifier, "c", 1⟩))
          (some (.expression (.ident 0 ⟨.identifier, "d", 1⟩)))) none] := by
  have free : ∀ t ∈ danglingElse, t.kind ≠ .endOfInput := by decide
  refine ⟨free, ((parse_eq_iff_program free (Eq.refl (Token.endOfInput 1).kind) 0).2.1 _).2 ?_⟩
  constructor <;> decide +kernel

end Grammar
end Lox
