/-
# Programs one after the other

Declarations can be put one after the other, since none begins with an `else`. So the tokens of two
programs, without the end of the first, are parsed into the trees of the one and then those of the
other, up to node numbers (`parse_sequence`). The second need not follow the grammar: behind the
declarations of the first the parser is between two declarations, and whatever comes there is
parsed with the errors and trees it has on its own (`parse_prefix`).
-/

import Lox.Proofs.Grammar.Accepted
import Lox.Proofs.Grammar.Afresh

namespace Lox
namespace Grammar

open Derives

/-- Declarations put one after the other are declarations. -/
theorem Derives.Declarations.append {nearest : Bool} {arity d : Nat} {ts ts' : List Token}
    {ss ss' : List Stmt} (h' : Declarations nearest arity d ts' ss')
    (h : Declarations nearest arity d ts ss) :
    Declarations nearest arity d (ts ++ ts') (ss ++ ss') := by
  induction ss generalizing ts with
  | nil =>
    cases h
    exact h'
  | cons s ss ih =>
    cases h with
    | cons hs hss =>
      rw [List.append_assoc]
      exact .cons hs (ih hss)

/-- **Programs can be put one after the other.** -/
theorem parse_sequence {ts ts' : List Token} {eof eof' : Token}
    (hts : ∀ t ∈ ts, t.kind ≠ .endOfInput) (heof : eof.kind = .endOfInput)
    (hts' : ∀ t ∈ ts', t.kind ≠ .endOfInput) (heof' : eof'.kind = .endOfInput) {n n' : NodeId}
    (h : (parse (ts ++ [eof]) n).errors = []) (h' : (parse (ts' ++ [eof']) n').errors = [])
    (k : NodeId) :
    (parse (ts ++ ts' ++ [eof']) k).errors = [] ∧
      Stmt.AlikeList Eq AnyNumber ((parse (ts ++ [eof]) n).tree ++ (parse (ts' ++ [eof']) n').tree)
        (parse (ts ++ ts' ++ [eof']) k).tree := by
  have both := (program_of_parse hts' heof' h').append (program_of_parse hts heof h)
  obtain ⟨errors, tree⟩ := parse_of_program (n := k) heof' both
  refine ⟨errors, .of_erase ?_⟩
  rw [Stmt.eraseList_eq_map, Stmt.eraseList_eq_map, tree, List.map_append]

/-- Behind declarations that the rules derive the parser is between two declarations, if no `else`
follows. -/
theorem between_of_declarations {tokens rest : List Token} {k : NodeId} (hr : NoElse rest) :
    ∀ {d ts ss}, Declarations true maxArity d ts ss → d ≤ maxNesting →
      ∀ {found n errors}, Between tokens k found ⟨ts ++ rest, 0, n, errors⟩ →
        ∃ more n', Between tokens k (found ++ more) ⟨rest, 0, n', errors⟩ ∧
          more.map Stmt.erase = ss
  | _, _, _, .nil, _, found, n, errors, h => ⟨[], n, (List.append_nil found).symm ▸ h, rfl⟩
  | d, _, _, @Declarations.cons _ _ _ ts _ ts' _ hdecl hmore, hd, found, n, errors, h => by
    rw [List.append_assoc] at h
    have depth : 0 + d ≤ maxNesting := by omega
    obtain ⟨first, n₁, hn₁, hfirst⟩ := declaration_reads hdecl (fuelFor_enough ts (ts' ++ rest))
      depth (declarations_noElse hmore hr) n errors
    obtain ⟨s, rfl, rfl⟩ := Option.map_eq_some_iff.1 hfirst
    obtain ⟨more, n', between, rfl⟩ :=
      between_of_declarations hr hmore hd (h.next (not_atEnd_of_declaration hdecl) hn₁)
    exact ⟨s :: more, n', by simpa using between, rfl⟩

/-- What is parsed without an error and holds no end of input follows the rules as a whole. -/
theorem program_of_whole_parse {ts : List Token} {n : NodeId}
    (hts : ∀ t ∈ ts, t.kind ≠ .endOfInput) (h : (parse ts n).errors = []) :
    Program ts ((parse ts n).tree.map Stmt.erase) := by
  obtain ⟨ss, s, hd⟩ := declarations_returns ts.length (.start ts n)
  rw [parse_eq hd] at h ⊢
  obtain ⟨ts₁, hrest, hend, hderiv⟩ :=
    declarations_sound _ hd (congrArg List.length h) (Nat.le_refl _)
  have empty : s.rest = [] := by
    by_contra hne
    obtain ⟨t, r, hr⟩ := List.exists_cons_of_ne_nil hne
    have read : ts = ts₁ ++ t :: r := hrest.trans (congrArg (ts₁ ++ ·) hr)
    rw [State.atEnd, State.next, hr, List.headD_cons, Kind.same_iff_eq rfl] at hend
    exact hts t (read ▸ by simp) hend
  have read : ts = ts₁ := hrest.trans (by rw [empty, List.append_nil])
  exact read ▸ hderiv

/-- **What comes before a program without errors makes no difference to it.** Tokens that parse
without an error on their own can be put before any others that do not begin with an `else`: the
trees are those of the one and then those of the others, up to node numbers, and the errors those of
the others. -/
theorem parse_prefix {ts ts' : List Token} (hts : ∀ t ∈ ts, t.kind ≠ .endOfInput) {n : NodeId}
    (h : (parse ts n).errors = []) (helse : NoElse ts') (n' k : NodeId) :
    (parse (ts ++ ts') k).errors = (parse ts' n').errors ∧
      Stmt.AlikeList Eq AnyNumber (parse (ts ++ ts') k).tree
        ((parse ts n).tree ++ (parse ts' n').tree) := by
  obtain ⟨found, m, between, same⟩ :=
    between_of_declarations helse (program_of_whole_parse hts h) (Nat.le_refl _)
      (@Between.start (ts ++ ts') k)
  obtain ⟨errors, more, tree, alike⟩ := between.parse_eq n'
  have first : Stmt.AlikeList Eq AnyNumber found (parse ts n).tree := by
    refine .of_erase ?_
    rw [Stmt.eraseList_eq_map, Stmt.eraseList_eq_map, same]
  rw [tree]
  exact ⟨errors, first.append alike⟩

/-- The tokens of `if (a) b;`, which an `else` could go on. -/
def openBranch : List Token :=
  [⟨.keyword .if_, "if", 1⟩, ⟨.punct .leftParen, "(", 1⟩, ⟨.identifier, "a", 1⟩,
    ⟨.punct .rightParen, ")", 1⟩, ⟨.identifier, "b", 1⟩, ⟨.punct .semicolon, ";", 1⟩]

/-- The tokens of `} c; print`, which end in the middle of a statement. -/
def strayBrace : List Token :=
  [⟨.punct .rightBrace, "\x7d", 1⟩, ⟨.identifier, "c", 1⟩, ⟨.punct .semicolon, ";", 1⟩,
    ⟨.keyword .print_, "print", 1⟩]

/-- A program that resynchronises at once has its own two errors behind a branch that is open to an
`else`. -/
theorem parse_openBranch_strayBrace : (∀ t ∈ openBranch, t.kind ≠ .endOfInput) ∧
    (parse openBranch 0).errors = [] ∧ NoElse strayBrace ∧
    (parse (openBranch ++ strayBrace) 7).errors = (parse strayBrace 4).errors ∧
    Stmt.AlikeList Eq AnyNumber (parse (openBranch ++ strayBrace) 7).tree
      ((parse openBranch 0).tree ++ (parse strayBrace 4).tree) := by
  have inner : ∀ t ∈ openBranch, t.kind ≠ .endOfInput := by decide
  have accepted : (parse openBranch 0).errors = [] := by decide +kernel
  have noElse : NoElse strayBrace := by
    rintro t r ⟨⟩
    decide
  exact ⟨inner, accepted, noElse, parse_prefix inner accepted noElse 4 7⟩

end Grammar
end Lox
