/-
# An expression by itself and in a statement

An expression is read by itself on the top level, up to the end of the input, and in a `print`
statement one level further down and up to the semicolon. Both readings end in the same place,
because an expression ends where nothing extends it, whatever level it stands on
(`Derives.Expression.unique`). So if both are free of errors, the statement prints the expression
(`parse_print`).
-/

import Lox.Proofs.Grammar.Accepted
import Lox.Proofs.Grammar.Nesting

namespace Lox
namespace Grammar

open Derives

/-- Of two expressions that the same tokens start with, one is the other, if what follows extends
neither. -/
theorem Derives.Expression.unique {d d' : Nat} {ts ts' rest rest' : List Token} {e e' : Expr}
    (h : Expression maxArity d ts e) (h' : Expression maxArity d' ts' e')
    (same : ts ++ rest = ts' ++ rest') (hd : d ≤ maxNesting) (hd' : d' ≤ maxNesting)
    (hr : Closed rest) (hr' : Closed rest') : ts' = ts ∧ rest' = rest ∧ e' = e := by
  -- The parser finds both, and it finds one only.
  let fuel := 2 * ts.length + 2 * ts'.length + 1
  have left : Reads (expression fuel) Expr.erase 0 ts rest e :=
    expression_reads h (by omega) (by omega) hr
  have right : Reads (expression fuel) Expr.erase 0 ts' rest' e' :=
    expression_reads h' (by omega) (by omega) hr'
  obtain ⟨a, n, ha, rfl⟩ := left 0 []
  obtain ⟨a', n', ha', rfl⟩ := right 0 []
  rw [← same, ha] at ha'
  cases ha'
  exact ⟨(List.append_cancel_right same).symm, rfl, rfl⟩

/-- Up to the end of an expression no end of input is read. -/
theorem expression_reaches {fuel : Nat} {s s' : State} {e : Expr}
    (h : expression fuel s = .ok e s') (hs : s.depth ≤ maxNesting) : s.Reaches s' := by
  have agree := Pairing.nested_agree (Pairing.unary_assignment_agree (P := shallow) fuel _).2 s s
    ⟨rfl, hs⟩ (Nat.lt_succ_self _)
  unfold expression at h
  rw [h] at agree
  cases agree with
  | ok _ reaches _ => exact reaches

/-- An expression that is read by itself without an error is made of all the tokens up to the end
of the input. -/
theorem expression_of_parseExpression {ts : List Token} {n : NodeId}
    (h : (parseExpression ts n).errors = []) : ∃ e, (parseExpression ts n).tree = some e ∧
      Expression maxArity maxNesting (inner ts) e.erase := by
  unfold parseExpression at h ⊢
  cases hs : soleExpression (.start ts n) with
  | error e s =>
    rw [hs] at h
    simp at h
  | ok e s =>
    rw [hs] at h
    refine ⟨e, rfl, ?_⟩
    unfold soleExpression at hs
    rw [unread_bind] at hs
    obtain ⟨e', s', he, hs⟩ := bind_eq_ok_iff.1 hs
    rw [atEnd_bind] at hs
    cases hend : s'.atEnd with
    | false =>
      rw [hend] at hs
      cases hs
    | true =>
      rw [hend] at hs
      obtain ⟨rfl, rfl⟩ := pure_eq_ok_iff.1 hs
      obtain ⟨ts', hts, hderiv⟩ := expression_sound _ he (congrArg List.length h)
      have read : inner ts = ts' := (expression_reaches he (Nat.zero_le _)).inner_eq hend hts
      exact read ▸ hderiv

/-- The program without tokens has no statements. -/
theorem eq_nil_of_program {tokens : List Token} {ss : List Stmt} (h : Program tokens ss)
    (hts : tokens = []) : ss = [] := by
  cases h with
  | nil => rfl
  | cons h _ =>
    have left := declaration_length h
    rw [(List.append_eq_nil_iff.1 hts).1] at left
    exact absurd left (Nat.lt_irrefl 0)

/-- A program that starts with `print` starts with a `print` statement. -/
theorem print_of_program {tokens ts : List Token} {kw : Token} {ss : List Stmt}
    (h : Program tokens ss) (hts : tokens = kw :: ts) (hkw : Word .print_ kw) :
    ∃ ts₁ e semi ts₂ ss', ts = ts₁ ++ semi :: ts₂ ∧ Expression maxArity (maxNesting - 1) ts₁ e ∧
      Mark .semicolon semi ∧ Program ts₂ ss' ∧ ss = .print e :: ss' := by
  cases h with
  | nil => cases hts
  | @cons _ ts₁ s ts₂ ss' h hmore =>
    -- Everything else starts with another token.
    cases h with
    | classDecl hk | function hk =>
      cases hts
      cases hkw.symm.trans hk
    | var h =>
      obtain ⟨t, r, rfl, hk⟩ := varDecl_head h
      cases hts
      cases hkw.symm.trans hk
    | statement h =>
      cases h with
      | print _ he hsemi =>
        cases hts
        exact ⟨_, _, _, _, _, by simp, he, hsemi, hmore, rfl⟩
      | expression h =>
        obtain ⟨t, r, rfl, hk⟩ := exprStmt_head h
        cases hts
        exact absurd hkw (opensExpression_ne hk rfl)
      | ret hk | block hk | whileLoop hk | ifThen hk | ifElse hk | forLoop hk =>
        cases hts
        cases hkw.symm.trans hk

/-- **A printed expression is the expression.** If tokens are read as an expression without an
error, and as a program without an error when they stand between `print` and a semicolon, the
program is one statement that prints the expression. -/
theorem parse_print {kw semi eof eof' : Token} {ts : List Token} {n n' : NodeId}
    (hts : ∀ t ∈ ts, t.kind ≠ .endOfInput) (hkw : Word .print_ kw) (hsemi : Mark .semicolon semi)
    (heof : eof.kind = .endOfInput) (heof' : eof'.kind = .endOfInput)
    (h : (parseExpression (ts ++ [eof]) n).errors = [])
    (h' : (parse (kw :: ts ++ [semi] ++ [eof']) n').errors = []) :
    ∃ e e', (parseExpression (ts ++ [eof]) n).tree = some e ∧
      (parse (kw :: ts ++ [semi] ++ [eof']) n').tree = [.print e'] ∧ e'.erase = e.erase := by
  obtain ⟨e, he, alone⟩ := expression_of_parseExpression h
  have read : inner (ts ++ [eof]) = ts := by
    rw [inner_append hts, inner, List.takeWhile_cons_of_neg (by simp [heof]), List.append_nil]
  rw [read] at alone
  have free : ∀ t ∈ kw :: ts ++ [semi], t.kind ≠ .endOfInput := by
    have first : kw.kind ≠ .endOfInput := hkw ▸ Kind.noConfusion
    have last : semi.kind ≠ .endOfInput := hsemi ▸ Kind.noConfusion
    exact List.forall_mem_cons.2
      ⟨first, List.forall_mem_append.2 ⟨hts, List.forall_mem_singleton.2 last⟩⟩
  obtain ⟨ts₁, e₁, semi₁, ts₂, ss, split, printed, hsemi₁, hmore, hss⟩ :=
    print_of_program (program_of_parse free heof' h') rfl hkw
  obtain ⟨rfl, rest, rfl⟩ := alone.unique printed split (Nat.le_refl _) (Nat.sub_le ..)
    (semicolon_closed hsemi) (semicolon_closed hsemi₁)
  obtain ⟨rfl, rfl⟩ := List.cons.inj rest
  rw [eq_nil_of_program hmore rfl, List.map_eq_singleton_iff] at hss
  obtain ⟨s, htree, hs⟩ := hss
  obtain ⟨e', rfl, erased⟩ := Stmt.eq_print_of_erase hs
  exact ⟨e, e', he, htree, erased⟩

end Grammar
end Lox
