/-
# Nothing is read from the first end of input on

What a parser can see of a list of tokens are the tokens before the first end of input and that
end, which stands on line 1 if the list has none (`sight`). Every small step of a parser keeps the
sights of two states the same (`sighted`), and skipping to the next statement keeps them too, since
it commutes with `sight`. So two lists of the same sight are parsed alike, whatever stands behind
the end and whether there is one (`parse_of_sight`, `parseExpression_of_sight`).
-/

import Lox.Proofs.Grammar.Pairing.Tied

namespace Lox
namespace Grammar

/-- The first end of input in a list of tokens, or the one on line 1 that stands past its end. -/
def closing (ts : List Token) : Token :=
  (ts.dropWhile fun t => t.kind ≠ .endOfInput).headD (Token.endOfInput 1)

/-- What a parser can see of a list of tokens. -/
def sight (ts : List Token) : List Token := inner ts ++ [closing ts]

section Sight

variable {t : Token} {ts ts' : List Token}

/-- Past the end of a list the parser sees an end of input on line 1. -/
theorem sight_nil : sight [] = [Token.endOfInput 1] := rfl

/-- A token before the first end of input is seen. -/
theorem sight_cons_inner (h : t.kind ≠ .endOfInput) : sight (t :: ts) = t :: sight ts := by
  have same : closing (t :: ts) = closing ts :=
    congrArg (List.headD · _) (List.dropWhile_cons_of_pos (by simp [h]))
  rw [sight, sight, inner_cons h, same, List.cons_append]

/-- Nothing behind an end of input is seen. -/
theorem sight_cons_end (h : t.kind = .endOfInput) : sight (t :: ts) = [t] := by
  have none : inner (t :: ts) = [] := List.takeWhile_cons_of_neg (by simp [h])
  have first : closing (t :: ts) = t :=
    congrArg (List.headD · _) (List.dropWhile_cons_of_neg (by simp [h]))
  rw [sight, none, first, List.nil_append]

/-- Tokens without an end of input are all seen, and then what is seen of those behind them. -/
theorem sight_append (h : ∀ t ∈ ts, t.kind ≠ .endOfInput) : sight (ts ++ ts') = ts ++ sight ts' := by
  induction ts with
  | nil => rfl
  | cons t ts ih =>
    obtain ⟨ht, hts⟩ := List.forall_mem_cons.1 h
    rw [List.cons_append, sight_cons_inner ht, ih hts, List.cons_append]

/-- The first token of a sight is the next token. -/
theorem sight_head? (ts : List Token) : (sight ts).head? = some (ts.headD (Token.endOfInput 1)) := by
  cases ts with
  | nil => rfl
  | cons t ts =>
    by_cases ht : t.kind = .endOfInput
    · rw [sight_cons_end ht]
      rfl
    · rw [sight_cons_inner ht]
      rfl

/-- A list whose sight begins with a token before the end begins with that token. -/
theorem eq_cons_of_sight {us : List Token} (h : sight ts = t :: us) (ht : t.kind ≠ .endOfInput) :
    ∃ ts', ts = t :: ts' ∧ sight ts' = us := by
  cases ts with
  | nil =>
    cases h
    exact absurd rfl ht
  | cons u ts' =>
    by_cases hu : u.kind = .endOfInput
    · rw [sight_cons_end hu] at h
      cases h
      exact absurd hu ht
    · rw [sight_cons_inner hu] at h
      cases h
      exact ⟨ts', rfl, rfl⟩

/-- Skipping to the next statement sees no more. -/
theorem resumeAfter_sight (last : Token) (ts : List Token) :
    resumeAfter last (sight ts) = sight (resumeAfter last ts) := by
  fun_induction resumeAfter last ts with
  | case1 last => rfl
  | case2 last t ts h =>
    by_cases ht : t.kind = .endOfInput
    · rw [sight_cons_end ht, resumeAfter, if_pos h]
    · rw [sight_cons_inner ht, resumeAfter, if_pos h]
  | case3 last t ts h ih =>
    have ht : t.kind ≠ .endOfInput := by
      rintro hk
      simp [hk, Kind.same] at h
    rw [sight_cons_inner ht, resumeAfter, if_neg h, ih]

/-- Skipping to the next statement commutes with looking at what can be seen. -/
theorem resume_sight (ts : List Token) : resume (sight ts) = sight (resume ts) := by
  cases ts with
  | nil => rfl
  | cons t ts =>
    by_cases ht : t.kind = .endOfInput
    · have ended : t.kind.same .endOfInput = true := (Kind.same_iff_eq rfl).2 ht
      rw [sight_cons_end ht, resume, resume, if_pos ended, if_pos ended, sight_cons_end ht]
    · have before : ¬ (t.kind.same .endOfInput = true) := fun h => ht ((Kind.same_iff_eq rfl).1 h)
      rw [sight_cons_inner ht, resume, resume, if_neg before, if_neg before, resumeAfter_sight]

end Sight

/-- Errors at one token for one cause, however many tokens were left. -/
structure Error.Shown (e e' : Error) : Prop where
  cause : e'.cause = e.cause
  token : e'.token = e.token

/-- Errors at one token for one cause are reported the same. -/
theorem Error.Shown.report {e e' : Error} (h : e.Shown e') : e'.report = e.report := by
  rw [Error.report, Error.report, h.cause, h.token]

/-- So are lists of them. -/
theorem reports_eq {es es' : List Error} (h : List.Forall₂ Error.Shown es es') :
    es.map Error.report = es'.map Error.report := by
  induction h with
  | nil => rfl
  | cons he _ ih => rw [List.map_cons, List.map_cons, he.report, ih]

/-- States with the same sight, on one level and with the same errors behind them. -/
structure State.Sighted (s s' : State) : Prop where
  sight : sight s'.rest = sight s.rest
  depth : s'.depth = s.depth
  errors : List.Forall₂ Error.Shown s.errors s'.errors

section States

variable {s s' : State}

/-- In states of the same sight the next token is the same. -/
theorem State.Sighted.next (h : s.Sighted s') : s'.next = s.next := by
  have heads := congrArg List.head? h.sight
  rw [sight_head?, sight_head?] at heads
  exact Option.some.inj heads

/-- It is blamed for one cause with errors that are shown the same. -/
theorem State.Sighted.blame (h : s.Sighted s') (cause : Cause) :
    (s.blame cause).Shown (s'.blame cause) := ⟨rfl, h.next⟩

/-- States of the same sight with one more such error each have errors that are shown the same. -/
theorem State.Sighted.noting (h : s.Sighted s') {e e' : Error} (he : e.Shown e') :
    List.Forall₂ Error.Shown (s.errors ++ [e]) (s'.errors ++ [e']) :=
  List.rel_append h.errors (.cons he .nil)

end States

/-- Runs on lists of the same sight. -/
def sighted : Pairing where
  token := Eq
  number := AnyNumber
  state := State.Sighted
  failure e e' s s' := e.Shown e' ∧ s.Sighted s'
  faithful := faithful_eq
  level h := h.depth
  ended h hs := by rwa [State.atEnd, h.next]
  read := by
    rintro s s' t ts ⟨hr, hd, he⟩ hs ht
    rw [hs, sight_cons_inner ht] at hr
    obtain ⟨ts', hs', hts⟩ := eq_cons_of_sight hr ht
    exact ⟨t, ts', hs', rfl, hts, hd, he⟩
  counted h := ⟨trivial, h.sight, h.depth, h.errors⟩
  deeper h _ := ⟨h.sight, congrArg (· + 1) h.depth, h.errors⟩
  shallower h := ⟨h.sight, congrArg (· - 1) h.depth, h.errors⟩
  failed h := ⟨h.blame _, h⟩
  failed_shallower h := ⟨h.1, h.2.sight, congrArg (· - 1) h.2.depth, h.2.errors⟩
  noted h _ := ⟨h.sight, h.depth, h.noting (h.blame _)⟩
  notedAt h _ ht := ⟨h.sight, h.depth, h.noting ⟨rfl, ht.symm⟩⟩

/-- Such runs are paired again behind an error. -/
theorem sighted_recovers : sighted.Recovers := by
  rintro e e' s s' ⟨he, h⟩
  refine ⟨?_, h.depth, h.noting he⟩
  change sight (resume s'.rest) = sight (resume s.rest)
  rw [← resume_sight, ← resume_sight, h.sight]

/-- Trees that are related, and the same reports. -/
structure Parsed.Same {α : Type} (Q : α → α → Prop) (p p' : Parsed α) : Prop where
  tree : Q p.tree p'.tree
  reports : p.errors.map Error.report = p'.errors.map Error.report

section Parse

variable {ts ts' : List Token}

/-- Lists of the same sight are begun in states of the same sight. -/
theorem start_sighted (h : sight ts' = sight ts) (n n' : NodeId) :
    State.Sighted (.start ts n) (.start ts' n') := ⟨h, rfl, .nil⟩

/-- Lists of the same sight are the same programs, from whatever number on. -/
theorem parse_of_sight (h : sight ts' = sight ts) (n n' : NodeId) :
    (parse ts n).Same (Stmt.AlikeList Eq AnyNumber) (parse ts' n') := by
  have hs := start_sighted h n n'
  have room : (State.start ts n).ahead ≤ ts'.length :=
    Pairing.ahead_eq (P := sighted) hs ▸ State.ahead_le (.start ts' n')
  obtain ⟨ss, ss', s₁, s₁', h₁, h₁', hs₁, -, hss⟩ := Pairing.declarations_paired sighted_recovers
    (Pairing.absorbs_none _) hs (State.ahead_le (.start ts n)) room
  rw [Parsers.declarations_none] at h₁'
  have first : parse ts n = _ := parse_eq h₁
  have second : parse ts' n' = _ := parse_eq h₁'
  rw [first, second]
  exact ⟨hss, reports_eq hs₁.errors⟩

/-- Lists of the same sight are the same expression, or none. -/
theorem parseExpression_of_sight (h : sight ts' = sight ts) (n n' : NodeId) :
    (parseExpression ts n).Same (Option.Rel (Expr.Alike Eq AnyNumber))
      (parseExpression ts' n') := by
  have ends := Pairing.soleExpression_agree sighted_recovers _ _ _ (start_sighted h n n')
    (Nat.lt_succ_self _)
  unfold parseExpression
  revert ends
  generalize soleExpression (.start ts n) = x, soleExpression (.start ts' n') = y
  intro ends
  cases ends with
  | ok hs _ hq => exact ⟨.some hq, reports_eq hs.errors⟩
  | error he _ => exact ⟨.none, reports_eq (he.2.noting he.1)⟩

end Parse

/-- **Nothing is read from the first end of input on, and a missing one does no harm.** Take tokens
without an end of input. What stands behind an end that follows them makes no difference to the
trees, up to node numbers, and to the reports that a parser finds, of a program or of a single
expression; and without any end they are parsed as if the one on line 1 followed them. -/
theorem parse_to_first_end {ts : List Token} (hts : ∀ t ∈ ts, t.kind ≠ .endOfInput)
    (n n' : NodeId) :
    (∀ eof behind, eof.kind = .endOfInput →
      (parse (ts ++ eof :: behind) n).Same (Stmt.AlikeList Eq AnyNumber)
        (parse (ts ++ [eof]) n') ∧
      (parseExpression (ts ++ eof :: behind) n).Same (Option.Rel (Expr.Alike Eq AnyNumber))
        (parseExpression (ts ++ [eof]) n')) ∧
    (parse ts n).Same (Stmt.AlikeList Eq AnyNumber) (parse (ts ++ [Token.endOfInput 1]) n') ∧
    (parseExpression ts n).Same (Option.Rel (Expr.Alike Eq AnyNumber))
      (parseExpression (ts ++ [Token.endOfInput 1]) n') := by
  have closed : sight (ts ++ [Token.endOfInput 1]) = sight ts := by
    have unclosed : sight (ts ++ []) = _ := sight_append hts
    rw [List.append_nil, sight_nil] at unclosed
    rw [sight_append hts, unclosed, sight_cons_end rfl]
  refine ⟨fun eof behind heof => ?_, parse_of_sight closed n n', parseExpression_of_sight closed n n'⟩
  have cut : sight (ts ++ [eof]) = sight (ts ++ eof :: behind) := by
    rw [sight_append hts, sight_append hts, sight_cons_end heof, sight_cons_end heof]
  exact ⟨parse_of_sight cut n n', parseExpression_of_sight cut n n'⟩

/-- The tokens of `{ print a; b`. -/
def openBlock : List Token :=
  [⟨.punct .leftBrace, "\x7b", 1⟩, ⟨.keyword .print_, "print", 1⟩, ⟨.identifier, "a", 1⟩,
    ⟨.punct .semicolon, ";", 1⟩, ⟨.identifier, "b", 2⟩]

/-- The tokens of `; }`. -/
def closedBlock : List Token := [⟨.punct .semicolon, ";", 2⟩, ⟨.punct .rightBrace, "\x7d", 2⟩]

/-- The statement and the block stay open at the end of the input, though what stands behind it
would close both; without an end they are open on line 1. -/
theorem parse_openBlock : (∀ t ∈ openBlock, t.kind ≠ .endOfInput) ∧
    (parse (openBlock ++ .endOfInput 2 :: closedBlock) 0).Same (Stmt.AlikeList Eq AnyNumber)
      (parse (openBlock ++ [.endOfInput 2]) 3) ∧
    (parse (openBlock ++ [.endOfInput 2]) 3).errors =
      [⟨.missing .statementEnd, .endOfInput 2, 1⟩, ⟨.missing .blockEnd, .endOfInput 2, 1⟩] ∧
    (parse openBlock 0).Same (Stmt.AlikeList Eq AnyNumber)
      (parse (openBlock ++ [.endOfInput 1]) 3) ∧
    (parse (openBlock ++ [.endOfInput 1]) 3).errors =
      [⟨.missing .statementEnd, .endOfInput 1, 1⟩, ⟨.missing .blockEnd, .endOfInput 1, 1⟩] ∧
    (parse (openBlock ++ closedBlock) 0).errors = [] := by
  have inner : ∀ t ∈ openBlock, t.kind ≠ .endOfInput := by decide
  obtain ⟨cut, closed, -⟩ := parse_to_first_end inner 0 3
  exact ⟨inner, (cut (.endOfInput 2) closedBlock rfl).1, by decide +kernel, closed,
    by decide +kernel, by decide +kernel⟩

end Grammar
end Lox
