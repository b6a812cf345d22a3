/-
# Between two declarations

The parser reads one declaration after the other. Whatever the ones before were, and whatever
errors they ended in, from there on it does what a parser does that starts on the tokens that are
left (`declarations_afresh`): it looks neither at the errors noted so far nor at the numbers given
out. The states between two declarations (`Between`) are all of this kind, so a program can be read
from any of them on (`Between.parse_eq`).
-/

import Lox.Proofs.Grammar.Pairing.Tied

namespace Lox
namespace Grammar

/-- Runs on the same tokens, of which the first has noted some errors before. -/
def afresh (noted : List Error) : Pairing where
  token := Eq
  number := AnyNumber
  state s s' := s'.rest = s.rest ∧ s'.depth = s.depth ∧ s.errors = noted ++ s'.errors
  failure e e' s s' :=
    e' = e ∧ s'.rest = s.rest ∧ s'.depth = s.depth ∧ s.errors = noted ++ s'.errors
  faithful := faithful_eq
  level h := h.2.1
  ended := by
    rintro s s' ⟨hr, -⟩ hs
    rwa [State.atEnd, State.next, hr]
  read := by
    rintro s s' t ts ⟨hr, hd, he⟩ hs -
    exact ⟨t, ts, hr.trans hs, rfl, rfl, hd, he⟩
  counted h := ⟨trivial, h⟩
  deeper h _ := ⟨h.1, congrArg (· + 1) h.2.1, h.2.2⟩
  shallower h := ⟨h.1, congrArg (· - 1) h.2.1, h.2.2⟩
  failed := by
    rintro s s' cause ⟨hr, hd, he⟩
    exact ⟨by rw [State.blame, State.blame, State.next, State.next, hr], hr, hd, he⟩
  failed_shallower h := ⟨h.1, h.2.1, congrArg (· - 1) h.2.2.1, h.2.2.2⟩
  noted := by
    rintro s s' cause ⟨hr, hd, he⟩ -
    refine ⟨hr, hd, ?_⟩
    rw [State.blame, State.blame, State.next, State.next, hr, he, List.append_assoc]
  notedAt := by
    rintro s s' cause t _ ⟨hr, hd, he⟩ - rfl
    refine ⟨hr, hd, ?_⟩
    rw [hr, he, List.append_assoc]

/-- Such runs are paired again behind an error. -/
theorem afresh_recovers (noted : List Error) : (afresh noted).Recovers := by
  rintro _ e s s' ⟨rfl, hr, hd, he⟩
  refine ⟨congrArg resume hr, hd, ?_⟩
  change s.errors ++ [e] = noted ++ (s'.errors ++ [e])
  rw [he, List.append_assoc]

section

variable {tokens : List Token} {n : NodeId} {ss : List Stmt} {s : State}

/-- On the top level, and with room for all declarations that are left, the parser goes on as one
that starts on the tokens that are left. -/
theorem declarations_afresh {limit : Nat} (hd : s.depth = 0) (hl : s.rest.length ≤ limit)
    (m : NodeId) : ∃ more s', declarations limit s = .ok more s' ∧
      s'.errors = s.errors ++ (parse s.rest m).errors ∧
      Stmt.AlikeList Eq AnyNumber more (parse s.rest m).tree := by
  have start : (afresh s.errors).state s (.start s.rest m) :=
    ⟨rfl, hd.symm, (List.append_nil s.errors).symm⟩
  obtain ⟨more, fresh, s₁, s₁', h₁, h₁', hs, -, hss⟩ :=
    Pairing.declarations_paired (afresh_recovers s.errors) (Pairing.absorbs_none _) start
      (Nat.le_trans s.ahead_le hl) s.ahead_le
  rw [Parsers.declarations_none] at h₁'
  have parsed : parse s.rest m = _ := parse_eq h₁'
  rw [parsed]
  exact ⟨more, s₁, h₁, hs.2.2, hss⟩

/-- The parser of a program may come to the state between two declarations, or before the first or
behind the last; `ss` are the trees so far. -/
inductive Between (tokens : List Token) (n : NodeId) : List Stmt → State → Prop
  | start : Between tokens n [] (.start tokens n)
  | next {ss : List Stmt} {s s' : State} {first : Option Stmt} (h : Between tokens n ss s)
      (hs : s.atEnd = false) (hd : declaration (fuelFor s.rest.length) s = .ok first s') :
    Between tokens n (ss ++ first.toList) s'

/-- Between two declarations nothing is open. -/
theorem Between.depth (h : Between tokens n ss s) : s.depth = 0 := by
  induction h with
  | start => rfl
  | next h _ hd ih => exact ((statement_declaration_advances _).2.1.ok hd).depth.trans ih

/-- The tokens left between two declarations are the last ones of the input. -/
theorem Between.rest (h : Between tokens n ss s) : s.rest <:+ tokens := by
  induction h with
  | start => exact List.suffix_refl _
  | next h _ hd ih => exact ((statement_declaration_advances _).2.1.ok hd).rest.trans ih

/-- What is parsed from a state between two declarations on is what is still missing of the parse of
all tokens. -/
theorem Between.declarations (h : Between tokens n ss s) : ∃ limit, s.rest.length ≤ limit ∧
    ∀ more s', Grammar.declarations limit s = .ok more s' →
      Grammar.declarations tokens.length (.start tokens n) = .ok (ss ++ more) s' := by
  induction h with
  | start => exact ⟨tokens.length, Nat.le_refl _, fun _ _ h => h⟩
  | @next ss s s' first h hs hd ih =>
    obtain ⟨limit, hl, go⟩ := ih
    -- A declaration was read, so the limit is not used up.
    have consumed := Pairing.declaration_consumesFrom _ hs _ _ hd
    obtain ⟨limit, rfl⟩ : ∃ k, limit = k + 1 := ⟨limit - 1, by omega⟩
    refine ⟨limit, by omega, fun more s'' hmore => ?_⟩
    rw [List.append_assoc]
    exact go _ _ (declarations_round hs hd hmore)

/-- From a state between two declarations on, a program is read as if it began there. -/
theorem Between.parse_eq (h : Between tokens n ss s) (m : NodeId) :
    (parse tokens n).errors = s.errors ++ (parse s.rest m).errors ∧
      ∃ more, (parse tokens n).tree = ss ++ more ∧
        Stmt.AlikeList Eq AnyNumber more (parse s.rest m).tree := by
  obtain ⟨limit, hl, go⟩ := h.declarations
  obtain ⟨more, s', hmore, errors, tree⟩ := declarations_afresh h.depth hl m
  rw [Grammar.parse_eq (go more s' hmore)]
  exact ⟨errors, more, rfl, tree⟩

/-- The next declaration returns, too. -/
theorem Between.returns (h : Between tokens n ss s) (hs : s.atEnd = false) :
    ∃ first s', declaration (fuelFor s.rest.length) s = .ok first s' ∧
      Between tokens n (ss ++ first.toList) s' := by
  obtain ⟨first, s', hd, -⟩ := declaration_consumes (5 * s.rest.length + 4) hs
  exact ⟨first, s', hd, h.next hs hd⟩

/-- After more declarations the parser is between two again, and at the end of the input. -/
theorem Between.onwards : ∀ {limit ss s more s'}, Between tokens n ss s →
    s.rest.length ≤ limit → Grammar.declarations limit s = .ok more s' →
      Between tokens n (ss ++ more) s' ∧ s'.atEnd = true
  | 0, ss, s, more, s', h, hl, hmore => by
    obtain ⟨rfl, rfl⟩ := pure_eq_ok_iff.1 hmore
    refine ⟨(List.append_nil ss).symm ▸ h, ?_⟩
    rw [State.atEnd, State.next, List.eq_nil_of_length_eq_zero (Nat.le_zero.1 hl)]
    rfl
  | limit + 1, ss, s, more, s', h, hl, hmore => by
    cases hs : s.atEnd with
    | true =>
      rw [← Parsers.declarations_none, Pairing.declarations_over hs] at hmore
      cases hmore
      exact ⟨(List.append_nil ss).symm ▸ h, hs⟩
    | false =>
      obtain ⟨first, s₁, h₁, hlt⟩ := declaration_consumes (5 * s.rest.length + 4) hs
      obtain ⟨rest, s₂, h₂⟩ := declarations_returns limit s₁
      cases (declarations_round hs h₁ h₂).symm.trans hmore
      rw [← List.append_assoc]
      exact (h.next hs h₁).onwards (by omega) h₂

end

end Grammar
end Lox
