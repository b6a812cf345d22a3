/-
# The nesting level

Every rule comes back to the level it was started on, whether it returns or fails (`Rule.depth`),
and no rule is ever entered past the last level: a parser whose rules did anything else there would
be the same parser (`declarations_within`). So an error leaves nothing behind, on whatever level it
arose: between two declarations the level is the top one, and the parser goes on as one that starts
on the tokens that are left (`parse_leaves_nothing`).
-/

import Lox.Proofs.Grammar.Afresh

namespace Lox
namespace Grammar

/-! ## The level a rule leaves -/

/-- The rules of the grammar, over the parsers they are tied to. -/
inductive Rule : {α : Type} → Parser α → Prop
  | declaration (fuel : Nat) : Rule (declaration fuel)
  | statement (fuel : Nat) : Rule (statement fuel)
  | expression (fuel : Nat) : Rule (expression fuel)
  | assignment (fuel : Nat) : Rule (assignment fuel)
  | operators (tier : Tier) (fuel : Nat) : Rule (tier.parser (unary fuel))
  | operand (fuel : Nat) : Rule (nested (unary fuel))
  | call (fuel : Nat) : Rule (call (expression fuel))
  | primary (fuel : Nat) : Rule (primary (expression fuel))
  | arguments (fuel : Nat) :
    Rule (parenthesised (expression fuel) .tooManyArguments .argumentsEnd)
  | block (fuel : Nat) : Rule (block fuel)
  | methods (fuel : Nat) : Rule (methods fuel)
  | classDecl (fuel : Nat) : Rule (classRule (methods fuel))
  | routine (r : Routine) (fuel : Nat) : Rule (routineRule r (block fuel))
  | var (fuel : Nat) : Rule (varRule (expression fuel))
  | simple (fuel : Nat) : Rule (expressionRule (expression fuel))
  | print (fuel : Nat) : Rule (printRule (expression fuel))
  | ret (keyword : Token) (fuel : Nat) : Rule (returnRule keyword (expression fuel))
  | branch (fuel : Nat) : Rule (ifRule (expression fuel) (statement fuel))
  | loop (fuel : Nat) : Rule (whileRule (expression fuel) (statement fuel))
  | forInit (fuel : Nat) : Rule (forInit (expression fuel))
  | forLoop (fuel : Nat) : Rule (forRule (expression fuel) (statement fuel))

/-- Every rule only moves forward. -/
theorem Rule.advances {α : Type} {p : Parser α} (h : Rule p) : Advances p := by
  have he := expression_advances
  have hs : ∀ fuel, Advances (Grammar.statement fuel) := fun fuel =>
    (statement_declaration_advances fuel).1
  have hb : ∀ fuel, Advances (Grammar.block fuel) := fun fuel =>
    (statement_declaration_advances fuel).2.2.1
  have hm : ∀ fuel, Advances (Grammar.methods fuel) := fun fuel =>
    (statement_declaration_advances fuel).2.2.2
  cases h with
  | declaration fuel => exact (statement_declaration_advances fuel).2.1
  | statement fuel => exact hs fuel
  | expression fuel => exact he fuel
  | assignment fuel => exact (unary_assignment_advances fuel).2
  | operators tier fuel => exact tier_advances (unary_assignment_advances fuel).1 tier
  | operand fuel => exact nested_advances (unary_assignment_advances fuel).1
  | call fuel => exact call_advances (he fuel)
  | primary fuel => exact primary_advances (he fuel)
  | arguments fuel => exact parenthesised_advances (he fuel)
  | block fuel => exact hb fuel
  | methods fuel => exact hm fuel
  | classDecl fuel => exact classRule_advances (hm fuel)
  | routine r fuel => exact routineRule_advances (hb fuel)
  | var fuel => exact varRule_advances (he fuel)
  | simple fuel => exact expressionRule_advances (he fuel)
  | print fuel => exact printRule_advances (he fuel)
  | ret keyword fuel => exact returnRule_advances (he fuel)
  | branch fuel => exact ifRule_advances (he fuel) (hs fuel)
  | loop fuel => exact whileRule_advances (he fuel) (hs fuel)
  | forInit fuel => exact forInit_advances (he fuel)
  | forLoop fuel => exact forRule_advances (he fuel) (hs fuel)

/-- Every rule comes back to the level it was started on, with a result or an error. -/
theorem Rule.depth {α : Type} {p : Parser α} (h : Rule p) (s : State) :
    (left p s).depth = s.depth := (h.advances s).depth

/-! ## The level a rule is entered on -/

/-- Leaves a rule for something else if it is entered past the last level. -/
def within (instead : Wrapper) : Wrapper := fun α p s =>
  if s.depth ≤ maxNesting then p s else instead α p s

/-- One run twice, on a level that is allowed. -/
def shallow : Pairing where
  token := Eq
  number := Eq
  state s s' := s' = s ∧ s.depth ≤ maxNesting
  failure e e' s s' := e' = e ∧ s' = s ∧ s.depth ≤ maxNesting
  faithful := faithful_eq
  level := by
    rintro s _ ⟨rfl, -⟩
    rfl
  ended := by
    rintro s _ ⟨rfl, -⟩ hs
    exact hs
  read := by
    rintro s _ t ts ⟨rfl, hd⟩ hs -
    exact ⟨t, ts, hs, rfl, rfl, hd⟩
  counted := by
    rintro s _ ⟨rfl, hd⟩
    exact ⟨rfl, rfl, hd⟩
  deeper := by
    rintro s _ ⟨rfl, -⟩ hd
    exact ⟨rfl, hd⟩
  shallower := by
    rintro s _ ⟨rfl, hd⟩
    exact ⟨rfl, Nat.le_trans (Nat.sub_le ..) hd⟩
  failed := by
    rintro s _ cause ⟨rfl, hd⟩
    exact ⟨rfl, rfl, hd⟩
  failed_shallower := by
    rintro e _ s _ ⟨rfl, rfl, hd⟩
    exact ⟨rfl, rfl, Nat.le_trans (Nat.sub_le ..) hd⟩
  noted := by
    rintro s _ cause ⟨rfl, hd⟩ -
    exact ⟨rfl, hd⟩
  notedAt := by
    rintro s _ cause t _ ⟨rfl, hd⟩ - rfl
    exact ⟨rfl, hd⟩

/-- Such runs are paired again behind an error, which leaves the level as it was. -/
theorem shallow_recovers : shallow.Recovers := by
  rintro _ _ s _ ⟨rfl, rfl, hd⟩
  exact ⟨rfl, hd⟩

/-- On a level that is allowed a rule does not see what would be done past the last one. -/
theorem shallow_absorbs (instead : Wrapper) : shallow.Absorbs (within instead) := by
  rintro α n p p' Q h _ s ⟨rfl, hd⟩ hn
  rw [within, if_pos hd]
  exact h s s ⟨rfl, hd⟩ hn

/-- **No rule is entered past the last level**: what the rules do there makes no difference. -/
theorem declarations_within (instead : Wrapper) (tokens : List Token) (n : NodeId) :
    Parsers.declarations (within instead) tokens.length (.start tokens n) =
      declarations tokens.length (.start tokens n) := by
  have start : shallow.state (.start tokens n) (.start tokens n) := ⟨rfl, Nat.zero_le _⟩
  have room := State.ahead_le (.start tokens n)
  obtain ⟨ss, ss', s, s', h, h', ⟨rfl, -⟩, -, hss⟩ :=
    Pairing.declarations_paired shallow_recovers (shallow_absorbs instead) start room room
  cases Stmt.AlikeList.eq hss
  exact h'.trans h.symm

/-- **Errors leave nothing behind.** Wherever the parser of a program comes to between two
declarations, it is back on the top level with some of the tokens left, the next declaration
returns as well unless the input is over, and the trees and errors from there on are those that a
parser finds that starts on the tokens left, up to node numbers. In between every rule comes back
to the level it was started on, with a result or an error, and none is entered past the last
level. -/
theorem parse_leaves_nothing {tokens : List Token} {n : NodeId} {ss : List Stmt} {s : State}
    (h : Between tokens n ss s) :
    (s.depth = 0 ∧ s.rest <:+ tokens) ∧
    (s.atEnd = false → ∃ first s', declaration (fuelFor s.rest.length) s = .ok first s' ∧
      Between tokens n (ss ++ first.toList) s') ∧
    (∀ m, (parse tokens n).errors = s.errors ++ (parse s.rest m).errors ∧
      ∃ more, (parse tokens n).tree = ss ++ more ∧
        Stmt.AlikeList Eq AnyNumber more (parse s.rest m).tree) ∧
    (∀ {α : Type} {p : Parser α}, Rule p → ∀ s : State, (left p s).depth = s.depth) ∧
    (∀ instead, Parsers.declarations (within instead) tokens.length (.start tokens n) =
      declarations tokens.length (.start tokens n)) :=
  ⟨⟨h.depth, h.rest⟩, h.returns, h.parse_eq, Rule.depth,
    fun instead => declarations_within instead tokens n⟩

/-- The tokens of `(a b; print c;`. -/
def unclosedGroup : List Token :=
  [⟨.punct .leftParen, "(", 1⟩, ⟨.identifier, "a", 1⟩, ⟨.identifier, "b", 1⟩,
    ⟨.punct .semicolon, ";", 1⟩, ⟨.keyword .print_, "print", 1⟩, ⟨.identifier, "c", 1⟩,
    ⟨.punct .semicolon, ";", 1⟩, .endOfInput 1]

/-- Behind an error inside a group, a few levels down, the parser goes on at the next statement as
it does on a program of its own. -/
theorem parse_unclosedGroup :
    Between unclosedGroup 0 []
      ⟨unclosedGroup.drop 4, 0, 1, [⟨.missing .groupEnd, ⟨.identifier, "b", 1⟩, 6⟩]⟩ ∧
    (parse unclosedGroup 0).errors =
      [⟨.missing .groupEnd, ⟨.identifier, "b", 1⟩, 6⟩] ++
        (parse (unclosedGroup.drop 4) 0).errors := by
  have failed : declaration (fuelFor unclosedGroup.length) (.start unclosedGroup 0) = .ok none
      ⟨unclosedGroup.drop 4, 0, 1, [⟨.missing .groupEnd, ⟨.identifier, "b", 1⟩, 6⟩]⟩ := by
    rfl
  have between := Between.start.next (by decide) failed
  exact ⟨between, ((parse_leaves_nothing between).2.2.1 0).1⟩

end Grammar
end Lox
