/-
# The parser comes to an end

The tied parsers have a fuel, and their loops bounds, only so that they can be defined. None of
them is ever used up. Whatever stands at the bottom of the recursion, and with whatever fuel and
limit from those of the program on, the result is the same (`program_atop`, `sole_atop`); and each
loop ends at a token that does not go on with it (`Loop.stops`), as a loop without a bound would.

What makes the recursion end is progress. A declaration that begins before the end of the input
ends behind the token it began with, with a tree or without (`declaration_consumes`), and no rule
moves back, reads an end of input, or goes past the end of the list (`Rule.reaches`): one run is
paired with itself, and paired runs reach on.
-/

import Lox.Proofs.Grammar.Nesting

namespace Lox
namespace Grammar

/-! ## One run and itself -/

/-- One run twice. -/
def twice : Pairing where
  token := Eq
  number := Eq
  state s s' := s' = s
  failure e e' s s' := e' = e ∧ s' = s
  faithful := faithful_eq
  level := congrArg State.depth
  ended h hs := h ▸ hs
  read := by
    rintro s _ t ts rfl hs -
    exact ⟨t, ts, hs, rfl, rfl⟩
  counted := by
    rintro s _ rfl
    exact ⟨rfl, rfl⟩
  deeper := by
    rintro s _ rfl -
    rfl
  shallower := by
    rintro s _ rfl
    rfl
  failed := by
    rintro s _ cause rfl
    exact ⟨rfl, rfl⟩
  failed_shallower := by
    rintro e _ s _ ⟨rfl, rfl⟩
    exact ⟨rfl, rfl⟩
  noted := by
    rintro s _ cause rfl -
    rfl
  notedAt := by
    rintro s _ cause t _ rfl - rfl
    rfl

/-- Such runs are paired again behind an error. -/
theorem twice_recovers : twice.Recovers := by
  rintro e _ s _ ⟨rfl, rfl⟩
  rfl

section Twice

variable {α : Type} {p p' : Parser α} {Q : α → α → Prop} {s : State}

/-- A parser that agrees with itself only reaches on. -/
theorem reaches_of_agree (h : ∀ n, twice.Agree n p p Q) (s : State) : s.Reaches (left p s) := by
  have ends := h (s.ahead + 1) s s rfl (Nat.lt_succ_self _)
  unfold left
  revert ends
  generalize p s = x
  intro ends
  cases ends with
  | ok _ hr _ => exact hr
  | error _ hr => exact hr

/-- Parsers that agree and return the same results are the same. -/
theorem eq_of_agree (h : twice.Agree (s.ahead + 1) p p' Q) (hQ : ∀ a a', Q a a' → a' = a) :
    p' s = p s := by
  have ends := h s s rfl (Nat.lt_succ_self _)
  revert ends
  generalize p s = x, p' s = y
  intro ends
  cases ends with
  | ok hs _ hq => rw [hQ _ _ hq, show _ = _ from hs]
  | error he _ => rw [he.1, he.2]

end Twice

/-! ## Rules only move on -/

/-- Every rule agrees with itself, up to equal results. -/
theorem Rule.agree {α : Type} {p : Parser α} (h : Rule p) :
    ∃ Q : α → α → Prop, ∀ n, twice.Agree n p p Q := by
  have hu := fun fuel n => (Pairing.unary_assignment_agree (P := twice) fuel n).1
  have ha := fun fuel n => (Pairing.unary_assignment_agree (P := twice) fuel n).2
  have he : ∀ fuel n, twice.Agree n (Grammar.expression fuel) (Grammar.expression fuel)
      twice.Exprs := fun fuel n => Pairing.nested_agree (ha fuel n)
  have all := Pairing.statement_declaration_agree twice_recovers
  have hs := fun fuel n => (all fuel n).1
  have hb := fun fuel n => (all fuel n).2.2.1
  have hm := fun fuel n => (all fuel n).2.2.2
  cases h with
  | declaration fuel => exact ⟨_, fun n => (all fuel n).2.1⟩
  | statement fuel => exact ⟨_, hs fuel⟩
  | expression fuel => exact ⟨_, he fuel⟩
  | assignment fuel => exact ⟨_, ha fuel⟩
  | operators tier fuel => exact ⟨_, fun n => Pairing.tier_agree (hu fuel n) tier⟩
  | operand fuel => exact ⟨_, fun n => Pairing.nested_agree (hu fuel n)⟩
  | call fuel => exact ⟨_, fun n => Pairing.call_agree (he fuel _)⟩
  | primary fuel => exact ⟨_, fun n => Pairing.primary_agree (he fuel _)⟩
  | arguments fuel => exact ⟨_, fun n => Pairing.parenthesised_agree rfl (he fuel n)⟩
  | block fuel => exact ⟨_, hb fuel⟩
  | methods fuel => exact ⟨_, hm fuel⟩
  | classDecl fuel => exact ⟨_, fun n => Pairing.classRule_agree (hm fuel n)⟩
  | routine r fuel => exact ⟨_, fun n => Pairing.routineRule_agree (hb fuel _)⟩
  | var fuel => exact ⟨_, fun n => Pairing.varRule_agree (he fuel n)⟩
  | simple fuel => exact ⟨_, fun n => Pairing.expressionRule_agree (he fuel n)⟩
  | print fuel => exact ⟨_, fun n => Pairing.printRule_agree (he fuel n)⟩
  | ret keyword fuel => exact ⟨_, fun n => Pairing.returnRule_agree rfl (he fuel n)⟩
  | branch fuel => exact ⟨_, fun n => Pairing.ifRule_agree (he fuel n) (hs fuel n)⟩
  | loop fuel => exact ⟨_, fun n => Pairing.whileRule_agree (he fuel n) (hs fuel n)⟩
  | forInit fuel => exact ⟨_, fun n => Pairing.forInit_agree (he fuel n)⟩
  | forLoop fuel => exact ⟨_, fun n => Pairing.forRule_agree (he fuel n) (hs fuel n)⟩

/-- However a rule ends, tokens were read, and no end of input. -/
theorem Rule.reaches {α : Type} {p : Parser α} (h : Rule p) (s : State) : s.Reaches (left p s) := by
  obtain ⟨Q, agree⟩ := h.agree
  exact reaches_of_agree agree s

/-- So does an expression that stands alone. -/
theorem soleExpression_reaches (s : State) : s.Reaches (left soleExpression s) :=
  reaches_of_agree (Pairing.soleExpression_agree twice_recovers) s

/-! ## Fuels and limits make no difference -/

section Fuels

variable {fuel limit : Nat} {s : State}

/-- With enough fuel a program never comes to the bottom of the recursion, nor to its limit. -/
theorem program_atop (bottom : Parsers) (hf : fuelFor s.rest.length ≤ fuel)
    (hl : s.rest.length ≤ limit) :
    Parsers.upTo (fun _ => .atop .none bottom fuel) limit s = declarations s.rest.length s := by
  have tokens := s.ahead_le
  rw [fuelFor] at hf
  rw [← Parsers.declarations_none]
  refine eq_of_agree (Pairing.upTo_agree (fun j m m' hj hm _ => ?_) (Nat.succ_le_succ tokens)
    (Nat.succ_le_succ (Nat.le_trans tokens hl))) fun ss ss' h => Stmt.AlikeList.eq h
  have fuels := Pairing.atop_agree twice_recovers (Pairing.absorbs_none _) bottom (fuelFor m) fuel
  exact fuels.declaration (by rw [fuelFor]; omega) (by omega)

/-- Nor does a single expression. -/
theorem sole_atop (bottom : Parsers) (hf : fuelFor s.rest.length ≤ fuel) :
    (Parsers.atop .none bottom fuel).sole s = soleExpression s := by
  have tokens := s.ahead_le
  have enough : 5 * (s.ahead + 1) ≤ fuelFor s.rest.length + 3 := by
    rw [fuelFor]
    omega
  rw [Parsers.soleExpression_eq, unread_bind]
  have fuels := Pairing.atop_agree twice_recovers (Pairing.absorbs_none _) bottom
    (fuelFor s.rest.length) fuel
  exact eq_of_agree (Pairing.sole_agree (fuels.assignment enough (by omega)))
    fun e e' h => Expr.Alike.eq h

end Fuels

/-! ## Loops end of their own accord -/

/-- The loops within the rules, with the kinds of the tokens that one more round begins with. -/
inductive Loop : {α : Type} → List Kind → Parser α → Prop
  | parameters : Loop [.punct .comma]
    (separated (expect .identifier .parameterName) .tooManyParameters)
  | arguments (fuel : Nat) : Loop [.punct .comma] (separated (expression fuel) .tooManyArguments)
  | operators (tier : Tier) (fuel : Nat) : Loop tier.ops (tier.parser (unary fuel))
  | suffixes (fuel : Nat) : Loop [.punct .leftParen, .punct .dot] (call (expression fuel))

section Loops

variable {α β : Type} {p : Parser α} {f : α → Parser β} {kinds : List Kind} {s s' : State}

/-- Where the parser returns, none of the kinds comes next. -/
def Stops (kinds : List Kind) (p : Parser α) : Prop :=
  ∀ s a s', p s = .ok a s' → kinds.any s'.next.kind.same = false

/-- The same from states with no more tokens than the bound of a loop. -/
def StopsWithin (bound : Nat) (kinds : List Kind) (p : Parser α) : Prop :=
  ∀ s a s', s.rest.length ≤ bound → p s = .ok a s' → kinds.any s'.next.kind.same = false

/-- Past the last token comes an end of input, and none of the kinds of tokens before it. -/
theorem any_same_of_no_tokens (hk : Pairing.Inner kinds) (h : s.rest = []) :
    kinds.any s.next.kind.same = false := by
  rw [State.next, h]
  exact hk

/-- Without a token left there is no round to begin. -/
theorem pure_stops (hk : Pairing.Inner kinds) {a : α} : StopsWithin 0 kinds (pure a) := by
  intro s b s' hs h
  obtain ⟨-, rfl⟩ := pure_eq_ok_iff.1 h
  exact any_same_of_no_tokens hk (List.eq_nil_of_length_eq_zero (Nat.le_zero.1 hs))

/-- A round begins with a token of its own, or there is none. -/
theorem acceptAny_stops {bound : Nat} (hk : Pairing.Inner kinds) {f : Option Token → Parser β}
    {b : β} (none : f none = pure b) (some : ∀ t, StopsWithin bound kinds (f (some t))) :
    StopsWithin (bound + 1) kinds (acceptAny kinds >>= f) := by
  intro s b' s' hs h
  obtain ⟨found, s₁, h₁, h₂⟩ := bind_eq_ok_iff.1 h
  cases found with
  | some t =>
    obtain ⟨rest, hr, rfl, -⟩ := acceptAny_some h₁
    rw [hr, List.length_cons] at hs
    exact some t { s with rest := rest } b' s' (Nat.le_of_succ_le_succ hs) h₂
  | none =>
    obtain ⟨rfl, other⟩ := acceptAny_none h₁
    rw [none] at h₂
    obtain ⟨-, rfl⟩ := pure_eq_ok_iff.1 h₂
    cases hr : s.rest with
    | nil => exact any_same_of_no_tokens hk hr
    | cons t rest =>
      rw [State.next, hr]
      exact other t rest hr

/-- Behind a parser that moves forward the bound is still enough. -/
theorem StopsWithin.after {bound : Nat} (hp : Advances p)
    (hf : ∀ a, StopsWithin bound kinds (f a)) : StopsWithin bound kinds (p >>= f) := by
  intro s b s' hs h
  obtain ⟨a, s₁, h₁, h₂⟩ := bind_eq_ok_iff.1 h
  exact hf a s₁ b s' (Nat.le_trans (hp.ok h₁).rest.length_le hs) h₂

/-- What returns nothing else behind a loop ends where the loop does. -/
theorem StopsWithin.map {bound : Nat} (hp : StopsWithin bound kinds p) (g : α → β) :
    StopsWithin bound kinds (p >>= fun a => pure (g a)) := by
  intro s b s' hs h
  obtain ⟨a, s₁, h₁, h₂⟩ := bind_eq_ok_iff.1 h
  obtain ⟨-, rfl⟩ := pure_eq_ok_iff.1 h₂
  exact hp s a s₁ hs h₁

/-- As a bound the number of tokens left is enough. -/
theorem unread_stops {f : Nat → Parser β} (h : ∀ bound, StopsWithin bound kinds (f bound)) :
    Stops kinds (unread >>= f) := fun s b s' hb => h s.rest.length s b s' (Nat.le_refl _) hb

/-- What is done first does not tell where the parser stops. -/
theorem Stops.after (hf : ∀ a, Stops kinds (f a)) : Stops kinds (p >>= f) := by
  intro s b s' h
  obtain ⟨a, s₁, -, h₂⟩ := bind_eq_ok_iff.1 h
  exact hf a s₁ b s' h₂

/-- The items of a list are read on while there are commas. -/
theorem moreItems_stops (hp : Advances p) {tooMany : Cause} :
    ∀ bound count, StopsWithin bound [.punct .comma] (moreItems p tooMany bound count)
  | 0, _ => pure_stops rfl
  | bound + 1, count => by
    refine acceptAny_stops rfl rfl fun _ => ?_
    have round : StopsWithin bound [.punct .comma]
        (do let a ← p; let more ← moreItems p tooMany bound (count + 1); return a :: more) :=
      .after hp fun a => (moreItems_stops hp bound (count + 1)).map (a :: ·)
    by_cases hc : count ≥ maxArity
    · simp only [hc, if_true]
      exact .after note_advances fun _ => round
    · simp only [hc, if_false]
      exact round

/-- A list of items stops where no comma comes next. -/
theorem separated_stops (hp : Advances p) {tooMany : Cause} :
    Stops [.punct .comma] (separated p tooMany) := by
  refine .after fun first => unread_stops fun bound => ?_
  exact (moreItems_stops hp bound 1).map (first :: ·)

variable {unary expression : Parser Expr}

/-- Operands of a tier are read on while there are operators of it. -/
theorem moreOperands_stops (hu : Advances unary) (tier : Tier) :
    ∀ bound e, StopsWithin bound tier.ops (moreOperands tier.node tier.ops unary bound e)
  | 0, _ => pure_stops (Pairing.ops_inner tier)
  | bound + 1, _ => acceptAny_stops (Pairing.ops_inner tier) rfl fun _ =>
    .after hu fun _ => moreOperands_stops hu tier bound _

/-- A tier stops where none of its operators comes next. -/
theorem tier_stops (hu : Advances unary) (tier : Tier) : Stops tier.ops (tier.parser unary) := by
  cases ht : tier.tighter? with
  | none =>
    -- The tightest level has no operators.
    cases tier <;> cases ht
    exact fun _ _ _ _ => rfl
  | some tier' =>
    rw [Tier.parser_eq ht]
    exact .after fun first => unread_stops fun bound =>
      moreOperands_stops (tier_advances hu tier') tier bound first

/-- A callee is read on while there are arguments or names behind it. -/
theorem suffixes_stops (he : Advances expression) :
    ∀ bound e, StopsWithin bound [.punct .leftParen, .punct .dot] (suffixes expression bound e)
  | 0, _ => pure_stops rfl
  | bound + 1, _ => by
    refine acceptAny_stops rfl rfl fun mark => ?_
    by_cases hm : mark.kind.same (.punct .leftParen)
    · simp only [hm, if_true]
      exact .after (parenthesised_advances he) fun _ => suffixes_stops he bound _
    · simp only [hm]
      exact .after expect_advances fun _ => suffixes_stops he bound _

/-- Every loop of the rules stops only where nothing goes on with it. -/
theorem Loop.stops (h : Loop kinds p) : Stops kinds p := by
  cases h with
  | parameters => exact separated_stops expect_advances
  | arguments fuel => exact separated_stops (expression_advances fuel)
  | operators tier fuel => exact tier_stops (unary_assignment_advances fuel).1 tier
  | suffixes fuel =>
    exact .after fun first => unread_stops fun bound =>
      suffixes_stops (expression_advances fuel) bound first

end Loops

/-! ## The parser comes to an end -/

/-- A program is read to the end of its input. -/
theorem declarations_finish (tokens : List Token) (n : NodeId) :
    ∃ ss s, declarations tokens.length (.start tokens n) = .ok ss s ∧ s.atEnd = true ∧
      (State.start tokens n).Reaches s := by
  have start : twice.state (.start tokens n) (.start tokens n) := rfl
  have room := State.ahead_le (.start tokens n)
  obtain ⟨ss, -, s, -, h, -, -, reaches, -⟩ :=
    Pairing.declarations_paired twice_recovers (Pairing.absorbs_none _) start room room
  exact ⟨ss, s, h, (Between.start.onwards (Nat.le_refl _) h).2, reaches⟩

/-- **The parser makes progress and comes to an end**, whatever tokens it is given. A program and a
single expression never come to the bottom of the recursion, whatever stands there, if the fuel and
the limit are those for their tokens or more; a program is read to the end of its input without
failing; and each loop within the rules ends at a token that does not go on with it. On the way
every declaration that begins before the end of the input ends further on, with or without a tree.
No rule moves back or reads an end of input: however it ends, what it has read are tokens from
the front of the list, and none of them an end. -/
theorem parser_comes_to_an_end (tokens : List Token) (n : NodeId) :
    (∀ bottom fuel limit, fuelFor tokens.length ≤ fuel → tokens.length ≤ limit →
      Parsers.upTo (fun _ => .atop .none bottom fuel) limit (.start tokens n) =
        declarations tokens.length (.start tokens n) ∧
      (Parsers.atop .none bottom fuel).sole (.start tokens n) =
        soleExpression (.start tokens n)) ∧
    (∃ ss s, declarations tokens.length (.start tokens n) = .ok ss s ∧ s.atEnd = true ∧
      (State.start tokens n).Reaches s ∧ parse tokens n = ⟨ss, s.errors, s.nextId⟩) ∧
    (∀ {α : Type} {kinds : List Kind} {p : Parser α}, Loop kinds p → Stops kinds p) ∧
    (∀ fuel (s : State), s.atEnd = false → ∃ first s',
      declaration (fuel + 1) s = .ok first s' ∧ s'.rest.length < s.rest.length) ∧
    (∀ {α : Type} {p : Parser α}, Rule p → ∀ s : State, s.Reaches (left p s)) ∧
    (∀ s : State, s.Reaches (left soleExpression s)) := by
  refine ⟨fun bottom fuel limit hf hl => ⟨program_atop bottom hf hl, sole_atop bottom hf⟩, ?_,
    Loop.stops, fun fuel s hs => declaration_consumes fuel hs, Rule.reaches,
    soleExpression_reaches⟩
  obtain ⟨ss, s, h, hend, reaches⟩ := declarations_finish tokens n
  exact ⟨ss, s, h, hend, reaches, parse_eq h⟩

/-- The tokens of `) var a end b`, with an end of input before the last, and none behind it. -/
example :
    let tokens : List Token := [⟨.punct .rightParen, ")", 1⟩, ⟨.keyword .var_, "var", 1⟩,
      ⟨.identifier, "a", 1⟩, .endOfInput 1, ⟨.identifier, "b", 1⟩]
    (parse tokens 0).errors = [⟨.missing .expression, ⟨.punct .rightParen, ")", 1⟩, 5⟩,
      ⟨.missing .variableEnd, .endOfInput 1, 2⟩] := by
  decide +kernel

end Grammar
end Lox
