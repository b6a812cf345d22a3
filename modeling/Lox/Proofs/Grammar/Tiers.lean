/-
# Levels of operators

The parser of each level is one and the same loop over the level's operators and the parser of the
next tighter level (`Tier.parser_eq`), and a token that extends an operand belongs to one level
(`tierOf?`): an operand ends where the next token belongs to a looser one (`Ends`).
-/

import Lox.Proofs.Grammar.Reading
import Lox.Proofs.Grammar.Rules

namespace Lox
namespace Grammar

namespace Tier

/-- No operator carries a literal. -/
theorem ops_isPlain (tier : Tier) : ∀ k ∈ tier.ops, k.isPlain = true := by
  cases tier <;> decide

/-- An operation is erased with its operands. -/
theorem erase_node (tier : Tier) (left : Expr) (op : Token) (right : Expr) :
    (tier.node left op right).erase = tier.node left.erase op right.erase := by
  cases tier <;> simp [node, Expr.erase]

/-- The parser of a level over the parser of its tightest operands. -/
def parser (unary : Parser Expr) : Tier → Parser Expr
  | disjunction => Grammar.disjunction unary
  | conjunction => Grammar.conjunction unary
  | equality => Grammar.equality unary
  | comparison => Grammar.comparison unary
  | sum => Grammar.sum unary
  | product => Grammar.product unary
  | sign => unary

/-- The parser of a level is the loop over its operators and the parser of the next tighter one. -/
theorem parser_eq {unary : Parser Expr} {tier tier' : Tier} (h : tier.tighter? = some tier') :
    tier.parser unary = leftAssoc tier.node tier.ops (tier'.parser unary) := by
  cases tier <;> cases h <;> rfl

end Tier

/-! ## Where operands end -/

/-- The level whose operands the token can extend, if there is one. -/
def tierOf? : Kind → Option Tier
  | .keyword .or_ => some .disjunction
  | .keyword .and_ => some .conjunction
  | .punct .bangEqual | .punct .equalEqual => some .equality
  | .punct .greater | .punct .greaterEqual | .punct .less | .punct .lessEqual => some .comparison
  | .punct .minus | .punct .plus => some .sum
  | .punct .slash | .punct .star => some .product
  | .punct .leftParen | .punct .dot => some .sign
  | _ => none

/-- The place of a level in the order from the loosest to the tightest. -/
def Tier.rank : Tier → Nat
  | disjunction => 0
  | conjunction => 1
  | equality => 2
  | comparison => 3
  | sum => 4
  | product => 5
  | sign => 6

/-- The next tighter level has the next higher rank. -/
theorem Tier.rank_tighter {tier tier' : Tier} (h : tier.tighter? = some tier') :
    tier'.rank = tier.rank + 1 := by
  cases tier <;> cases h <;> rfl

/-- What comes next extends no operand of the level. -/
def Ends (tier : Tier) (rest : List Token) : Prop :=
  ∀ t r tier', rest = t :: r → tierOf? t.kind = some tier' → tier'.rank < tier.rank

/-- What comes next extends no expression. -/
def Closed (rest : List Token) : Prop :=
  ∀ t r, rest = t :: r → tierOf? t.kind = none ∧ t.kind ≠ .punct .equal

/-- Where an operand of a level ends, one of the next tighter level ends as well. -/
theorem Ends.tighter {tier tier' : Tier} {rest : List Token} (h : Ends tier rest)
    (ht : tier.tighter? = some tier') : Ends tier' rest := fun t r tier'' hr hk => by
  have := h t r tier'' hr hk
  rw [Tier.rank_tighter ht]
  omega

/-- An operator extends the operands of its own level. -/
theorem tierOf?_of_mem (tier : Tier) : ∀ k ∈ tier.ops, tierOf? k = some tier := by
  cases tier <;> decide

/-- Where an operand of a level ends no operator of the level comes next. -/
theorem Ends.not_op {tier : Tier} {rest r : List Token} {t : Token} (h : Ends tier rest)
    (hr : rest = t :: r) : tier.ops.any t.kind.same = false := by
  rw [Bool.eq_false_iff]
  intro hm
  rw [Kind.any_same_iff_mem tier.ops_isPlain] at hm
  exact Nat.lt_irrefl _ (h t r tier hr (tierOf?_of_mem tier _ hm))

/-- Before an operator of a level the operands of the next tighter one end. -/
theorem ends_of_op {tier tier' : Tier} {op : Token} {rest : List Token}
    (ht : tier.tighter? = some tier') (hop : op.kind ∈ tier.ops) : Ends tier' (op :: rest) := by
  rintro t r tier'' ⟨⟩ hk
  rw [tierOf?_of_mem tier _ hop] at hk
  obtain rfl := Option.some.inj hk
  rw [Tier.rank_tighter ht]
  exact Nat.lt_succ_self _

/-- Where an expression ends, so does an operand of any level. -/
theorem Closed.ends {rest : List Token} (h : Closed rest) (tier : Tier) : Ends tier rest := by
  intro t r tier' hr hk
  rw [(h t r hr).1] at hk
  cases hk

end Grammar
end Lox
