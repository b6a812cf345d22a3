/-
# Expressions side by side

Each rule for expressions inherits agreement from the parsers it refers to. Those that it only
calls behind a token need to agree with one token fewer ahead.
-/

import Lox.Proofs.Grammar.Pairing.Parts

namespace Lox
namespace Grammar

namespace Pairing

section Expressions

variable {P : Pairing} {n : Nat} {s : State} {unary unary' assignment assignment' expression
  expression' : Parser Expr}

/-- Trees with the tokens and numbers that the pairing relates in the same places. -/
abbrev Exprs (P : Pairing) : Expr → Expr → Prop := Expr.Alike P.token P.number

/-- Operations of one level with related parts are alike. -/
theorem node_alike (tier : Tier) {l l' r r' : Expr} {op op' : Token} (hl : P.Exprs l l')
    (ho : P.token op op') (hr : P.Exprs r r') : P.Exprs (tier.node l op r) (tier.node l' op' r') := by
  cases tier <;> first | exact .logical hl ho hr | exact .binary hl ho hr

theorem ops_inner (tier : Tier) : Inner tier.ops := by
  cases tier <;> rfl

/-- At the end of the input the loop of a level returns what it has. -/
theorem moreOperands_over {tier : Tier} {fuel : Nat} {e : Expr} (h : s.atEnd = true) :
    moreOperands tier.node tier.ops unary fuel e s = .ok e s := by
  cases fuel with
  | zero => rfl
  | succ fuel => exact bind_of_ok (acceptAny_over (ops_inner tier) h)

/-- The loops of a level agree if the parsers of its operands do, a token further on. -/
theorem moreOperands_agree (tier : Tier) {fuel fuel' : Nat} {e e' : Expr}
    (hu : P.Agree (n - 1) unary unary' P.Exprs) (he : P.Exprs e e') (hf : n ≤ fuel + 1)
    (hf' : n ≤ fuel' + 1) :
    P.Agree n (moreOperands tier.node tier.ops unary fuel e)
      (moreOperands tier.node tier.ops unary' fuel' e') P.Exprs := by
  induction fuel generalizing n fuel' e e' with
  | zero =>
    exact .of_over (fun _ => moreOperands_over) (fun _ => moreOperands_over) he fun h => by omega
  | succ fuel ih =>
    refine .of_over (fun _ => moreOperands_over) (fun _ => moreOperands_over) he fun hn => ?_
    obtain ⟨fuel', rfl⟩ : ∃ k, fuel' = k + 1 := ⟨fuel' - 1, by omega⟩
    refine .accept (ops_inner tier) (.pure he) fun op op' ho => ?_
    exact hu.bind fun r r' hr =>
      ih hu.pred (node_alike tier he ho hr) (by omega) (by omega)

/-- The parsers of a level agree if those of the tightest operands do. -/
theorem tier_agree (hu : P.Agree n unary unary' P.Exprs) (tier : Tier) :
    P.Agree n (tier.parser unary) (tier.parser unary') P.Exprs := by
  have level : ∀ (tier : Tier) {tier' : Tier}, tier.tighter? = some tier' →
      P.Agree n (tier'.parser unary) (tier'.parser unary') P.Exprs →
      P.Agree n (tier.parser unary) (tier.parser unary') P.Exprs := by
    intro tier tier' ht h
    rw [Tier.parser_eq ht, Tier.parser_eq ht]
    refine h.bind fun e e' he => .unread fun k m m' hk hm hm' => ?_
    exact moreOperands_agree tier (h.mono (Nat.le_trans (Nat.sub_le k 1) hk)) he hm hm'
  have product := level .product rfl hu
  have sum := level .sum rfl product
  have comparison := level .comparison rfl sum
  have equality := level .equality rfl comparison
  have conjunction := level .conjunction rfl equality
  cases tier with
  | disjunction => exact level .disjunction rfl conjunction
  | conjunction => exact conjunction
  | equality => exact equality
  | comparison => exact comparison
  | sum => exact sum
  | product => exact product
  | sign => exact hu

/-- The rules of assignments agree; the value stands behind a token. -/
theorem assignmentRule_agree (hu : P.Agree n unary unary' P.Exprs)
    (ha : P.Agree (n - 1) assignment assignment' P.Exprs) :
    P.Agree n (assignmentRule unary assignment) (assignmentRule unary' assignment') P.Exprs := by
  refine (tier_agree hu .disjunction).bind fun target target' ht => ?_
  refine .accept rfl (.pure ht) fun equals equals' heq => ha.bind fun value value' hv => ?_
  cases ht with
  | ident _ hn => exact freshId_agree.bind fun _ _ hi => .pure (.assign hi hn hv)
  | get ho hn => exact .pure (.set ho hn hv)
  | _ => exact (noteAt_agree rfl heq).bind fun _ _ _ => .pure (by constructor <;> assumption)

/-- The rules of primary forms agree; a group stands behind its parenthesis. -/
theorem primary_agree (he : P.Agree (n - 1) expression expression' P.Exprs) :
    P.Agree n (primary expression) (primary expression') P.Exprs := by
  refine .peek fun t t' hk ht => ?_
  have literal : t.kind ≠ .endOfInput → ∀ value, P.AgreeBefore n t t'
      (do skip; return .literal value) (do skip; return .literal value) P.Exprs :=
    fun hn value => .skip hn (.pure (.literal value))
  rw [hk]
  cases kind : t.kind with
  | keyword k =>
    have hn : t.kind ≠ .endOfInput := by simp [kind]
    cases k with
    | false_ => exact literal hn _
    | true_ => exact literal hn _
    | nil_ => exact literal hn _
    | this_ => exact .skip hn (freshId_agree.bind fun _ _ hi => .pure (.receiver hi (ht hn)))
    | _ => exact Agree.fail.before
  | punct p =>
    cases p with
    | leftParen =>
      exact .skip (by simp [kind]) (he.bind fun e e' h => .expect rfl fun _ _ _ =>
        .pure (.grouping h))
    | _ => exact Agree.fail.before
  | number x => exact literal (by simp [kind]) _
  | string s => exact literal (by simp [kind]) _
  | identifier =>
    have hn : t.kind ≠ .endOfInput := by simp [kind]
    exact .skip hn (freshId_agree.bind fun _ _ hi => .pure (.ident hi (ht hn)))
  | endOfInput => exact Agree.fail.before

/-- At the end of the input the loop over calls and properties returns what it has. -/
theorem suffixes_over {fuel : Nat} {e : Expr} (h : s.atEnd = true) :
    suffixes expression fuel e s = .ok e s := by
  cases fuel with
  | zero => rfl
  | succ fuel => exact bind_of_ok (acceptAny_over rfl h)

/-- The loops over calls and properties agree; arguments stand behind a parenthesis. -/
theorem suffixes_agree {fuel fuel' : Nat} {e e' : Expr}
    (hx : P.Agree (n - 1) expression expression' P.Exprs) (he : P.Exprs e e')
    (hf : n ≤ fuel + 1) (hf' : n ≤ fuel' + 1) :
    P.Agree n (suffixes expression fuel e) (suffixes expression' fuel' e') P.Exprs := by
  induction fuel generalizing n fuel' e e' with
  | zero => exact .of_over (fun _ => suffixes_over) (fun _ => suffixes_over) he fun h => by omega
  | succ fuel ih =>
    refine .of_over (fun _ => suffixes_over) (fun _ => suffixes_over) he fun hn => ?_
    obtain ⟨fuel', rfl⟩ : ∃ k, fuel' = k + 1 := ⟨fuel' - 1, by omega⟩
    refine .accept rfl (.pure he) fun mark mark' hm => ?_
    simp only [(P.faithful _ _ hm).kind]
    by_cases hp : mark.kind.same (.punct .leftParen)
    · simp only [hp, if_true]
      refine (parenthesised_agree rfl hx).bind fun r r' ⟨hargs, hparen⟩ => ?_
      exact ih hx.pred (.call he hparen (.of_forall hargs)) (by omega) (by omega)
    · simp only [hp]
      refine .expect rfl fun name name' hn => ?_
      exact ih hx.pred (.get he hn) (by omega) (by omega) |>.pred

/-- The rules of calls agree. -/
theorem call_agree (he : P.Agree (n - 1) expression expression' P.Exprs) :
    P.Agree n (call expression) (call expression') P.Exprs := by
  refine (primary_agree he).bind fun e e' h => .unread fun k m m' hk hm hm' => ?_
  exact suffixes_agree (he.mono (Nat.sub_le_sub_right hk 1)) h hm hm'

/-- The rules of signs agree; an operand stands behind its sign. -/
theorem unaryRule_agree (hu : P.Agree (n - 1) unary unary' P.Exprs)
    (he : P.Agree (n - 1) expression expression' P.Exprs) :
    P.Agree n (unaryRule unary expression) (unaryRule unary' expression') P.Exprs :=
  .accept rfl (call_agree he) fun _ _ ho => hu.bind fun _ _ h => .pure (.unary ho h)

/-- A pairing is kept by the parsers of expressions with one fuel on both sides, enough or not. -/
theorem unary_assignment_agree : ∀ fuel n, P.Agree n (Grammar.unary fuel) (Grammar.unary fuel) P.Exprs ∧
    P.Agree n (Grammar.assignment fuel) (Grammar.assignment fuel) P.Exprs
  | 0, _ => ⟨.fail, .fail⟩
  | fuel + 1, n =>
    have same := unary_assignment_agree fuel n
    ⟨unaryRule_agree (nested_agree same.1.pred) (nested_agree same.2.pred),
      assignmentRule_agree same.1 same.2.pred⟩

end Expressions

end Pairing

end Grammar
end Lox
