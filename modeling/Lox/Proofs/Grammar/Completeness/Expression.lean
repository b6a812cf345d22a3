/-
# What is derived, the parsers accept: expressions

A parser that is given tokens with a derivation, and behind them a token that cannot continue it,
reads exactly those tokens and returns the tree of the derivation up to node numbers. The proof is
one recursion over the derivations. The rules that group from the left are loops in the parser, so
their statement is about the loop: having read a derived operand, it goes on from there with that
operand on its left.
-/

import Lox.Proofs.Grammar.Completeness.Reads
import Lox.Proofs.Grammar.Tiers

namespace Lox
namespace Grammar

open Derives

/-! ## Where expressions begin -/

/-- The kinds of token that an expression begins with. -/
def opensExpression : Kind → Bool
  | .punct .bang | .punct .minus | .punct .leftParen => true
  | .keyword .true_ | .keyword .false_ | .keyword .nil_ | .keyword .this_ => true
  | .number _ | .string _ | .identifier => true
  | _ => false

section Heads

variable {arity : Nat}

/-- A call begins with a token that opens an expression and is no sign. -/
theorem call_head : ∀ {d ts e}, Call arity d ts e →
    ∃ t r, ts = t :: r ∧ opensExpression t.kind = true ∧ t.kind ≠ .punct .bang ∧
      t.kind ≠ .punct .minus
  | _, _, _, .primary h => by
    cases h <;> rename_i hk
    case group => exact ⟨_, _, rfl, by simp [opensExpression, *]⟩
    all_goals exact ⟨_, _, rfl, by simp [opensExpression, hk]⟩
  | _, _, _, .apply h .. => by
    obtain ⟨t, r, rfl, ht⟩ := call_head h
    exact ⟨t, _, rfl, ht⟩
  | _, _, _, .property h .. => by
    obtain ⟨t, r, rfl, ht⟩ := call_head h
    exact ⟨t, _, rfl, ht⟩

/-- An operation begins with a token that opens an expression. -/
theorem operation_head : ∀ {d tier ts e}, Operation arity d tier ts e →
    ∃ t r, ts = t :: r ∧ opensExpression t.kind = true
  | _, _, _, _, .sign h => by
    cases h with
    | bang hk _ => exact ⟨_, _, rfl, by rw [hk]; rfl⟩
    | minus hk _ => exact ⟨_, _, rfl, by rw [hk]; rfl⟩
    | call h =>
      obtain ⟨t, r, rfl, ht, -⟩ := call_head h
      exact ⟨t, r, rfl, ht⟩
  | _, _, _, _, .operand _ h => operation_head h
  | _, _, _, _, .more _ h .. => by
    obtain ⟨t, r, rfl, ht⟩ := operation_head h
    exact ⟨t, _, rfl, ht⟩

/-- So does an expression. -/
theorem expression_head {d ts e} (h : Expression arity d ts e) :
    ∃ t r, ts = t :: r ∧ opensExpression t.kind = true := by
  cases h with
  | deeper h => cases h with
    | operation h => exact operation_head h
    | toName hname _ _ => exact ⟨_, _, rfl, by rw [hname]; rfl⟩
    | toProperty h _ _ _ _ =>
      obtain ⟨t, r, rfl, ht, -⟩ := call_head h
      exact ⟨t, _, rfl, ht⟩

/-- So does a list of arguments. -/
theorem argumentList_head {d ts es} (h : ArgumentList arity d ts es) :
    ∃ t r, ts = t :: r ∧ opensExpression t.kind = true := by
  cases h with
  | one h => exact expression_head h
  | more h _ _ =>
    obtain ⟨t, r, rfl, ht⟩ := expression_head h
    exact ⟨t, _, rfl, ht⟩

end Heads

/-! ## Loops -/

section Loops

variable {u expr : Parser Expr} {depth : Nat} {ts rest : List Token} {e : Expr}

/-- The loop of a level returns its left operand where nothing extends it. -/
theorem moreOperands_stop {tier : Tier} {operand : Parser Expr} {left : Expr} {n : NodeId}
    {errors : List Error} (h : Ends tier rest) : ∀ k,
    moreOperands tier.node tier.ops operand k left ⟨rest, depth, n, errors⟩ =
      .ok left ⟨rest, depth, n, errors⟩
  | 0 => rfl
  | k + 1 => by
    unfold moreOperands
    rw [bind_of_ok (acceptAny_miss fun t r hr => h.not_op hr)]
    rfl

/-- The loop of a level has read `ts`, with `e` on its left, and goes on from `rest`. -/
def LoopReads (tier tier' : Tier) (u : Parser Expr) (depth : Nat) (ts rest : List Token)
    (e : Expr) : Prop :=
  ∀ n errors, ∃ a n' k, tier.parser u ⟨ts ++ rest, depth, n, errors⟩ =
      moreOperands tier.node tier.ops (tier'.parser u) k a ⟨rest, depth, n', errors⟩ ∧
    a.erase = e ∧ rest.length ≤ k

/-- Where nothing extends it, what the loop has read is what the parser of the level reads. -/
theorem LoopReads.reads {tier tier' : Tier} (h : LoopReads tier tier' u depth ts rest e)
    (hr : Ends tier rest) : Reads (tier.parser u) Expr.erase depth ts rest e := by
  intro n errors
  obtain ⟨a, n', k, ha, he, -⟩ := h n errors
  exact ⟨a, n', by rw [ha, moreOperands_stop hr], he⟩

/-- The loop begins behind an operand of the next tighter level. -/
theorem LoopReads.of_operand {tier tier' : Tier} (ht : tier.tighter? = some tier')
    (h : Reads (tier'.parser u) Expr.erase depth ts rest e) :
    LoopReads tier tier' u depth ts rest e := by
  intro n errors
  obtain ⟨a, n', ha, he⟩ := h n errors
  refine ⟨a, n', rest.length, ?_, he, Nat.le_refl _⟩
  rw [Tier.parser_eq ht]
  unfold leftAssoc
  rw [bind_of_ok ha]
  rfl

/-- One more round of the loop reads an operator and an operand. -/
theorem LoopReads.more {tier tier' : Tier} {op : Token} {ts' : List Token} {right : Expr}
    (hl : LoopReads tier tier' u depth ts (op :: (ts' ++ rest)) e) (hop : op.kind ∈ tier.ops)
    (hr : Reads (tier'.parser u) Expr.erase depth ts' rest right) :
    LoopReads tier tier' u depth (ts ++ op :: ts') rest (tier.node e op right) := by
  intro n errors
  obtain ⟨a, n₁, k, ha, rfl, hk⟩ := hl n errors
  obtain ⟨b, n₂, hb, rfl⟩ := hr n₁ errors
  obtain ⟨k, rfl⟩ : ∃ j, k = j + 1 := Nat.exists_eq_add_one_of_ne_zero fun h => by simp [h] at hk
  refine ⟨tier.node a op b, n₂, k, ?_, Tier.erase_node .., ?_⟩
  · rw [List.append_assoc, List.cons_append, ha]
    have hit := (Kind.any_same_iff_mem tier.ops_isPlain).2 hop
    exact (bind_of_ok (acceptAny_hit hit)).trans (bind_of_ok hb)
  · simp only [List.length_cons, List.length_append] at hk
    omega

/-- Before `rest`, an operation of the level is read whole if nothing extends it, and by the loop
of the level if at least nothing extends its last operand. -/
def OperationReads (tier : Tier) (u : Parser Expr) (depth : Nat) (ts rest : List Token)
    (e : Expr) : Prop :=
  (Ends tier rest → Reads (tier.parser u) Expr.erase depth ts rest e) ∧
  ∀ tier', tier.tighter? = some tier' → Ends tier' rest → LoopReads tier tier' u depth ts rest e

/-- It is enough to show what the loop of the level reads. -/
theorem OperationReads.of_loop {tier tier' : Tier} (ht : tier.tighter? = some tier')
    (h : Ends tier' rest → LoopReads tier tier' u depth ts rest e) :
    OperationReads tier u depth ts rest e := by
  refine ⟨fun hr => (h (hr.tighter ht)).reads hr, fun tier'' ht' hr => ?_⟩
  obtain rfl := Option.some.inj (ht.symm.trans ht')
  exact h hr

/-- An operand alone is an operation of every level, where no operator follows. -/
theorem disjunction_reads (h : Reads u Expr.erase depth ts rest e) (hr : Ends .disjunction rest) :
    Reads (disjunction u) Expr.erase depth ts rest e := by
  have hr₁ : Ends .conjunction rest := hr.tighter rfl
  have hr₂ : Ends .equality rest := hr₁.tighter rfl
  have hr₃ : Ends .comparison rest := hr₂.tighter rfl
  have hr₄ : Ends .sum rest := hr₃.tighter rfl
  have hr₅ : Ends .product rest := hr₄.tighter rfl
  have sign : Reads (Tier.sign.parser u) Expr.erase depth ts rest e := h
  have product := (LoopReads.of_operand rfl sign).reads hr₅
  have sum := (LoopReads.of_operand rfl product).reads hr₄
  have comparison := (LoopReads.of_operand rfl sum).reads hr₃
  have equality := (LoopReads.of_operand rfl comparison).reads hr₂
  have conjunction := (LoopReads.of_operand rfl equality).reads hr₁
  exact (LoopReads.of_operand rfl conjunction).reads hr

/-- The loop over calls and properties has read `ts`, with `e` on its left, and goes on from
`rest`. -/
def CallReads (expr : Parser Expr) (depth : Nat) (ts rest : List Token) (e : Expr) : Prop :=
  ∀ n errors, ∃ a n' k, call expr ⟨ts ++ rest, depth, n, errors⟩ =
    suffixes expr k a ⟨rest, depth, n', errors⟩ ∧ a.erase = e ∧ rest.length ≤ k

/-- The loop begins behind a primary form. -/
theorem CallReads.of_primary (h : Reads (primary expr) Expr.erase depth ts rest e) :
    CallReads expr depth ts rest e := by
  intro n errors
  obtain ⟨a, n', ha, he⟩ := h n errors
  exact ⟨a, n', rest.length, bind_of_ok ha, he, Nat.le_refl _⟩

/-- Where no call or property comes next, what the loop has read is what the parser of calls reads.
-/
theorem CallReads.reads (h : CallReads expr depth ts rest e) (hr : Ends .sign rest) :
    Reads (call expr) Expr.erase depth ts rest e := by
  intro n errors
  obtain ⟨a, n', k, ha, he, -⟩ := h n errors
  refine ⟨a, n', ?_, he⟩
  rw [ha]
  cases k with
  | zero => rfl
  | succ k =>
    unfold suffixes
    rw [bind_of_ok (acceptAny_miss fun t r ht => ?_)]
    · rfl
    · rw [Bool.eq_false_iff]
      intro hm
      rw [Kind.any_same_iff_mem (by decide)] at hm
      have hk : tierOf? t.kind = some .sign := by
        rcases List.mem_cons.1 hm with hk | hk
        · rw [hk]; rfl
        · rw [List.mem_singleton.1 hk]; rfl
      exact Nat.lt_irrefl _ (hr t r .sign ht hk)

/-- One more round of the loop reads a property name. -/
theorem CallReads.property {object : Expr} {dot name : Token}
    (h : CallReads expr depth ts (dot :: name :: rest) object) (hdot : Mark .dot dot)
    (hname : Name name) : CallReads expr depth (ts ++ [dot, name]) rest (.get object name) := by
  intro n errors
  obtain ⟨a, n', k, ha, rfl, hk⟩ := h n errors
  obtain ⟨k, rfl⟩ : ∃ j, k = j + 1 := Nat.exists_eq_add_one_of_ne_zero fun h => by simp [h] at hk
  refine ⟨.get a name, n', k, ?_, by rw [Expr.erase], by simp at hk; omega⟩
  rw [List.append_assoc, List.cons_append, List.cons_append, List.nil_append, ha]
  refine (bind_of_ok (acceptAny_hit (by rw [hdot]; rfl))).trans ?_
  simp only [show dot.kind.same (.punct .leftParen) = false by rw [hdot]; rfl,
    Bool.false_eq_true, if_false]
  exact bind_of_ok (expect_hit rfl hname)

/-- One more round of the loop reads an argument list. -/
theorem CallReads.apply {callee : Expr} {lp rp : Token} {ts' : List Token} {args : List Expr}
    (h : CallReads expr depth ts (lp :: (ts' ++ rp :: rest)) callee) (hlp : Mark .leftParen lp)
    (hargs : Reads (parenthesised expr .tooManyArguments .argumentsEnd)
      (fun r => (r.1.map Expr.erase, r.2)) depth (ts' ++ [rp]) rest (args, rp)) :
    CallReads expr depth (ts ++ lp :: (ts' ++ [rp])) rest (.call callee rp args) := by
  intro n errors
  obtain ⟨a, n₁, k, ha, rfl, hk⟩ := h n errors
  obtain ⟨k, rfl⟩ : ∃ j, k = j + 1 := Nat.exists_eq_add_one_of_ne_zero fun h => by simp [h] at hk
  obtain ⟨⟨bs, rp'⟩, n₂, hb, he⟩ := hargs n₁ errors
  obtain ⟨rfl, rfl⟩ := Prod.mk.inj he
  refine ⟨.call a rp' bs, n₂, k, ?_, by rw [Expr.erase, Expr.eraseList_eq_map], ?_⟩
  · simp only [List.append_assoc, List.cons_append, List.nil_append] at ha hb ⊢
    rw [ha]
    refine (bind_of_ok (acceptAny_hit (by rw [hlp]; rfl))).trans ?_
    simp only [show lp.kind.same (.punct .leftParen) = true by rw [hlp]; rfl, if_true]
    exact bind_of_ok hb
  · simp only [List.length_cons, List.length_append] at hk
    omega

/-- A sign before what is read one level deeper. -/
theorem unary_reads_sign {fuel : Nat} {op : Token}
    (hop : op.kind ∈ [Kind.punct .bang, Kind.punct .minus]) (hd : depth < maxNesting)
    (h : Reads (unary fuel) Expr.erase (depth + 1) ts rest e) :
    Reads (unary (fuel + 1)) Expr.erase depth (op :: ts) rest (.unary op e) := by
  intro n errors
  obtain ⟨a, n', ha, rfl⟩ := nested_reads hd h n errors
  refine ⟨.unary op a, n', ?_, by rw [Expr.erase]⟩
  have hit := (Kind.any_same_iff_mem (by decide)).2 hop
  unfold unary unaryRule
  exact (bind_of_ok (acceptAny_hit hit)).trans (bind_of_ok ha)

/-- A call is an operand without a sign. -/
theorem unary_reads_call {fuel : Nat} {d arity : Nat} (h : Call arity d ts e)
    (hc : Reads (call (expression fuel)) Expr.erase depth ts rest e) :
    Reads (unary (fuel + 1)) Expr.erase depth ts rest e := by
  intro n errors
  obtain ⟨a, n', ha, he⟩ := hc n errors
  refine ⟨a, n', ?_, he⟩
  obtain ⟨t, r, rfl, -, hb, hm⟩ := call_head h
  unfold unary unaryRule
  rw [bind_of_ok (acceptAny_miss ?_)]
  · exact ha
  · rintro t' r' ⟨⟩
    rw [Bool.eq_false_iff]
    intro hk
    rw [Kind.any_same_iff_mem (by decide)] at hk
    rcases List.mem_cons.1 hk with hk | hk
    · exact hb hk
    · exact hm (List.mem_singleton.1 hk)

end Loops

/-! ## Primary forms -/

/-- A kind that opens an expression is not one that does not. -/
theorem opensExpression_ne {k k' : Kind} (h : opensExpression k = true)
    (h' : opensExpression k' = false) : k ≠ k' := by
  rintro rfl
  rw [h] at h'
  cases h'

/-- A mark or word that extends no operand and is not `=` closes an expression. -/
theorem closed_cons {t : Token} {k : Kind} (h : t.kind = k) (hk : tierOf? k = none)
    (hk' : k ≠ .punct .equal) {r : List Token} : Closed (t :: r) := by
  rintro t r ⟨⟩
  rw [h]
  exact ⟨hk, hk'⟩

/-- Before an equals sign the operands of every level end. -/
theorem ends_equal {t : Token} (h : Mark .equal t) (tier : Tier) {r : List Token} :
    Ends tier (t :: r) := by
  rintro t r tier' ⟨⟩ hk
  rw [h] at hk
  cases hk

/-- The kind of token that a constant is written as. -/
def literalKind : Literal → Kind
  | .nil => .keyword .nil_
  | .bool true => .keyword .true_
  | .bool false => .keyword .false_
  | .number x => .number x
  | .string s => .string s

/-- The token of a constant is read as the constant. -/
theorem primary_literal {expr : Parser Expr} {depth : Nat} {t : Token} {rest : List Token}
    (v : Literal) (h : t.kind = literalKind v) :
    Reads (primary expr) Expr.erase depth [t] rest (.literal v) := by
  intro n errors
  refine ⟨.literal v, n, ?_, by rw [Expr.erase]⟩
  have hnext : State.next ⟨[t] ++ rest, depth, n, errors⟩ = t := rfl
  unfold primary
  rw [peek_bind, hnext, h]
  cases v with
  | bool b => cases b <;> rfl
  | _ => rfl

/-- A name is read as the use of the name. -/
theorem primary_name {expr : Parser Expr} {depth : Nat} {t : Token} {rest : List Token}
    (h : Name t) : Reads (primary expr) Expr.erase depth [t] rest (.ident 0 t) := by
  intro n errors
  refine ⟨.ident n t, n + 1, ?_, by rw [Expr.erase]⟩
  have hnext : State.next ⟨[t] ++ rest, depth, n, errors⟩ = t := rfl
  unfold primary
  rw [peek_bind, hnext, h]
  rfl

/-- The word `this` is read as the receiver. -/
theorem primary_receiver {expr : Parser Expr} {depth : Nat} {t : Token} {rest : List Token}
    (h : Word .this_ t) : Reads (primary expr) Expr.erase depth [t] rest (.receiver 0 t) := by
  intro n errors
  refine ⟨.receiver n t, n + 1, ?_, by rw [Expr.erase]⟩
  have hnext : State.next ⟨[t] ++ rest, depth, n, errors⟩ = t := rfl
  unfold primary
  rw [peek_bind, hnext, h]
  rfl

/-- An expression in parentheses is read as a group. -/
theorem primary_group {expr : Parser Expr} {depth : Nat} {lp rp : Token} {ts rest : List Token}
    {e : Expr} (hlp : Mark .leftParen lp) (hrp : Mark .rightParen rp)
    (h : Reads expr Expr.erase depth ts (rp :: rest) e) :
    Reads (primary expr) Expr.erase depth (lp :: (ts ++ [rp])) rest (.grouping e) := by
  intro n errors
  obtain ⟨a, n', ha, rfl⟩ := h n errors
  refine ⟨.grouping a, n', ?_, by rw [Expr.erase]⟩
  have hnext : State.next ⟨lp :: (ts ++ [rp]) ++ rest, depth, n, errors⟩ = lp := rfl
  have hrest : (lp :: (ts ++ [rp]) ++ rest).tail = ts ++ rp :: rest := by simp
  unfold primary
  rw [peek_bind, hnext, hlp]
  simp only [skip_bind, hrest]
  exact (bind_of_ok ha).trans (bind_of_ok (expect_hit rfl hrp))

/-! ## Targets of assignments -/

/-- A name before an equals sign is read as an operation, which is what becomes of it as a target.
-/
theorem nameTarget_reads {fuel depth : Nat} {name eq : Token} {r : List Token} (hname : Name name)
    (heq : Mark .equal eq) :
    Reads (disjunction (unary (fuel + 1))) Expr.erase depth [name] (eq :: r) (.ident 0 name) := by
  have first : Call 0 0 [name] (.ident 0 name) := .primary (.name hname)
  refine disjunction_reads (unary_reads_call first ?_) (ends_equal heq _)
  exact (CallReads.of_primary (primary_name hname)).reads (ends_equal heq _)

/-- The same of a property. -/
theorem propertyTarget_reads {fuel depth arity d : Nat} {ts r : List Token} {object : Expr}
    {dot name eq : Token} (h : Call arity d ts object) (hdot : Mark .dot dot) (hname : Name name)
    (heq : Mark .equal eq)
    (hc : CallReads (expression fuel) depth ts (dot :: name :: eq :: r) object) :
    Reads (disjunction (unary (fuel + 1))) Expr.erase depth (ts ++ [dot, name]) (eq :: r)
      (.get object name) := by
  have property := (hc.property hdot hname).reads (ends_equal heq _)
  exact disjunction_reads (unary_reads_call (h.property hdot hname) property) (ends_equal heq _)

section Assignment

variable {unary assignment : Parser Expr} {depth : Nat} {ts ts' rest : List Token} {e value : Expr}
  {eq name : Token}

/-- An operation that nothing extends is read by the rule of assignments. -/
theorem assignmentRule_operation (h : Reads (disjunction unary) Expr.erase depth ts rest e)
    (hr : Closed rest) : Reads (assignmentRule unary assignment) Expr.erase depth ts rest e := by
  intro n errors
  obtain ⟨a, n', ha, he⟩ := h n errors
  refine ⟨a, n', ?_, he⟩
  have miss : ∀ t r, rest = t :: r → t.kind ≠ .punct .equal := fun t r ht => (hr t r ht).2
  exact (bind_of_ok ha).trans (bind_of_ok (accept_miss rfl miss))

/-- A name, an equals sign and a value are read as an assignment to the name. -/
theorem assignmentRule_toName (heq : Mark .equal eq)
    (h : Reads (disjunction unary) Expr.erase depth ts (eq :: (ts' ++ rest)) (.ident 0 name))
    (hv : Reads assignment Expr.erase depth ts' rest value) :
    Reads (assignmentRule unary assignment) Expr.erase depth (ts ++ eq :: ts') rest
      (.assign 0 name value) := by
  intro n errors
  obtain ⟨a, n₁, ha, he⟩ := h n errors
  obtain ⟨id, rfl⟩ := Expr.eq_ident_of_erase he
  obtain ⟨v, n₂, hn, rfl⟩ := hv n₁ errors
  refine ⟨.assign n₂ name v, n₂ + 1, ?_, by rw [Expr.erase]⟩
  rw [List.append_assoc, List.cons_append]
  exact (bind_of_ok ha).trans ((bind_of_ok (accept_hit rfl heq)).trans (bind_of_ok hn))

/-- A property, an equals sign and a value are read as an assignment to the property. -/
theorem assignmentRule_toProperty {object : Expr} {dot : Token} (heq : Mark .equal eq)
    (h : Reads (disjunction unary) Expr.erase depth (ts ++ [dot, name]) (eq :: (ts' ++ rest))
      (.get object name)) (hv : Reads assignment Expr.erase depth ts' rest value) :
    Reads (assignmentRule unary assignment) Expr.erase depth (ts ++ dot :: name :: eq :: ts') rest
      (.set object name value) := by
  intro n errors
  obtain ⟨a, n₁, ha, he⟩ := h n errors
  obtain ⟨object, rfl, rfl⟩ := Expr.eq_get_of_erase he
  obtain ⟨v, n₂, hn, rfl⟩ := hv n₁ errors
  refine ⟨.set object name v, n₂, ?_, by rw [Expr.erase]⟩
  simp only [List.append_assoc, List.cons_append, List.nil_append] at ha ⊢
  exact (bind_of_ok ha).trans ((bind_of_ok (accept_hit rfl heq)).trans (bind_of_ok hn))

end Assignment

/-! ## Expressions -/

mutual

/-- A derived sign with its operand is read before a token that extends no call. -/
theorem unary_reads : ∀ {d ts e}, Unary maxArity d ts e → ∀ {fuel depth rest},
    2 * ts.length ≤ fuel → depth + d ≤ maxNesting → Ends .sign rest →
    Reads (unary fuel) Expr.erase depth ts rest e
  | _, _, _, .bang hop h, fuel + 1, depth, rest, hf, hd, hr => by
    simp only [List.length_cons] at hf
    have operand := unary_reads h (by omega : _ ≤ fuel) (by omega : depth + 1 + _ ≤ _) hr
    exact unary_reads_sign (by rw [hop]; decide) (by omega) operand
  | _, _, _, .minus hop h, fuel + 1, depth, rest, hf, hd, hr => by
    simp only [List.length_cons] at hf
    have operand := unary_reads h (by omega : _ ≤ fuel) (by omega : depth + 1 + _ ≤ _) hr
    exact unary_reads_sign (by rw [hop]; decide) (by omega) operand
  | _, _, _, .call h, fuel, depth, rest, hf, hd, hr => by
    obtain ⟨t, r, hts, -⟩ := call_head h
    have hlen := congrArg List.length hts
    rw [List.length_cons] at hlen
    obtain ⟨fuel, rfl⟩ := Nat.exists_eq_add_one_of_ne_zero (n := fuel) (by omega)
    exact unary_reads_call h ((call_reads h hf hd).reads hr)

/-- A derived call is read by the loop over calls and properties. -/
theorem call_reads : ∀ {d ts e}, Call maxArity d ts e → ∀ {fuel depth rest},
    2 * ts.length ≤ fuel + 1 → depth + d ≤ maxNesting →
    CallReads (expression fuel) depth ts rest e
  | _, _, _, .primary h, fuel, depth, rest, hf, hd => .of_primary (primary_reads h hf hd)
  | _, _, _, .apply h hlp hargs hlen hrp, fuel, depth, rest, hf, hd => by
    simp only [List.length_append, List.length_cons] at hf
    exact (call_reads h (by omega) hd).apply hlp (arguments_reads hargs hlen hrp (by omega) hd)
  | _, _, _, .property h hdot hname, fuel, depth, rest, hf, hd => by
    simp only [List.length_append, List.length_cons] at hf
    exact (call_reads h (by omega) hd).property hdot hname

/-- A derived primary form is read before any token. -/
theorem primary_reads : ∀ {d ts e}, Primary maxArity d ts e → ∀ {fuel depth rest},
    2 * ts.length ≤ fuel + 1 → depth + d ≤ maxNesting →
    Reads (primary (expression fuel)) Expr.erase depth ts rest e
  | _, _, _, .number h, _, _, _, _, _ => primary_literal (.number _) h
  | _, _, _, .string h, _, _, _, _, _ => primary_literal (.string _) h
  | _, _, _, .true h, _, _, _, _, _ => primary_literal (.bool true) h
  | _, _, _, .false h, _, _, _, _, _ => primary_literal (.bool false) h
  | _, _, _, .nil h, _, _, _, _, _ => primary_literal .nil h
  | _, _, _, .receiver h, _, _, _, _, _ => primary_receiver h
  | _, _, _, .name h, _, _, _, _, _ => primary_name h
  | _, _, _, .group hlp h hrp, fuel, depth, rest, hf, hd => by
    simp only [List.length_append, List.length_cons] at hf
    exact primary_group hlp hrp
      (expression_reads h (by omega) hd (closed_cons hrp rfl (by decide)))

/-- Derived arguments are read with the parenthesis behind them, if there are no more than allowed.
-/
theorem arguments_reads : ∀ {d ts es}, Arguments maxArity d ts es → es.length ≤ maxArity →
    ∀ {rp}, Mark .rightParen rp → ∀ {fuel depth rest}, 2 * ts.length + 1 ≤ fuel →
    depth + d ≤ maxNesting →
    Reads (parenthesised (expression fuel) .tooManyArguments .argumentsEnd)
      (fun r => (r.1.map Expr.erase, r.2)) depth (ts ++ [rp]) rest (es, rp)
  | _, _, _, .none, _, rp, hrp, fuel, depth, rest, _, _ => parenthesised_none hrp
  | _, _, _, .some h, hlen, rp, hrp, fuel, depth, rest, hf, hd => by
    obtain ⟨t, r, hts, ht⟩ := argumentList_head h
    exact (argumentList_reads h hrp hf hd).parenthesised hlen
      ⟨t, r, hts, opensExpression_ne ht rfl⟩ hrp

/-- A derived list of arguments is read item by item. -/
theorem argumentList_reads : ∀ {d ts es}, ArgumentList maxArity d ts es →
    ∀ {rp}, Mark .rightParen rp → ∀ {fuel depth rest}, 2 * ts.length + 1 ≤ fuel →
    depth + d ≤ maxNesting →
    ListReads (expression fuel) Expr.erase .tooManyArguments depth ts (rp :: rest) es
  | _, _, _, .one h, rp, hrp, fuel, depth, rest, hf, hd => by
    refine .one (expression_reads h hf hd (closed_cons hrp rfl (by decide))) ?_
    rintro t r ⟨⟩
    rw [hrp]
    decide
  | _, _, _, .more h hcomma hmore, rp, hrp, fuel, depth, rest, hf, hd => by
    simp only [List.length_append, List.length_cons] at hf
    exact .more (expression_reads h (by omega) hd (closed_cons hcomma rfl (by decide))) hcomma
      (argumentList_reads hmore hrp (by omega) hd)

/-- A derived operation is read, whole or by the loop of its level. -/
theorem operation_reads : ∀ {d tier ts e}, Operation maxArity d tier ts e →
    ∀ {fuel depth rest}, 2 * ts.length ≤ fuel → depth + d ≤ maxNesting →
    OperationReads tier (unary fuel) depth ts rest e
  | _, _, _, _, .sign h, fuel, depth, rest, hf, hd =>
    ⟨unary_reads h hf hd, fun _ ht => by cases ht⟩
  | _, _, _, _, .operand ht h, fuel, depth, rest, hf, hd =>
    .of_loop ht fun hr => .of_operand ht ((operation_reads h hf hd).1 hr)
  | _, _, _, _, .more ht hl hop hright, fuel, depth, rest, hf, hd => by
    simp only [List.length_append, List.length_cons] at hf
    refine .of_loop ht fun hr => .more ?_ hop ?_
    · exact (operation_reads hl (by omega) hd).2 _ ht (ends_of_op ht hop)
    · exact (operation_reads hright (by omega) hd).1 hr

/-- A derived assignment is read before a token that extends no expression. -/
theorem assignment_reads : ∀ {d ts e}, Assignment maxArity d ts e → ∀ {fuel depth rest},
    2 * ts.length + 1 ≤ fuel → depth + d ≤ maxNesting → Closed rest →
    Reads (assignment fuel) Expr.erase depth ts rest e
  | _, _, _, .operation h, fuel + 1, depth, rest, hf, hd, hr =>
    assignmentRule_operation ((operation_reads h (by omega) hd).1 (hr.ends _)) hr
  | _, _, _, .toName hname heq h, fuel + 2, depth, rest, hf, hd, hr => by
    simp only [List.length_cons] at hf
    exact assignmentRule_toName heq (nameTarget_reads hname heq)
      (assignment_reads h (by omega) hd hr)
  | _, _, _, .toProperty hobject hdot hname heq h, fuel, depth, rest, hf, hd, hr => by
    simp only [List.length_append, List.length_cons] at hf
    obtain ⟨fuel, rfl⟩ : ∃ k, fuel = k + 2 := ⟨fuel - 2, by omega⟩
    exact assignmentRule_toProperty heq
      (propertyTarget_reads hobject hdot hname heq (call_reads hobject (by omega) hd))
      (assignment_reads h (by omega) hd hr)

/-- A derived expression is read before a token that extends no expression. -/
theorem expression_reads : ∀ {d ts e}, Expression maxArity d ts e → ∀ {fuel depth rest},
    2 * ts.length + 1 ≤ fuel → depth + d ≤ maxNesting → Closed rest →
    Reads (expression fuel) Expr.erase depth ts rest e
  | _, _, _, .deeper h, fuel, depth, rest, hf, hd, hr =>
    nested_reads (by omega) (assignment_reads h hf (by omega) hr)

end

end Grammar
end Lox
