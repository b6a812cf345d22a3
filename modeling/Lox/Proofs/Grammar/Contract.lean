/-
# Contracts of the parser

What can be relied on in every run of the parser is said of its small steps: of a token it reads, of
a number it takes, and of a phrase as soon as it can be said of the parts that the phrase is joined
from (`Contract`). Each rule keeps a contract if the parsers that it refers to keep it, and so the
tied parsers keep it whatever their fuel (`Contract.statement_declaration_keeps`). That a rule only
moves forward comes with every contract. That it reads a token for each tree, gives no number twice
and builds only well-formed trees are contracts of their own, and this walk over the rules carries
all of them.
-/

import Lox.Proofs.Grammar.Tiers

namespace Lox
namespace Grammar

/-! ## Phrases -/

/-- What the parser has in its hands: a token it read, a number it took, or what it made of them.
A statement that may stand as a branch or a body is told from a declaration. -/
inductive Phrase where
  | token (t : Token)
  | number (id : NodeId)
  | name (t : Token)
  | expr (e : Expr)
  | stmt (s : Stmt)
  | decl (s : Stmt)
  | routine (f : FunDecl)

namespace Phrase

/-- The phrases that the parser joins into one, in the order they were read in: the right sides of
its rules, less the marks between their parts. An invalid assignment target stands for itself and
the value behind it (`invalid`). -/
inductive Joins : List Phrase → Phrase → Prop
  | literal {t value} : Joins [token t] (expr (.literal value))
  | ident {t id} (h : t.kind = .identifier) : Joins [token t, number id] (expr (.ident id t))
  | receiver {t id} (h : t.kind = .keyword .this_) :
      Joins [token t, number id] (expr (.receiver id t))
  | grouping {e} : Joins [expr e] (expr (.grouping e))
  | unary {op e} (h : op.kind ∈ [.punct .bang, .punct .minus]) :
      Joins [expr e] (expr (.unary op e))
  | operation {tier tier' : Tier} {left op right} (ht : tier.tighter? = some tier')
      (h : op.kind ∈ tier.ops) : Joins [expr left, expr right] (expr (tier.node left op right))
  | assign {old id name value} :
      Joins [expr (.ident old name), expr value, number id] (expr (.assign id name value))
  | set {object name value} :
      Joins [expr (.get object name), expr value] (expr (.set object name value))
  | invalid {target value} : Joins [expr target, expr value] (expr target)
  | call {callee paren} {args : List Expr} :
      Joins (expr callee :: args.map expr) (expr (.call callee paren args))
  | get {object t} : Joins [expr object, name t] (expr (.get object t))
  | expression {e} : Joins [expr e] (stmt (.expression e))
  | print {e} : Joins [expr e] (stmt (.print e))
  | ret {keyword} {value : Option Expr} :
      Joins (token keyword :: value.toList.map expr) (stmt (.ret keyword value))
  | loop {cond body} : Joins [expr cond, stmt body] (stmt (.loop cond body))
  | ifThen {cond thenB} : Joins [expr cond, stmt thenB] (stmt (.branch cond thenB none))
  | ifElse {cond thenB elseB} :
      Joins [expr cond, stmt thenB, stmt elseB] (stmt (.branch cond thenB (some elseB)))
  | forLoop {init : Option Stmt} {cond step : Option Expr} {body} :
      Joins (init.toList.map decl ++ cond.toList.map expr ++ step.toList.map expr ++ [stmt body])
        (stmt (forLoop init cond step body))
  | block {brace} {body : List Stmt} :
      Joins (token brace :: body.map decl) (stmt (.block body))
  | plain {s} : Joins [stmt s] (decl s)
  | var {t} {init : Option Expr} : Joins (name t :: init.toList.map expr) (decl (.var t init))
  | function {f} : Joins [routine f] (decl (.function f))
  | classDecl {t} {methods : List FunDecl} :
      Joins (name t :: methods.map routine) (decl (.classDecl t methods))
  | routine {t} {params : List Token} {body : List Stmt} :
      Joins (name t :: params.map name ++ body.map decl) (routine ⟨t, params, body⟩)

end Phrase

/-! ## Contracts -/

/-- What can be said of the phrases made on the way from a state to a later one. -/
structure Contract where
  made : State → State → List Phrase → Prop
  nil {s s' : State} : s.Later s' → made s s' []
  token {s : State} {t : Token} {ts : List Token} : s.rest = t :: ts →
    made s { s with rest := ts } [.token t]
  name {s : State} {t : Token} {ts : List Token} : s.rest = t :: ts → t.kind = .identifier →
    made s { s with rest := ts } [.name t]
  number (s : State) : made s { s with nextId := s.nextId + 1 } [.number s.nextId]
  append {s s' s'' : State} {ps qs : List Phrase} : s.Later s' → s'.Later s'' →
    made s s' ps → made s' s'' qs → made s s'' (ps ++ qs)
  join {s s' : State} {ps : List Phrase} {p : Phrase} : Phrase.Joins ps p → made s s' ps →
    made s s' [p]
  deeper {s s' : State} {ps : List Phrase} : made { s with depth := s.depth + 1 } s' ps →
    made s { s' with depth := s'.depth - 1 } ps

namespace Contract

/-- With the phrases `ps` in its hands the parser goes on to those of its result. -/
structure Carries (C : Contract) {α : Type} (ps : List Phrase) (p : Parser α)
    (rs : α → List Phrase) : Prop where
  advances : Advances p
  made ⦃s₀ s : State⦄ ⦃a : α⦄ ⦃s' : State⦄ : s₀.Later s → C.made s₀ s ps → p s = .ok a s' →
    C.made s₀ s' (rs a)

/-- The parser keeps the contract, with the phrases that its result consists of. -/
abbrev Keeps (C : Contract) {α : Type} (p : Parser α) (rs : α → List Phrase) : Prop :=
  C.Carries [] p rs

/-- The parser carries the phrases on if it is run in front of the token. -/
structure CarriesBefore (C : Contract) {α : Type} (t : Token) (ps : List Phrase) (p : Parser α)
    (rs : α → List Phrase) : Prop where
  advances : Advances p
  made ⦃s₀ s : State⦄ ⦃a : α⦄ ⦃s' : State⦄ : s.next = t → s₀.Later s → C.made s₀ s ps →
    p s = .ok a s' → C.made s₀ s' (rs a)

section Parts

variable {C : Contract} {α β : Type} {p : Parser α} {f : α → Parser β} {g : α → Phrase}
  {ps : List Phrase} {qs : α → List Phrase} {rs : β → List Phrase} {t : Token}

/-- It is enough to follow a parser from the state it starts in. -/
theorem Keeps.intro (ha : Advances p) (h : ∀ s a s', p s = .ok a s' → C.made s s' (qs a)) :
    C.Keeps p qs where
  advances := ha
  made _ s a s' hs hm hp := C.append hs (ha.ok hp) hm (h s a s' hp)

/-- What a parser makes is added to what was there. -/
theorem Carries.part (hp : C.Keeps p qs) : C.Carries ps p fun a => ps ++ qs a where
  advances := hp.advances
  made _ s _ _ hs hm h :=
    C.append hs (hp.advances.ok h) hm (hp.made (.refl s) (C.nil (.refl s)) h)

/-- A parser of whose result nothing is said. -/
theorem Carries.step (hp : Advances p) : C.Carries ps p fun _ => ps where
  advances := hp
  made _ _ _ _ hs hm h := List.append_nil ps ▸ C.append hs (hp.ok h) hm (C.nil (hp.ok h))

/-- What follows has to carry on from the results that there can be. -/
theorem Carries.bind_of {R : α → Prop} (hp : C.Carries ps p qs)
    (hr : ∀ ⦃s a s'⦄, p s = .ok a s' → R a) (hf : ∀ a, R a → C.Carries (qs a) (f a) rs) :
    C.Carries ps (p >>= f) rs where
  advances := bind_advances_of hp.advances hr fun a ha => (hf a ha).advances
  made _ s b s' hs hm h := by
    obtain ⟨a, s₁, h₁, h⟩ := bind_eq_ok_iff.1 h
    exact (hf a (hr h₁)).made (hs.trans (hp.advances.ok h₁)) (hp.made hs hm h₁) h

/-- Parsers one behind the other carry the phrases through both. -/
theorem Carries.bind (hp : C.Carries ps p qs) (hf : ∀ a, C.Carries (qs a) (f a) rs) :
    C.Carries ps (p >>= f) rs :=
  hp.bind_of (fun _ _ _ _ => trivial) fun a _ => hf a

/-- Nothing is read for a result that stands for the phrases in hand. -/
theorem Carries.pure {a : α} (h : qs a = ps) : C.Carries ps (pure a) qs where
  advances := pure_advances
  made _ _ _ _ _ hm hp := by
    obtain ⟨rfl, rfl⟩ := pure_eq_ok_iff.1 hp
    exact h ▸ hm

/-- What was made is joined into one phrase at the end. -/
theorem Carries.join {a : α} (h : Phrase.Joins ps (g a)) :
    C.Carries ps (Pure.pure a) fun a => [g a] where
  advances := pure_advances
  made _ _ _ _ _ hm hp := by
    obtain ⟨rfl, rfl⟩ := pure_eq_ok_iff.1 hp
    exact C.join h hm

/-- What was made is joined into one phrase before the parser goes on. -/
theorem Carries.of_join {q : Phrase} (h : Phrase.Joins ps q) (hp : C.Carries [q] p qs) :
    C.Carries ps p qs where
  advances := hp.advances
  made _ _ _ _ hs hm hr := hp.made hs (C.join h hm) hr

/-- The result of the parser stands for a phrase of another form. -/
theorem Carries.as {g' : α → Phrase} (hp : C.Carries ps p fun a => [g a])
    (h : ∀ a, Phrase.Joins [g a] (g' a)) : C.Carries ps p fun a => [g' a] where
  advances := hp.advances
  made _ _ a _ hs hm hr := C.join (h a) (hp.made hs hm hr)

/-- A parser that fails has nothing to say of its result. -/
theorem Carries.fail {cause : Cause} : C.Carries ps (fail cause) qs where
  advances := fail_advances
  made _ _ _ _ _ _ h := by simp [Grammar.fail] at h

/-- Taking a number gives the phrase of that number. -/
theorem freshId_keeps : C.Keeps freshId fun id => [.number id] :=
  .intro freshId_advances fun s id s' h => by
    cases h
    exact C.number s

/-- A name that was expected and read is a phrase. -/
theorem expect_keeps {wanted : Wanted} : C.Keeps (expect .identifier wanted) fun t => [.name t] :=
  .intro expect_advances fun s t s' h => by
    obtain ⟨rest, hr, rfl, ht⟩ := expect_ok rfl h
    exact C.name hr ht

/-- What is accepted is of one of the kinds asked for. -/
theorem Carries.acceptAny {kinds : List Kind} {f : Option Token → Parser β}
    (hk : ∀ k ∈ kinds, k.isPlain = true) (hn : C.Carries ps (f none) rs)
    (hs : ∀ t : Token, t.kind ∈ kinds → C.Carries ps (f (some t)) rs) :
    C.Carries ps (acceptAny kinds >>= f) rs := by
  refine .bind_of (R := fun found => ∀ t ∈ found, t.kind ∈ kinds) (.step acceptAny_advances) ?_ ?_
  · intro s found s' h t ht
    obtain rfl := Option.mem_def.1 ht
    obtain ⟨-, -, -, hany⟩ := acceptAny_some h
    exact (Kind.any_same_iff_mem hk).1 hany
  · intro found hf
    cases found with
    | none => exact hn
    | some t => exact hs t (hf t rfl)

/-! What is known of a token that was only looked at is kept until it is read. -/

/-- Looking at the next token carries the phrases if what is done before each token does. -/
theorem Carries.peek {f : Token → Parser β} (h : ∀ t, C.CarriesBefore t ps (f t) rs) :
    C.Carries ps (peek >>= f) rs where
  advances := bind_advances peek_advances fun t => (h t).advances
  made _ s _ _ hs hm hp := (h s.next).made rfl hs hm (peek_bind f ▸ hp)

/-- What is carried in every state is carried before a token. -/
theorem CarriesBefore.of (h : C.Carries ps p qs) : C.CarriesBefore t ps p qs where
  advances := h.advances
  made _ _ _ _ _ hs hm hp := h.made hs hm hp

/-- The token is read, and the parser has it in its hands. -/
theorem CarriesBefore.read {f : Unit → Parser β} (ht : t.kind ≠ .endOfInput)
    (h : C.Carries (ps ++ [.token t]) (f ()) rs) : C.CarriesBefore t ps (skip >>= f) rs where
  advances := bind_advances skip_advances fun _ => h.advances
  made s₀ s b s' hn hs hm hp := by
    have l := skip_advances s
    have read : C.made s₀ { s with rest := s.rest.tail } (ps ++ [.token t]) :=
      C.append hs l hm (C.token (rest_eq_of_next hn ht))
    exact h.made (hs.trans l) read (skip_bind f ▸ hp)

/-- The token is read and not needed. -/
theorem CarriesBefore.pass {f : Unit → Parser β} (h : C.Carries ps (f ()) rs) :
    C.CarriesBefore t ps (skip >>= f) rs :=
  .of (.bind (.step skip_advances) fun _ => h)

/-- One level deeper a parser keeps what it keeps. -/
theorem nested_keeps (hp : C.Keeps p qs) : C.Keeps (nested p) qs :=
  .intro (nested_advances hp.advances) fun s a s' h => by
    obtain ⟨-, s₁, h₁, rfl⟩ := nested_ok h
    exact C.deeper (hp.made (.refl _) (C.nil (.refl _)) h₁)

/-- A parser that may be given up keeps the contract, with no phrase if it was. -/
theorem recovering_keeps (hp : C.Keeps p fun a => [g a]) :
    C.Keeps (recovering p) fun found => found.toList.map g :=
  .intro (recovering_advances hp.advances) fun s found s' h => by
    have later := (recovering_advances hp.advances).ok h
    unfold recovering at h
    cases h₁ : p s with
    | ok a s₁ =>
      simp only [h₁, EStateM.Result.ok.injEq] at h
      obtain ⟨rfl, rfl⟩ := h
      exact hp.made (.refl s) (C.nil (.refl s)) h₁
    | error e s₁ =>
      simp only [h₁, EStateM.Result.ok.injEq] at h
      obtain ⟨rfl, rfl⟩ := h
      exact C.nil later

/-- The items behind commas are the phrases of each. -/
theorem moreItems_keeps (hp : C.Keeps p fun a => [g a]) {tooMany : Cause} : ∀ fuel count,
    C.Keeps (moreItems p tooMany fuel count) (List.map g)
  | 0, _ => .pure rfl
  | fuel + 1, count => .bind (.step acceptAny_advances) fun found => by
    cases found with
    | none => exact .pure rfl
    | some comma =>
      have rest : C.Keeps (do
          let a ← p
          let more ← moreItems p tooMany fuel (count + 1)
          return a :: more) (List.map g) :=
        .bind hp fun _ => .bind (.part (moreItems_keeps hp fuel (count + 1))) fun _ => .pure rfl
      by_cases hm : count ≥ maxArity
      · simp only [hm, if_true]
        exact .bind (.step note_advances) fun _ => rest
      · simp only [hm, if_false]
        exact rest

/-- The items of a list are the phrases of each. -/
theorem separated_keeps (hp : C.Keeps p fun a => [g a]) {tooMany : Cause} :
    C.Keeps (separated p tooMany) (List.map g) :=
  .bind hp fun _ => .bind (.step unread_advances) fun n =>
    .bind (.part (moreItems_keeps hp n 1)) fun _ => .pure rfl

/-- The items of a list in parentheses are the phrases of each. -/
theorem parenthesised_keeps (hp : C.Keeps p fun a => [g a]) {tooMany : Cause} {wanted : Wanted} :
    C.Keeps (parenthesised p tooMany wanted) fun r => r.1.map g := by
  refine .bind (.step sees_advances) fun empty => ?_
  have rest : ∀ items : List α, C.Carries (items.map g)
      (expect (.punct .rightParen) wanted >>= fun paren => Pure.pure (items, paren))
      fun r => r.1.map g := fun _ => .bind (.step expect_advances) fun _ => .pure rfl
  cases empty with
  | true => exact .bind (.pure rfl) rest
  | false => exact .bind (separated_keeps hp) rest

end Parts

/-! ## Expressions -/

section Expressions

variable {C : Contract} {unary assignment expression : Parser Expr}

/-- An operand with the operators and operands behind it is one expression. -/
theorem moreOperands_keeps {tier tier' : Tier} (ht : tier.tighter? = some tier')
    (hu : C.Keeps unary fun e => [.expr e]) : ∀ fuel e,
    C.Carries [.expr e] (moreOperands tier.node tier.ops unary fuel e) fun e => [.expr e]
  | 0, _ => .pure rfl
  | fuel + 1, _ => .acceptAny tier.ops_isPlain (.pure rfl) fun _ hop =>
    .bind (.part hu) fun _ => .of_join (.operation ht hop) (moreOperands_keeps ht hu fuel _)

/-- A tier keeps the contract if the next tighter one does. -/
theorem leftAssoc_keeps (tier : Tier) {tier' : Tier} (ht : tier.tighter? = some tier')
    (h : C.Keeps (tier'.parser unary) fun e => [.expr e]) :
    C.Keeps (tier.parser unary) fun e => [.expr e] := by
  rw [Tier.parser_eq ht]
  exact .bind h fun e => .bind (.step unread_advances) fun n => moreOperands_keeps ht h n e

/-- The levels keep the contract one after the other, from the tightest to the loosest. -/
theorem tier_keeps (hu : C.Keeps unary fun e => [.expr e]) (tier : Tier) :
    C.Keeps (tier.parser unary) fun e => [.expr e] := by
  have product : C.Keeps (product unary) fun e => [.expr e] := leftAssoc_keeps .product rfl hu
  have sum : C.Keeps (sum unary) fun e => [.expr e] := leftAssoc_keeps .sum rfl product
  have comparison : C.Keeps (comparison unary) fun e => [.expr e] :=
    leftAssoc_keeps .comparison rfl sum
  have equality : C.Keeps (equality unary) fun e => [.expr e] :=
    leftAssoc_keeps .equality rfl comparison
  have conjunction : C.Keeps (conjunction unary) fun e => [.expr e] :=
    leftAssoc_keeps .conjunction rfl equality
  cases tier with
  | disjunction => exact leftAssoc_keeps .disjunction rfl conjunction
  | conjunction => exact conjunction
  | equality => exact equality
  | comparison => exact comparison
  | sum => exact sum
  | product => exact product
  | sign => exact hu

/-- The rule of assignments keeps the contract, valid target or not. -/
theorem assignmentRule_keeps (hu : C.Keeps unary fun e => [.expr e])
    (ha : C.Keeps assignment fun e => [.expr e]) :
    C.Keeps (assignmentRule unary assignment) fun e => [.expr e] := by
  refine .bind (tier_keeps hu .disjunction) fun target => ?_
  refine .bind (.step acceptAny_advances) fun found => ?_
  cases found with
  | none => exact .pure rfl
  | some equals =>
    refine .bind (.part ha) fun value => ?_
    cases target with
    | ident id name => exact .bind (.part freshId_keeps) fun _ => .join .assign
    | get object name => exact .join .set
    | _ => exact .bind (.step noteAt_advances) fun _ => .join .invalid

/-- The rule of constants, names and groups keeps it. -/
theorem primary_keeps (he : C.Keeps expression fun e => [.expr e]) :
    C.Keeps (primary expression) fun e => [.expr e] := by
  refine .peek fun t => ?_
  have constant : ∀ value, t.kind ≠ .endOfInput →
      C.CarriesBefore t [] (skip >>= fun _ => Pure.pure (Expr.literal value)) fun e => [.expr e] :=
    fun _ ht => .read ht (.join .literal)
  split
  case h_6 hk =>
    exact .read (by simp [hk]) (.bind (.part freshId_keeps) fun _ => .join (.receiver hk))
  case h_7 hk =>
    exact .read (by simp [hk]) (.bind (.part freshId_keeps) fun _ => .join (.ident hk))
  case h_8 => exact .pass (.bind he fun _ => .bind (.step expect_advances) fun _ => .join .grouping)
  case h_9 => exact .of .fail
  all_goals
    rename_i hk
    exact constant _ (by simp [hk])

/-- A callee with the arguments and names behind it is one expression. -/
theorem suffixes_keeps (he : C.Keeps expression fun e => [.expr e]) : ∀ fuel e,
    C.Carries [.expr e] (suffixes expression fuel e) fun e => [.expr e]
  | 0, _ => .pure rfl
  | fuel + 1, e => .bind (.step acceptAny_advances) fun found => by
    cases found with
    | none => exact .pure rfl
    | some mark =>
      by_cases hm : mark.kind.same (.punct .leftParen)
      · simp only [hm, if_true]
        exact .bind (.part (parenthesised_keeps he)) fun r =>
          .of_join .call (suffixes_keeps he fuel (.call e r.2 r.1))
      · simp only [hm]
        exact .bind (.part expect_keeps) fun name =>
          .of_join .get (suffixes_keeps he fuel (.get e name))

/-- The rule of calls keeps the contract. -/
theorem call_keeps (he : C.Keeps expression fun e => [.expr e]) :
    C.Keeps (call expression) fun e => [.expr e] :=
  .bind (primary_keeps he) fun e => .bind (.step unread_advances) fun n => suffixes_keeps he n e

/-- The rule of signs keeps the contract. -/
theorem unaryRule_keeps (hu : C.Keeps unary fun e => [.expr e])
    (he : C.Keeps expression fun e => [.expr e]) :
    C.Keeps (unaryRule unary expression) fun e => [.expr e] :=
  .acceptAny (by decide) (call_keeps he) fun _ hop => .bind hu fun _ => .join (.unary hop)

end Expressions

/-- Tied, the rules of signs and of assignments keep the contract, by induction on the fuel. -/
theorem unary_assignment_keeps (C : Contract) : ∀ fuel,
    (C.Keeps (unary fuel) fun e => [.expr e]) ∧ C.Keeps (assignment fuel) fun e => [.expr e]
  | 0 => ⟨.fail, .fail⟩
  | fuel + 1 => by
    obtain ⟨hu, ha⟩ := unary_assignment_keeps C fuel
    exact ⟨unaryRule_keeps (nested_keeps hu) (nested_keeps ha), assignmentRule_keeps hu ha⟩

/-- An expression that is returned is kept in every contract. -/
theorem expression_keeps (C : Contract) (fuel : Nat) :
    C.Keeps (expression fuel) fun e => [.expr e] :=
  nested_keeps (unary_assignment_keeps C fuel).2

/-! ## Statements and declarations -/

section Statements

variable {C : Contract} {expression : Parser Expr} {statement : Parser Stmt}
  {block : Parser (List Stmt)} {function : Parser FunDecl} {methods : Parser (List FunDecl)}
  {kind : Kind} {r : Routine} {keyword : Token}

/-- An expression that may be missing keeps it. -/
theorem optionalBefore_keeps (he : C.Keeps expression fun e => [.expr e]) :
    C.Keeps (optionalBefore kind expression) fun found => found.toList.map .expr := by
  refine .bind (.step sees_advances) fun seen => ?_
  cases seen with
  | true => exact .pure rfl
  | false => exact .bind he fun _ => .pure rfl

/-- The rule of variables keeps the contract. -/
theorem varRule_keeps (he : C.Keeps expression fun e => [.expr e]) :
    C.Keeps (varRule expression) fun s => [.decl s] := by
  refine .bind expect_keeps fun name => .bind (.step acceptAny_advances) fun found => ?_
  have rest : ∀ init : Option Expr, C.Carries (.name name :: init.toList.map .expr)
      (expect (.punct .semicolon) .variableEnd >>= fun _ => Pure.pure (Stmt.var name init))
      fun s => [.decl s] := fun _ => .bind (.step expect_advances) fun _ => .join .var
  cases found with
  | some t => exact .bind (.part he) fun e => .bind (.pure rfl) fun init => rest init
  | none => exact .bind (.pure rfl) fun init => rest init

/-- The rule of expression statements keeps it. -/
theorem expressionRule_keeps (he : C.Keeps expression fun e => [.expr e]) :
    C.Keeps (expressionRule expression) fun s => [.stmt s] :=
  .bind he fun _ => .bind (.step expect_advances) fun _ => .join .expression

/-- The rule of `print` keeps it. -/
theorem printRule_keeps (he : C.Keeps expression fun e => [.expr e]) :
    C.Keeps (printRule expression) fun s => [.stmt s] :=
  .bind he fun _ => .bind (.step expect_advances) fun _ => .join .print

/-- Behind the word `return` the rule of return statements keeps it. -/
theorem returnRule_keeps (he : C.Keeps expression fun e => [.expr e]) :
    C.Carries [.token keyword] (returnRule keyword expression) fun s => [.stmt s] :=
  .bind (.part (optionalBefore_keeps he)) fun _ => .bind (.step expect_advances) fun _ => .join .ret

/-- The rule of `while` keeps the contract. -/
theorem whileRule_keeps (he : C.Keeps expression fun e => [.expr e])
    (hs : C.Keeps statement fun s => [.stmt s]) :
    C.Keeps (whileRule expression statement) fun s => [.stmt s] :=
  .bind (.step expect_advances) fun _ => .bind he fun _ => .bind (.step expect_advances) fun _ =>
    .bind (.part hs) fun _ => .join .loop

/-- The rule of `if` keeps the contract. -/
theorem ifRule_keeps (he : C.Keeps expression fun e => [.expr e])
    (hs : C.Keeps statement fun s => [.stmt s]) :
    C.Keeps (ifRule expression statement) fun s => [.stmt s] := by
  refine .bind (.step expect_advances) fun _ => .bind he fun cond => ?_
  refine .bind (.step expect_advances) fun _ => .bind (.part hs) fun thenB => ?_
  refine .bind (.step acceptAny_advances) fun found => ?_
  cases found with
  | some t => exact .bind (.part hs) fun _ => .join .ifElse
  | none => exact .join .ifThen

/-- The initializer of a `for` loop keeps it, if there is one. -/
theorem forInit_keeps (he : C.Keeps expression fun e => [.expr e]) :
    C.Keeps (forInit expression) fun found => found.toList.map .decl := by
  refine .bind (.step acceptAny_advances) fun found => ?_
  cases found with
  | none => exact .bind ((expressionRule_keeps he).as fun _ => .plain) fun _ => .pure rfl
  | some mark =>
    by_cases hm : mark.kind.same (.punct .semicolon)
    · simp only [hm, if_true]
      exact .pure rfl
    · simp only [hm]
      exact .bind (varRule_keeps he) fun _ => .pure rfl

/-- The rule of `for` keeps the contract. -/
theorem forRule_keeps (he : C.Keeps expression fun e => [.expr e])
    (hs : C.Keeps statement fun s => [.stmt s]) :
    C.Keeps (forRule expression statement) fun s => [.stmt s] := by
  refine .bind (.step expect_advances) fun _ => .bind (forInit_keeps he) fun init => ?_
  refine .bind (.part (optionalBefore_keeps he)) fun cond => ?_
  refine .bind (.step expect_advances) fun _ => ?_
  refine .bind (.part (optionalBefore_keeps he)) fun step => ?_
  refine .bind (.step expect_advances) fun _ => ?_
  exact .bind (.part hs) fun body => .join .forLoop

/-- The rule of statements keeps the contract if the rules it refers to do. -/
theorem statementRule_keeps (he : C.Keeps expression fun e => [.expr e])
    (hs : C.Keeps statement fun s => [.stmt s]) (hb : C.Keeps block (List.map .decl)) :
    C.Keeps (statementRule expression statement block) fun s => [.stmt s] := by
  refine .peek fun t => ?_
  split
  case h_1 => exact .pass (forRule_keeps he hs)
  case h_2 => exact .pass (ifRule_keeps he hs)
  case h_3 => exact .pass (whileRule_keeps he hs)
  case h_4 hk => exact .read (by simp [hk]) (returnRule_keeps he)
  case h_5 hk => exact .read (by simp [hk]) (.bind (.part hb) fun _ => .join .block)
  case h_6 => exact .pass (printRule_keeps he)
  case h_7 => exact .of (expressionRule_keeps he)

/-- The rule of functions and methods keeps the contract. -/
theorem routineRule_keeps (hb : C.Keeps block (List.map .decl)) :
    C.Keeps (routineRule r block) fun f => [.routine f] :=
  .bind expect_keeps fun _ => .bind (.step expect_advances) fun _ =>
    .bind (.part (parenthesised_keeps expect_keeps)) fun _ =>
      .bind (.step expect_advances) fun _ => .bind (.part hb) fun _ => .join .routine

/-- The rule of classes keeps the contract. -/
theorem classRule_keeps (hm : C.Keeps methods (List.map .routine)) :
    C.Keeps (classRule methods) fun s => [.decl s] :=
  .bind expect_keeps fun _ => .bind (.step expect_advances) fun _ =>
    .bind (.part hm) fun _ => .bind (.step expect_advances) fun _ => .join .classDecl

/-- The rule of declarations keeps the contract if the rules it refers to do. -/
theorem declarationRule_keeps (he : C.Keeps expression fun e => [.expr e])
    (hs : C.Keeps statement fun s => [.stmt s]) (hf : C.Keeps function fun f => [.routine f])
    (hm : C.Keeps methods (List.map .routine)) :
    C.Keeps (declarationRule expression statement function methods) fun s => [.decl s] := by
  refine .peek fun t => ?_
  split
  case h_1 => exact .pass (classRule_keeps hm)
  case h_2 => exact .pass (.bind hf fun _ => .join .function)
  case h_3 => exact .pass (varRule_keeps he)
  case h_4 => exact .of (hs.as fun _ => .plain)

end Statements

/-- **Every tied parser keeps every contract**, whatever its fuel. -/
theorem statement_declaration_keeps (C : Contract) : ∀ fuel,
    (C.Keeps (statement fuel) fun s => [.stmt s]) ∧
    (C.Keeps (declaration fuel) fun found => found.toList.map .decl) ∧
    C.Keeps (block fuel) (List.map .decl) ∧ C.Keeps (methods fuel) (List.map .routine)
  | 0 => ⟨.fail, .fail, .fail, .fail⟩
  | fuel + 1 => by
    obtain ⟨hs, hd, hb, hm⟩ := statement_declaration_keeps C fuel
    have he := expression_keeps C fuel
    refine ⟨nested_keeps (statementRule_keeps he hs hb),
      recovering_keeps (declarationRule_keeps he hs (routineRule_keeps hb) hm),
      .bind (.step bodyOver_advances) fun ended => ?_,
      .bind (.step bodyOver_advances) fun ended => ?_⟩
    · cases ended with
      | true => exact .bind (.step expect_advances) fun _ => .pure rfl
      | false => exact .bind hd fun _ => .bind (.part hb) fun _ => .pure List.map_append
    · cases ended with
      | true => exact .pure rfl
      | false =>
        exact .bind (routineRule_keeps hb) fun _ => .bind (.part hm) fun _ => .pure rfl

/-- The declarations of a program are kept in every contract. -/
theorem declarations_keeps (C : Contract) : ∀ limit,
    C.Keeps (declarations limit) (List.map .decl)
  | 0 => .pure rfl
  | limit + 1 => .bind (.step atEnd_advances) fun ended => by
    cases ended with
    | true => exact .pure rfl
    | false =>
      exact .bind (.step unread_advances) fun n => .bind (statement_declaration_keeps C _).2.1
        fun _ => .bind (.part (declarations_keeps C limit)) fun _ => .pure List.map_append

/-- An expression that stands alone is kept in every contract. -/
theorem soleExpression_keeps (C : Contract) : C.Keeps soleExpression fun e => [.expr e] :=
  .bind (.step unread_advances) fun n => .bind (expression_keeps C (fuelFor n)) fun _ =>
    .bind (.step atEnd_advances) fun ended => by
      cases ended with
      | true => exact .pure rfl
      | false => exact .fail

end Contract

/-! ## Moving forward -/

/-- The contract that asks for nothing, which leaves that the parser only moves forward. -/
def moving : Contract where
  made _ _ _ := True
  nil _ := trivial
  token _ := trivial
  name _ _ := trivial
  number _ := trivial
  append _ _ _ _ := trivial
  join _ _ := trivial
  deeper _ := trivial

section Moving

variable {α : Type} {p : Parser α} {tooMany : Cause} {wanted : Wanted}
  {unary assignment expression : Parser Expr} {statement : Parser Stmt}
  {block : Parser (List Stmt)} {function : Parser FunDecl} {methods : Parser (List FunDecl)}
  {kind : Kind} {r : Routine} {keyword : Token}

/-- A parser that moves forward keeps the contract, whatever its result consists of. -/
theorem Advances.keeps (hp : Advances p) {rs : α → List Phrase} : moving.Keeps p rs :=
  .intro hp fun _ _ _ _ => trivial

/-- A list of items only moves forward if each item does. -/
theorem moreItems_advances (hp : Advances p) (fuel count : Nat) :
    Advances (moreItems p tooMany fuel count) :=
  (Contract.moreItems_keeps (C := moving) (g := fun _ => .number 0) hp.keeps fuel count).advances

/-- The same of a list in parentheses. -/
theorem parenthesised_advances (hp : Advances p) : Advances (parenthesised p tooMany wanted) :=
  (Contract.parenthesised_keeps (C := moving) (g := fun _ => .number 0) hp.keeps).advances

/-- The operands of a tier only move forward. -/
theorem moreOperands_advances {tier tier' : Tier} (ht : tier.tighter? = some tier')
    (hu : Advances unary) (fuel : Nat) (e : Expr) :
    Advances (moreOperands tier.node tier.ops unary fuel e) :=
  (Contract.moreOperands_keeps (C := moving) ht hu.keeps fuel e).advances

/-- Every tier of binary operators only moves forward. -/
theorem tier_advances (hu : Advances unary) (tier : Tier) : Advances (tier.parser unary) :=
  (Contract.tier_keeps (C := moving) hu.keeps tier).advances

theorem primary_advances (he : Advances expression) : Advances (primary expression) :=
  (Contract.primary_keeps (C := moving) he.keeps).advances

/-- The arguments and names behind a callee only move forward. -/
theorem suffixes_advances (he : Advances expression) (fuel : Nat) (e : Expr) :
    Advances (suffixes expression fuel e) :=
  (Contract.suffixes_keeps (C := moving) he.keeps fuel e).advances

theorem call_advances (he : Advances expression) : Advances (call expression) :=
  (Contract.call_keeps (C := moving) he.keeps).advances

/-- Signs and assignments only move forward, with any fuel. -/
theorem unary_assignment_advances (fuel : Nat) :
    Advances (Grammar.unary fuel) ∧ Advances (Grammar.assignment fuel) :=
  ⟨(moving.unary_assignment_keeps fuel).1.advances, (moving.unary_assignment_keeps fuel).2.advances⟩

/-- Expressions only move forward, with any fuel. -/
theorem expression_advances (fuel : Nat) : Advances (Grammar.expression fuel) :=
  (moving.expression_keeps fuel).advances

theorem optionalBefore_advances (he : Advances expression) :
    Advances (optionalBefore kind expression) :=
  (Contract.optionalBefore_keeps (C := moving) he.keeps).advances

theorem varRule_advances (he : Advances expression) : Advances (varRule expression) :=
  (Contract.varRule_keeps (C := moving) he.keeps).advances

theorem expressionRule_advances (he : Advances expression) :
    Advances (expressionRule expression) :=
  (Contract.expressionRule_keeps (C := moving) he.keeps).advances

theorem printRule_advances (he : Advances expression) : Advances (printRule expression) :=
  (Contract.printRule_keeps (C := moving) he.keeps).advances

theorem returnRule_advances (he : Advances expression) :
    Advances (returnRule keyword expression) :=
  (Contract.returnRule_keeps (C := moving) he.keeps).advances

theorem whileRule_advances (he : Advances expression) (hs : Advances statement) :
    Advances (whileRule expression statement) :=
  (Contract.whileRule_keeps (C := moving) he.keeps hs.keeps).advances

theorem ifRule_advances (he : Advances expression) (hs : Advances statement) :
    Advances (ifRule expression statement) :=
  (Contract.ifRule_keeps (C := moving) he.keeps hs.keeps).advances

theorem forInit_advances (he : Advances expression) : Advances (forInit expression) :=
  (Contract.forInit_keeps (C := moving) he.keeps).advances

theorem forRule_advances (he : Advances expression) (hs : Advances statement) :
    Advances (forRule expression statement) :=
  (Contract.forRule_keeps (C := moving) he.keeps hs.keeps).advances

theorem routineRule_advances (hb : Advances block) : Advances (routineRule r block) :=
  (Contract.routineRule_keeps (C := moving) hb.keeps).advances

theorem classRule_advances (hm : Advances methods) : Advances (classRule methods) :=
  (Contract.classRule_keeps (C := moving) hm.keeps).advances

/-- The rule of declarations only moves forward if the rules it refers to do. -/
theorem declarationRule_advances (he : Advances expression) (hs : Advances statement)
    (hf : Advances function) (hm : Advances methods) :
    Advances (declarationRule expression statement function methods) :=
  (Contract.declarationRule_keeps (C := moving) he.keeps hs.keeps hf.keeps hm.keeps).advances

/-- **Every tied parser only moves forward**, whatever its fuel. -/
theorem statement_declaration_advances (fuel : Nat) : Advances (Grammar.statement fuel) ∧
    Advances (declaration fuel) ∧ Advances (Grammar.block fuel) ∧
      Advances (Grammar.methods fuel) := by
  obtain ⟨hs, hd, hb, hm⟩ := moving.statement_declaration_keeps fuel
  exact ⟨hs.advances, hd.advances, hb.advances, hm.advances⟩

/-- The declarations of a program only move forward. -/
theorem declarations_advances (limit : Nat) : Advances (declarations limit) :=
  (moving.declarations_keeps limit).advances

/-- An expression that stands alone only moves forward. -/
theorem soleExpression_advances : Advances soleExpression := moving.soleExpression_keeps.advances

end Moving

end Grammar
end Lox
