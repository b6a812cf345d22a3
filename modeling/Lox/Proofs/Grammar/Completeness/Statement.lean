/-
# What is derived, the parsers accept: statements

Statements and declarations go the way of expressions. A statement that could still take an `else`
is read if none follows it; a declaration never has one behind it, because no declaration begins
with `else` (`declaration_head`).
-/

import Lox.Proofs.Grammar.Completeness.Expression

namespace Lox
namespace Grammar

open Derives

/-- The kinds of token that a statement begins with. -/
def beginsStatement (k : Kind) : Bool :=
  opensExpression k ||
    k ∈ [.keyword .for_, .keyword .if_, .keyword .while_, .keyword .return_, .punct .leftBrace,
      .keyword .print_]

/-- The kinds of token that a declaration begins with. -/
def beginsDeclaration (k : Kind) : Bool :=
  beginsStatement k || k ∈ [.keyword .class_, .keyword .fun_, .keyword .var_]

section Heads

variable {nearest : Bool} {arity : Nat}

/-- An expression statement begins with a token that opens an expression. -/
theorem exprStmt_head {d ts s} (h : ExprStmt arity d ts s) :
    ∃ t r, ts = t :: r ∧ opensExpression t.kind = true := by
  cases h with
  | intro h _ =>
    obtain ⟨t, r, rfl, ht⟩ := expression_head h
    exact ⟨t, _, rfl, ht⟩

/-- The declaration of a variable begins with `var`. -/
theorem varDecl_head {d ts s} (h : VarDecl arity d ts s) :
    ∃ kw ts', ts = kw :: ts' ∧ Word .var_ kw := by
  cases h with
  | plain hkw | initialized hkw => exact ⟨_, _, rfl, hkw⟩

/-- A statement begins with a token that begins statements. -/
theorem statement_head {d o ts s} (h : Statement nearest arity d o ts s) :
    ∃ t r, ts = t :: r ∧ beginsStatement t.kind = true := by
  cases h with
  | expression h =>
    obtain ⟨t, r, rfl, ht⟩ := exprStmt_head h
    exact ⟨t, r, rfl, by rw [beginsStatement, ht]; rfl⟩
  | print hk | ret hk | block hk | whileLoop hk | ifThen hk | ifElse hk | forLoop hk =>
    exact ⟨_, _, rfl, by rw [hk]; rfl⟩

/-- A declaration begins with a token that begins declarations, and `else` is none of these. -/
theorem declaration_head {d ts s} (h : Declaration nearest arity d ts s) :
    ∃ t r, ts = t :: r ∧ beginsDeclaration t.kind = true := by
  cases h with
  | classDecl hk | function hk => exact ⟨_, _, rfl, by rw [hk]; rfl⟩
  | var h =>
    obtain ⟨t, r, rfl, hk⟩ := varDecl_head h
    exact ⟨t, r, rfl, by rw [hk]; rfl⟩
  | statement h =>
    obtain ⟨t, r, rfl, ht⟩ := statement_head h
    exact ⟨t, r, rfl, by rw [beginsDeclaration, ht]; rfl⟩

end Heads

/-- A kind that begins declarations is not one that does not. -/
theorem beginsDeclaration_ne {k k' : Kind} (h : beginsDeclaration k = true)
    (h' : beginsDeclaration k' = false) : k ≠ k' := by
  rintro rfl
  rw [h] at h'
  cases h'

/-! ## Rules over the parsers they refer to -/

/-- No `else` comes next. -/
def NoElse (rest : List Token) : Prop := ∀ t r, rest = t :: r → t.kind ≠ .keyword .else_

section Rules

variable {expr : Parser Expr} {stmt : Parser Stmt} {block : Parser (List Stmt)}
  {methods : Parser (List FunDecl)} {depth : Nat} {ts rest : List Token}

/-- The parser of expressions reads what is derived before a token that closes an expression. -/
def ReadsExpressions (expr : Parser Expr) (depth d : Nat) (size : Nat) : Prop :=
  ∀ {ts e rest}, Expression maxArity d ts e → ts.length < size → Closed rest →
    Reads expr Expr.erase depth ts rest e

/-- A semicolon extends no expression. -/
theorem semicolon_closed {semi : Token} (h : Mark .semicolon semi) : Closed (semi :: rest) :=
  closed_cons h rfl (by decide)

/-- A closing parenthesis extends no expression. -/
theorem rightParen_closed {rp : Token} (h : Mark .rightParen rp) : Closed (rp :: rest) :=
  closed_cons h rfl (by decide)

/-- A derived expression statement is read by its rule. -/
theorem expressionRule_reads {d size s} (he : ReadsExpressions expr depth d size)
    (h : ExprStmt maxArity d ts s) (hsize : ts.length ≤ size) :
    Reads (expressionRule expr) Stmt.erase depth ts rest s := by
  cases h with
  | intro h hsemi =>
    simp only [List.length_append, List.length_singleton] at hsize
    refine (he h hsize (semicolon_closed hsemi)).bind fun e he => .closing rfl hsemi ?_
    rw [Stmt.erase, he]

/-- A derived declaration of a variable is read by its rule, behind the keyword. -/
theorem varRule_reads {d size s kw} (he : ReadsExpressions expr depth d size)
    (h : VarDecl maxArity d (kw :: ts) s) (hsize : ts.length ≤ size) :
    Reads (varRule expr) Stmt.erase depth ts rest s := by
  cases h with
  | plain _ hname hsemi =>
    refine .after rfl hname fun n errors => ⟨.var _ none, n, ?_, by rw [Stmt.erase]; rfl⟩
    refine (bind_of_ok (accept_miss rfl ?_)).trans (bind_of_ok (expect_hit rfl hsemi))
    rintro t r ⟨⟩
    rw [hsemi]
    decide
  | initialized _ hname heq h hsemi =>
    simp only [List.length_append, List.length_cons, List.length_nil] at hsize
    refine .after rfl hname fun n errors => ?_
    obtain ⟨e, n', he, rfl⟩ := he h (by omega) (semicolon_closed hsemi) n errors
    refine ⟨.var _ (some e), n', ?_, by rw [Stmt.erase]; rfl⟩
    rw [List.cons_append, List.append_assoc]
    refine (bind_of_ok (accept_hit rfl heq)).trans ?_
    exact (bind_of_ok he).trans (bind_of_ok (expect_hit rfl hsemi))

/-- An optional expression is read before the token that tells whether there is one. -/
theorem optionalBefore_reads {d size value t} {kind : Kind}
    (he : ReadsExpressions expr depth d size) (h : Optional (Expression maxArity d) ts value)
    (hsize : ts.length < size) (hk : kind.isPlain = true) (ht : t.kind = kind)
    (ho : opensExpression kind = false) (hc : Closed (t :: rest)) :
    Reads (optionalBefore kind expr) (Option.map Expr.erase) depth ts (t :: rest) value := by
  intro n errors
  unfold optionalBefore
  rw [sees_bind]
  cases h with
  | none =>
    have hsees : t.kind.same kind = true := (Kind.same_iff_eq hk).2 ht
    simp only [State.next, List.nil_append, List.headD_cons, hsees, if_true]
    exact ⟨none, n, rfl, rfl⟩
  | some h =>
    obtain ⟨e, n', ha, rfl⟩ := he h hsize hc n errors
    obtain ⟨t', r, rfl, ht'⟩ := expression_head h
    have hsees : ¬ t'.kind.same kind = true := fun hs =>
      opensExpression_ne ht' ho ((Kind.same_iff_eq hk).1 hs)
    simp only [State.next, List.cons_append, List.headD_cons, hsees]
    exact ⟨some e, n', bind_of_ok ha, rfl⟩

/-- The name of a parameter is read. -/
theorem parameterName_reads {name} (h : Name name) :
    Reads (expect .identifier .parameterName) id depth [name] rest name :=
  fun n _ => ⟨name, n, expect_hit rfl h, rfl⟩

/-- A list of parameters is read item by item. -/
theorem parameterList_reads {params rp} (h : ParameterList ts params) (hrp : Mark .rightParen rp) :
    ListReads (expect .identifier .parameterName) id .tooManyParameters depth ts (rp :: rest)
      params := by
  induction h with
  | one hname =>
    refine .one (parameterName_reads hname) ?_
    rintro t r ⟨⟩
    rw [hrp]
    decide
  | more hname hcomma _ ih => exact .more (parameterName_reads hname) hcomma ih

/-- Parameters are read with the parenthesis behind them, if there are no more than allowed. -/
theorem parameters_reads {params rp} (h : Parameters ts params) (hlen : params.length ≤ maxArity)
    (hrp : Mark .rightParen rp) :
    Reads (parenthesised (expect .identifier .parameterName) .tooManyParameters .parametersEnd)
      (fun r => (r.1.map id, r.2)) depth (ts ++ [rp]) rest (params, rp) := by
  cases h with
  | none => exact parenthesised_none hrp
  | some h =>
    obtain ⟨name, r, hts, hname⟩ : ∃ name r, ts = name :: r ∧ Name name := by
      cases h with
      | one hname | more hname => exact ⟨_, _, rfl, hname⟩
    refine (parameterList_reads h hrp).parenthesised hlen ⟨name, r, hts, ?_⟩ hrp
    rw [hname]
    decide

/-- The first clause of a `for` loop is read. -/
theorem forInit_reads {d size init} (he : ReadsExpressions expr depth d size)
    (h : ForInit maxArity d ts init) (hsize : ts.length ≤ size) :
    Reads (forInit expr) (fun s => s.toList.map Stmt.erase) depth ts rest init := by
  intro n errors
  cases h with
  | none hsemi =>
    refine ⟨none, n, (bind_of_ok (acceptAny_hit (by rw [hsemi]; rfl))).trans ?_, rfl⟩
    simp only [(Kind.same_iff_eq rfl).2 hsemi]
    rfl
  | var h =>
    obtain ⟨kw, ts, rfl, hkw⟩ := varDecl_head h
    rw [List.length_cons] at hsize
    obtain ⟨s, n', hs, rfl⟩ := varRule_reads he h (by omega) n errors
    refine ⟨some s, n', (bind_of_ok (acceptAny_hit (by rw [hkw]; rfl))).trans ?_, rfl⟩
    simp only [show kw.kind.same (.punct .semicolon) = false by rw [hkw]; rfl]
    exact bind_of_ok hs
  | expression h =>
    obtain ⟨t, r, rfl, ht⟩ := exprStmt_head h
    obtain ⟨s, n', hs, rfl⟩ := expressionRule_reads he h hsize n errors
    refine ⟨some s, n', (bind_of_ok (acceptAny_miss ?_)).trans (bind_of_ok hs), rfl⟩
    rintro t' r' ⟨⟩
    rw [Bool.eq_false_iff]
    intro hm
    rw [Kind.any_same_iff_mem (by decide)] at hm
    rcases List.mem_cons.1 hm with hk | hk
    · exact opensExpression_ne ht rfl hk
    · exact opensExpression_ne ht rfl (List.mem_singleton.1 hk)

/-- A `while` loop is read behind its keyword, if its body is. -/
theorem whileRule_reads {d size lp tc cond rp tb body} (he : ReadsExpressions expr depth d size)
    (hlp : Mark .leftParen lp) (h : Expression maxArity d tc cond) (hsize : tc.length < size)
    (hrp : Mark .rightParen rp) (hs : Reads stmt Stmt.erase depth tb rest body) :
    Reads (whileRule expr stmt) Stmt.erase depth (lp :: (tc ++ rp :: tb)) rest
      (.loop cond body) := by
  refine .after rfl hlp ((he h hsize (rightParen_closed hrp)).bind fun e he => ?_)
  refine .after rfl hrp (hs.map fun s hs => ?_)
  rw [Stmt.erase, he, hs]

/-- An `if` without `else` is read behind its keyword, if its branch is and no `else` comes next. -/
theorem ifRule_then {d size lp tc cond rp tb thenB} (he : ReadsExpressions expr depth d size)
    (hlp : Mark .leftParen lp) (h : Expression maxArity d tc cond) (hsize : tc.length < size)
    (hrp : Mark .rightParen rp) (hs : Reads stmt Stmt.erase depth tb rest thenB)
    (hr : NoElse rest) :
    Reads (ifRule expr stmt) Stmt.erase depth (lp :: (tc ++ rp :: tb)) rest
      (.branch cond thenB none) := by
  refine .after rfl hlp ((he h hsize (rightParen_closed hrp)).bind fun e he => .after rfl hrp ?_)
  intro n errors
  obtain ⟨s, n', hn, rfl⟩ := hs n errors
  refine ⟨.branch e s none, n', ?_, by rw [Stmt.erase, he]⟩
  exact (bind_of_ok hn).trans (bind_of_ok (accept_miss rfl hr))

/-- An `if` with `else` is read behind its keyword, if both branches are. -/
theorem ifRule_else {d size lp tc cond rp tb thenB els te elseB}
    (he : ReadsExpressions expr depth d size) (hlp : Mark .leftParen lp)
    (h : Expression maxArity d tc cond) (hsize : tc.length < size) (hrp : Mark .rightParen rp)
    (hs : Reads stmt Stmt.erase depth tb (els :: (te ++ rest)) thenB) (hels : Word .else_ els)
    (hs' : Reads stmt Stmt.erase depth te rest elseB) :
    Reads (ifRule expr stmt) Stmt.erase depth (lp :: (tc ++ rp :: (tb ++ els :: te))) rest
      (.branch cond thenB (some elseB)) := by
  refine .after rfl hlp ((he h hsize (rightParen_closed hrp)).bind fun e he => .after rfl hrp ?_)
  refine hs.bind fun s hs n errors => ?_
  obtain ⟨s', n', hn, rfl⟩ := hs' n errors
  refine ⟨.branch e s (some s'), n', ?_, by rw [Stmt.erase, he, hs]⟩
  exact (bind_of_ok (accept_hit rfl hels)).trans (bind_of_ok hn)

/-- A `for` loop is read behind its keyword, as its form in terms of `while`. -/
theorem forRule_reads {d size lp ti init tc cond semi tsp step rp tb body}
    (he : ReadsExpressions expr depth d size) (hlp : Mark .leftParen lp)
    (hi : ForInit maxArity d ti init) (hc : Optional (Expression maxArity d) tc cond)
    (hsemi : Mark .semicolon semi) (hp : Optional (Expression maxArity d) tsp step)
    (hrp : Mark .rightParen rp) (hsize : ti.length + tc.length + tsp.length < size)
    (hs : Reads stmt Stmt.erase depth tb rest body) :
    Reads (forRule expr stmt) Stmt.erase depth (lp :: (ti ++ (tc ++ semi :: (tsp ++ rp :: tb))))
      rest (whileForm init cond step body) := by
  refine .after rfl hlp ((forInit_reads he hi (by omega)).bind fun i hi => ?_)
  refine (optionalBefore_reads he hc (by omega) rfl hsemi rfl
    (semicolon_closed hsemi)).bind fun c hc => .after rfl hsemi ?_
  refine (optionalBefore_reads he hp (by omega) rfl hrp rfl
    (rightParen_closed hrp)).bind fun p hp => .after rfl hrp ?_
  refine hs.map fun s hs => ?_
  rw [erase_forLoop, hi, hc, hp, hs]

/-- A rule that has seen its first token goes on as another. -/
theorem Reads.dispatch {α γ : Type} {p q : Parser α} {f : α → γ} {t : Token} {a₀ : γ}
    (hq : Reads q f depth ts rest a₀)
    (h : ∀ n errors, p ⟨t :: (ts ++ rest), depth, n, errors⟩ = q ⟨ts ++ rest, depth, n, errors⟩) :
    Reads p f depth (t :: ts) rest a₀ := fun n errors => by
  rw [List.cons_append, h]
  exact hq n errors

/-- An expression statement is read by the rule of statements. -/
theorem statementRule_expression {d size s} (he : ReadsExpressions expr depth d size)
    (h : ExprStmt maxArity d ts s) (hsize : ts.length ≤ size) :
    Reads (statementRule expr stmt block) Stmt.erase depth ts rest s := by
  intro n errors
  obtain ⟨t, r, rfl, ht⟩ := exprStmt_head h
  have hdefault : statementRule expr stmt block ⟨t :: r ++ rest, depth, n, errors⟩ =
      expressionRule expr ⟨t :: r ++ rest, depth, n, errors⟩ := by
    unfold statementRule
    rw [peek_bind]
    simp only [State.next, List.cons_append, List.headD_cons]
    generalize t.kind = k at ht
    split <;> simp_all [opensExpression]
  rw [hdefault]
  exact expressionRule_reads he h hsize n errors

/-- A `print` statement is read by it. -/
theorem statementRule_print {d size kw e semi} (he : ReadsExpressions expr depth d size)
    (hkw : Word .print_ kw) (h : Expression maxArity d ts e) (hsize : ts.length < size)
    (hsemi : Mark .semicolon semi) :
    Reads (statementRule expr stmt block) Stmt.erase depth (kw :: (ts ++ [semi])) rest
      (.print e) := by
  have hread : Reads (printRule expr) Stmt.erase depth (ts ++ [semi]) rest (.print e) := by
    refine (he h hsize (semicolon_closed hsemi)).bind fun e he => .closing rfl hsemi ?_
    rw [Stmt.erase, he]
  exact hread.dispatch fun n errors => by cases kw; cases hkw; rfl

/-- A `return` statement is read by it. -/
theorem statementRule_return {d size kw value semi} (he : ReadsExpressions expr depth d size)
    (hkw : Word .return_ kw) (h : Optional (Expression maxArity d) ts value)
    (hsize : ts.length < size) (hsemi : Mark .semicolon semi) :
    Reads (statementRule expr stmt block) Stmt.erase depth (kw :: (ts ++ [semi])) rest
      (.ret kw value) := by
  have hread : Reads (returnRule kw expr) Stmt.erase depth (ts ++ [semi]) rest (.ret kw value) := by
    refine (optionalBefore_reads he h hsize rfl hsemi rfl
      (semicolon_closed hsemi)).bind fun v hv => .closing rfl hsemi ?_
    rw [Stmt.erase, hv]
  exact hread.dispatch fun n errors => by cases kw; cases hkw; rfl

/-- A `while` loop is read by it. -/
theorem statementRule_while {kw s} (hkw : Word .while_ kw)
    (h : Reads (whileRule expr stmt) Stmt.erase depth ts rest s) :
    Reads (statementRule expr stmt block) Stmt.erase depth (kw :: ts) rest s :=
  h.dispatch fun n errors => by cases kw; cases hkw; rfl

/-- An `if` is read by it. -/
theorem statementRule_if {kw s} (hkw : Word .if_ kw)
    (h : Reads (ifRule expr stmt) Stmt.erase depth ts rest s) :
    Reads (statementRule expr stmt block) Stmt.erase depth (kw :: ts) rest s :=
  h.dispatch fun n errors => by cases kw; cases hkw; rfl

/-- A `for` loop is read by it. -/
theorem statementRule_for {kw s} (hkw : Word .for_ kw)
    (h : Reads (forRule expr stmt) Stmt.erase depth ts rest s) :
    Reads (statementRule expr stmt block) Stmt.erase depth (kw :: ts) rest s :=
  h.dispatch fun n errors => by cases kw; cases hkw; rfl

/-- A block is read by it. -/
theorem statementRule_block {lb ss} (hlb : Mark .leftBrace lb)
    (h : Reads block (List.map Stmt.erase) depth ts rest ss) :
    Reads (statementRule expr stmt block) Stmt.erase depth (lb :: ts) rest (.block ss) := by
  have hread : Reads (block >>= fun body => pure (.block body)) Stmt.erase depth ts rest
      (.block ss) := h.map fun body hbody => by rw [Stmt.erase, Stmt.eraseList_eq_map, hbody]
  exact hread.dispatch fun n errors => by cases lb; cases hlb; rfl

/-- A function or method is read, if its body is and its parameters are no more than allowed. -/
theorem routineRule_reads {r name lp tp params rp lb body} (hname : Name name)
    (hlp : Mark .leftParen lp) (hp : Parameters tp params) (hlen : params.length ≤ maxArity)
    (hrp : Mark .rightParen rp) (hlb : Mark .leftBrace lb)
    (h : Reads block (List.map Stmt.erase) depth ts rest body) :
    Reads (routineRule r block) FunDecl.erase depth (name :: lp :: (tp ++ rp :: lb :: ts)) rest
      ⟨name, params, body⟩ := by
  refine .after rfl hname (.after rfl hlp ?_)
  rw [List.append_cons]
  refine (parameters_reads hp hlen hrp).bind fun ⟨ps, rp'⟩ hps =>
    .after rfl hlb (h.map fun b hb => ?_)
  obtain ⟨rfl, rfl⟩ := Prod.mk.inj hps
  rw [FunDecl.erase, Stmt.eraseList_eq_map, hb, List.map_id]

/-- A class is read behind its keyword, if its methods are. -/
theorem classRule_reads {name lb rb fs} (hname : Name name) (hlb : Mark .leftBrace lb)
    (hrb : Mark .rightBrace rb)
    (h : Reads methods (List.map FunDecl.erase) depth ts (rb :: rest) fs) :
    Reads (classRule methods) Stmt.erase depth (name :: lb :: (ts ++ [rb])) rest
      (.classDecl name fs) := by
  refine .after rfl hname (.after rfl hlb (h.bind fun ms hms => .closing rfl hrb ?_))
  rw [Stmt.erase, FunDecl.eraseList_eq_map, hms]

variable {function : Parser FunDecl}

/-- A class is read by the rule of declarations. -/
theorem declarationRule_class {kw s} (hkw : Word .class_ kw)
    (h : Reads (classRule methods) Stmt.erase depth ts rest s) :
    Reads (declarationRule expr stmt function methods) Stmt.erase depth (kw :: ts) rest s :=
  h.dispatch fun n errors => by cases kw; cases hkw; rfl

/-- A function is read by it. -/
theorem declarationRule_fun {kw decl} (hkw : Word .fun_ kw)
    (h : Reads function FunDecl.erase depth ts rest decl) :
    Reads (declarationRule expr stmt function methods) Stmt.erase depth (kw :: ts) rest
      (.function decl) := by
  have hread : Reads (function >>= fun decl => pure (.function decl)) Stmt.erase depth ts rest
      (.function decl) := h.map fun decl hdecl => by rw [Stmt.erase, hdecl]
  exact hread.dispatch fun n errors => by cases kw; cases hkw; rfl

/-- A variable is read by it. -/
theorem declarationRule_var {d size s} (he : ReadsExpressions expr depth d size)
    (h : VarDecl maxArity d ts s) (hsize : ts.length ≤ size) :
    Reads (declarationRule expr stmt function methods) Stmt.erase depth ts rest s := by
  obtain ⟨kw, ts, rfl, hkw⟩ := varDecl_head h
  rw [List.length_cons] at hsize
  exact (varRule_reads he h (by omega)).dispatch fun n errors => by cases kw; cases hkw; rfl

end Rules

/-! ## Statements and declarations -/

/-- The tied parser of expressions reads expressions, as long as its fuel and the levels left allow.
-/
theorem expression_readsExpressions {fuel depth d size : Nat} (hf : 2 * size ≤ fuel + 1)
    (hd : depth + d ≤ maxNesting) : ReadsExpressions (expression fuel) depth d size :=
  fun h hsize hr => expression_reads h (by omega) hd hr

/-- What is read without an error needs no recovery. -/
theorem recovering_reads {α γ : Type} {p : Parser α} {f : α → γ} {depth ts rest a₀}
    (h : Reads p f depth ts rest a₀) :
    Reads (recovering p) (Option.map f) depth ts rest (some a₀) := by
  intro n errors
  obtain ⟨a, n', ha, rfl⟩ := h n errors
  exact ⟨some a, n', by rw [recovering, ha], rfl⟩

/-- A declaration has a token. -/
theorem declaration_length {nearest arity d ts s} (h : Declaration nearest arity d ts s) :
    0 < ts.length := by
  obtain ⟨t, r, rfl, -⟩ := declaration_head h
  exact Nat.succ_pos _

/-- A function has a token. -/
theorem function_length {nearest arity d ts f} (h : Function nearest arity d ts f) :
    0 < ts.length := by
  cases h
  exact Nat.succ_pos _

/-- What follows a declaration is another one or what follows them all. -/
theorem declarations_noElse {nearest arity d ts ss rest} (h : Declarations nearest arity d ts ss)
    (hr : NoElse rest) : NoElse (ts ++ rest) := by
  cases h with
  | nil => exact hr
  | cons h _ =>
    obtain ⟨t, r, rfl, ht⟩ := declaration_head h
    rintro t r ⟨⟩
    exact beginsDeclaration_ne ht rfl

theorem rightBrace_noElse {t} (rest) (ht : Mark .rightBrace t) : NoElse (t :: rest) := by
  rintro t r ⟨⟩
  rw [ht]
  decide

/-- A statement is read as a declaration. -/
theorem declaration_statement {fuel depth d o ts rest s} (hs : Statement true maxArity d o ts s)
    (h : Reads (statement fuel) Stmt.erase depth ts rest s) :
    Reads (declaration (fuel + 1)) (Option.map Stmt.erase) depth ts rest (some s) := by
  refine recovering_reads fun n errors => ?_
  obtain ⟨t, r, rfl, ht⟩ := statement_head hs
  have hdefault : declarationRule (expression fuel) (statement fuel)
      (routineRule .function (block fuel)) (methods fuel) ⟨t :: r ++ rest, depth, n, errors⟩ =
      statement fuel ⟨t :: r ++ rest, depth, n, errors⟩ := by
    unfold declarationRule
    rw [peek_bind]
    simp only [State.next, List.cons_append, List.headD_cons]
    generalize t.kind = k at ht
    split <;> simp_all [beginsStatement, opensExpression]
  rw [hdefault]
  exact h n errors

/-- A list of declarations or methods goes on where one begins. -/
theorem bodyOver_false {t : Token} {r : List Token} {depth n : Nat} {errors : List Error}
    (h : beginsDeclaration t.kind = true) : bodyOver ⟨t :: r, depth, n, errors⟩ =
      .ok false ⟨t :: r, depth, n, errors⟩ := by
  have hrb : t.kind.same (.punct .rightBrace) = false := by
    rw [Bool.eq_false_iff]
    exact fun hs => beginsDeclaration_ne h rfl ((Kind.same_iff_eq rfl).1 hs)
  have heof : t.kind.same .endOfInput = false := by
    rw [Bool.eq_false_iff]
    exact fun hs => beginsDeclaration_ne h rfl ((Kind.same_iff_eq rfl).1 hs)
  simp only [bodyOver, State.next, State.atEnd, List.headD_cons, hrb, heof, Bool.or_false]

theorem bodyOver_true {t : Token} {r : List Token} {depth n : Nat} {errors : List Error}
    (h : Mark .rightBrace t) : bodyOver ⟨t :: r, depth, n, errors⟩ =
      .ok true ⟨t :: r, depth, n, errors⟩ := by
  simp only [bodyOver, State.next, List.headD_cons, (Kind.same_iff_eq rfl).2 h, Bool.true_or]

/-- At its closing brace a block is read. -/
theorem block_end {fuel depth rest rb} (hrb : Mark .rightBrace rb) :
    Reads (block (fuel + 1)) (List.map Stmt.erase) depth [rb] rest [] :=
  fun n _ => ⟨[], n, (bind_of_ok (bodyOver_true hrb)).trans (bind_of_ok (expect_hit rfl hrb)), rfl⟩

/-- A block is read declaration by declaration. -/
theorem block_step {fuel depth d ts ts' rest s ss} (hd : Declaration true maxArity d ts s)
    (h : Reads (declaration fuel) (Option.map Stmt.erase) depth ts (ts' ++ rest) (some s))
    (h' : Reads (block fuel) (List.map Stmt.erase) depth ts' rest ss) :
    Reads (block (fuel + 1)) (List.map Stmt.erase) depth (ts ++ ts') rest (s :: ss) := by
  intro n errors
  obtain ⟨first, n₁, hn₁, hfirst⟩ := h n errors
  obtain ⟨more, n₂, hn₂, rfl⟩ := h' n₁ errors
  obtain ⟨s, rfl, rfl⟩ := Option.map_eq_some_iff.1 hfirst
  obtain ⟨t, r, rfl, ht⟩ := declaration_head hd
  refine ⟨s :: more, n₂, ?_, rfl⟩
  rw [List.append_assoc]
  exact (bind_of_ok (bodyOver_false ht)).trans ((bind_of_ok hn₁).trans (bind_of_ok hn₂))

/-- At the closing brace of the class no method is read. -/
theorem methods_end {fuel depth rest rb} (hrb : Mark .rightBrace rb) :
    Reads (methods (fuel + 1)) (List.map FunDecl.erase) depth [] (rb :: rest) [] :=
  fun n _ => ⟨[], n, bind_of_ok (bodyOver_true hrb), rfl⟩

/-- Methods are read one by one. -/
theorem methods_step {fuel depth d ts ts' rest f fs} (hd : Function true maxArity d ts f)
    (h : Reads (routineRule .method (block fuel)) FunDecl.erase depth ts (ts' ++ rest) f)
    (h' : Reads (methods fuel) (List.map FunDecl.erase) depth ts' rest fs) :
    Reads (methods (fuel + 1)) (List.map FunDecl.erase) depth (ts ++ ts') rest (f :: fs) := by
  intro n errors
  obtain ⟨t, r, rfl, ht⟩ : ∃ t r, ts = t :: r ∧ Name t := by
    cases hd with
    | intro hname => exact ⟨_, _, rfl, hname⟩
  obtain ⟨first, n₁, hn₁, rfl⟩ := h n errors
  obtain ⟨more, n₂, hn₂, rfl⟩ := h' n₁ errors
  refine ⟨first :: more, n₂, ?_, rfl⟩
  rw [List.append_assoc]
  have begins : beginsDeclaration t.kind = true := by rw [ht]; rfl
  exact (bind_of_ok (bodyOver_false begins)).trans ((bind_of_ok hn₁).trans (bind_of_ok hn₂))

mutual

/-- A derived statement is read, before no `else` if it could still take one. -/
theorem statement_reads : ∀ {d o ts s}, Statement true maxArity d o ts s → ∀ {fuel depth rest},
    5 * ts.length ≤ fuel → depth + d ≤ maxNesting → (o = true → NoElse rest) →
    Reads (statement fuel) Stmt.erase depth ts rest s
  | _, _, _, _, .expression h, fuel, depth, rest, hf, hd, _ => by
    obtain ⟨fuel, rfl⟩ : ∃ k, fuel = k + 1 := ⟨fuel - 1, by cases h; grind⟩
    exact nested_reads (by omega) (statementRule_expression
      (expression_readsExpressions (by omega) (by omega)) h (Nat.le_refl _))
  | _, _, _, _, .print hkw h hsemi, fuel + 1, depth, rest, hf, hd, _ => by
    simp only [List.length_append, List.length_cons] at hf
    exact nested_reads (by omega) (statementRule_print
      (expression_readsExpressions (by omega) (by omega)) hkw h (Nat.lt_succ_self _) hsemi)
  | _, _, _, _, .ret hkw h hsemi, fuel + 1, depth, rest, hf, hd, _ => by
    simp only [List.length_append, List.length_cons] at hf
    exact nested_reads (by omega) (statementRule_return
      (expression_readsExpressions (by omega) (by omega)) hkw h (Nat.lt_succ_self _) hsemi)
  | _, _, _, _, .block hlb h hrb, fuel + 1, depth, rest, hf, hd, _ => by
    simp only [List.length_append, List.length_cons] at hf
    exact nested_reads (by omega) (statementRule_block hlb
      (block_reads h hrb (by simp; omega) (by omega)))
  | _, _, _, _, .whileLoop hkw hlp h hrp hs, fuel + 1, depth, rest, hf, hd, ho => by
    simp only [List.length_append, List.length_cons] at hf
    refine nested_reads (by omega) (statementRule_while hkw ?_)
    exact whileRule_reads (expression_readsExpressions (by omega) (by omega)) hlp h
      (Nat.lt_succ_self _) hrp (statement_reads hs (by omega) (by omega) ho)
  | _, _, _, _, .ifThen hkw hlp h hrp hs, fuel + 1, depth, rest, hf, hd, ho => by
    simp only [List.length_append, List.length_cons] at hf
    refine nested_reads (by omega) (statementRule_if hkw ?_)
    exact ifRule_then (expression_readsExpressions (by omega) (by omega)) hlp h
      (Nat.lt_succ_self _) hrp (statement_reads hs (by omega) (by omega) fun _ => ho rfl) (ho rfl)
  | _, _, _, _, .ifElse hkw hlp h hrp hs ho' hels hs', fuel + 1, depth, rest, hf, hd, ho => by
    simp only [List.length_append, List.length_cons] at hf
    refine nested_reads (by omega) (statementRule_if hkw ?_)
    exact ifRule_else (expression_readsExpressions (by omega) (by omega)) hlp h
      (Nat.lt_succ_self _) hrp (statement_reads hs (by omega) (by omega) (by simp [ho' rfl])) hels
      (statement_reads hs' (by omega) (by omega) ho)
  | _, _, _, _, .forLoop hkw hlp hi hc hsemi hp hrp hs, fuel + 1, depth, rest, hf, hd, ho => by
    simp only [List.length_append, List.length_cons] at hf
    refine nested_reads (by omega) (statementRule_for hkw ?_)
    exact forRule_reads (expression_readsExpressions (by omega) (by omega)) hlp hi hc hsemi hp hrp
      (Nat.lt_succ_self _) (statement_reads hs (by omega) (by omega) ho)

/-- A derived declaration is read, before no `else`. -/
theorem declaration_reads : ∀ {d ts s}, Declaration true maxArity d ts s → ∀ {fuel depth rest},
    5 * ts.length + 1 ≤ fuel → depth + d ≤ maxNesting → NoElse rest →
    Reads (declaration fuel) (Option.map Stmt.erase) depth ts rest (some s)
  | _, _, _, .classDecl hkw hname hlb h hrb, fuel + 1, depth, rest, hf, hd, _ => by
    simp only [List.length_append, List.length_cons] at hf
    exact recovering_reads (declarationRule_class hkw
      (classRule_reads hname hlb hrb (methods_reads h hrb (by omega) hd)))
  | _, _, _, .function hkw h, fuel + 1, depth, rest, hf, hd, _ => by
    simp only [List.length_cons] at hf
    exact recovering_reads (declarationRule_fun hkw (function_reads h (by omega) hd))
  | _, _, _, .var h, fuel + 1, depth, rest, hf, hd, _ =>
    recovering_reads (declarationRule_var
      (expression_readsExpressions (by omega) hd) h (Nat.le_refl _))
  | _, _, _, .statement h, fuel + 1, depth, rest, hf, hd, hr =>
    declaration_statement h (statement_reads h (by omega) hd fun _ => hr)

/-- Derived declarations are read with the brace that closes their block. -/
theorem block_reads : ∀ {d ts ss}, Declarations true maxArity d ts ss → ∀ {rb},
    Mark .rightBrace rb → ∀ {fuel depth rest}, 5 * (ts ++ [rb]).length ≤ fuel →
    depth + d ≤ maxNesting →
    Reads (block fuel) (List.map Stmt.erase) depth (ts ++ [rb]) rest ss
  | _, _, _, .nil, rb, hrb, fuel + 1, depth, rest, hf, hd => block_end hrb
  | _, _, _, .cons h hmore, rb, hrb, fuel, depth, rest, hf, hd => by
    have hlen := declaration_length h
    simp only [List.length_append, List.length_singleton] at hf
    obtain ⟨fuel, rfl⟩ : ∃ k, fuel = k + 1 := ⟨fuel - 1, by omega⟩
    have noElse := declarations_noElse hmore (rightBrace_noElse rest hrb)
    rw [List.append_assoc]
    refine block_step h (declaration_reads h (by omega) hd ?_)
      (block_reads hmore hrb (by simp; omega) hd)
    rwa [List.append_assoc]

/-- A derived function or method is read. -/
theorem function_reads : ∀ {d ts f}, Function true maxArity d ts f → ∀ {r fuel depth rest},
    5 * ts.length ≤ fuel → depth + d ≤ maxNesting →
    Reads (routineRule r (block fuel)) FunDecl.erase depth ts rest f
  | _, _, _, .intro hname hlp hp hlen hrp hlb h hrb, r, fuel, depth, rest, hf, hd => by
    simp only [List.length_append, List.length_cons] at hf
    exact routineRule_reads hname hlp hp hlen hrp hlb (block_reads h hrb (by simp; omega) hd)

/-- Derived methods are read before the brace that closes their class. -/
theorem methods_reads : ∀ {d ts fs}, Methods true maxArity d ts fs → ∀ {rb},
    Mark .rightBrace rb → ∀ {fuel depth rest}, 5 * ts.length + 1 ≤ fuel →
    depth + d ≤ maxNesting →
    Reads (methods fuel) (List.map FunDecl.erase) depth ts (rb :: rest) fs
  | _, _, _, .nil, rb, hrb, fuel + 1, depth, rest, hf, hd => methods_end hrb
  | _, _, _, .cons h hmore, rb, hrb, fuel + 1, depth, rest, hf, hd => by
    have hlen := function_length h
    rw [List.length_append] at hf
    exact methods_step h (function_reads h (by omega) hd) (methods_reads hmore hrb (by omega) hd)

end

end Grammar
end Lox
