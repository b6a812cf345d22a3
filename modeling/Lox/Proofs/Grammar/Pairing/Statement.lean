/-
# Statements and declarations side by side

Each rule for statements and declarations inherits agreement from the parsers it refers to. Behind
its keyword a statement refers to others with one token fewer ahead.
-/

import Lox.Proofs.Grammar.Pairing.Expression

namespace Lox
namespace Grammar

namespace Pairing

section Trees

variable {P : Pairing}

/-- Trees with the tokens and numbers that the pairing relates in the same places. -/
abbrev Stmts (P : Pairing) : Stmt → Stmt → Prop := Stmt.Alike P.token P.number

/-- The same, one after the other. -/
abbrev StmtLists (P : Pairing) : List Stmt → List Stmt → Prop := Stmt.AlikeList P.token P.number

/-- The same for functions. -/
abbrev Routines (P : Pairing) : FunDecl → FunDecl → Prop := FunDecl.Alike P.token P.number

/-- The same for methods, one after the other. -/
abbrev RoutineLists (P : Pairing) : List FunDecl → List FunDecl → Prop :=
  FunDecl.AlikeList P.token P.number

/-- `for` loops of alike parts are alike. -/
theorem forLoop_alike {init init' : Option Stmt} {cond cond' step step' : Option Expr}
    {body body' : Stmt} (hi : Option.Rel P.Stmts init init') (hc : Option.Rel P.Exprs cond cond')
    (hp : Option.Rel P.Exprs step step') (hb : P.Stmts body body') :
    P.Stmts (forLoop init cond step body) (forLoop init' cond' step' body') := by
  have test : P.Exprs (cond.getD (.literal (.bool true))) (cond'.getD (.literal (.bool true))) := by
    cases hc with
    | some h => exact h
    | none => exact .literal _
  cases hp with
  | none =>
    cases hi with
    | none => exact .loop test hb
    | some hi => exact .block (.cons hi (.cons (.loop test hb) .nil))
  | some hp =>
    have round := Stmt.Alike.block (.cons hb (.cons (.expression hp) .nil))
    cases hi with
    | none => exact .loop test round
    | some hi => exact .block (.cons hi (.cons (.loop test round) .nil))

/-- A declaration, if there is one, in front of others. -/
theorem toList_append_alike {first first' : Option Stmt} {more more' : List Stmt}
    (hf : Option.Rel P.Stmts first first') (hm : P.StmtLists more more') :
    P.StmtLists (first.toList ++ more) (first'.toList ++ more') := by
  cases hf with
  | some h => exact .cons h hm
  | none => exact hm

end Trees

section Statements

variable {P : Pairing} {n : Nat} {expression expression' : Parser Expr}
  {statement statement' : Parser Stmt} {block block' : Parser (List Stmt)}
  {function function' : Parser FunDecl} {methods methods' : Parser (List FunDecl)} {kind : Kind}
  {r : Routine} {keyword keyword' : Token}

/-- Parsers of optional expressions agree if those of expressions do. -/
theorem optionalBefore_agree (he : P.Agree n expression expression' P.Exprs) :
    P.Agree n (optionalBefore kind expression) (optionalBefore kind expression')
      (Option.Rel P.Exprs) := by
  refine sees_agree.bind ?_
  rintro seen _ rfl
  cases seen with
  | true => exact .pure .none
  | false => exact he.bind fun e e' h => .pure (.some h)

/-- The rules of variables agree. -/
theorem varRule_agree (he : P.Agree n expression expression' P.Exprs) :
    P.Agree n (varRule expression) (varRule expression') P.Stmts := by
  refine .expect rfl fun name name' hn => ?_
  have rest : ∀ {m : Nat} (init init' : Option Expr), Option.Rel P.Exprs init init' → P.Agree m
      (Grammar.expect (.punct .semicolon) .variableEnd >>= fun _ => Pure.pure (Stmt.var name init))
      (Grammar.expect (.punct .semicolon) .variableEnd >>= fun _ =>
        Pure.pure (Stmt.var name' init')) P.Stmts :=
    fun init init' h => .expect rfl fun _ _ _ => .pure (.var hn h)
  exact .accept rfl (Agree.bind (.pure .none) rest) fun _ _ _ =>
    he.pred.pred.bind fun e e' h => Agree.bind (.pure (.some h)) rest

/-- The rules of expression statements agree. -/
theorem expressionRule_agree (he : P.Agree n expression expression' P.Exprs) :
    P.Agree n (expressionRule expression) (expressionRule expression') P.Stmts :=
  he.bind fun _ _ h => .expect rfl fun _ _ _ => .pure (.expression h)

/-- The rules of `print` agree. -/
theorem printRule_agree (he : P.Agree n expression expression' P.Exprs) :
    P.Agree n (printRule expression) (printRule expression') P.Stmts :=
  he.bind fun _ _ h => .expect rfl fun _ _ _ => .pure (.print h)

/-- The rules of `return` agree behind related keywords. -/
theorem returnRule_agree (hk : P.token keyword keyword')
    (he : P.Agree n expression expression' P.Exprs) :
    P.Agree n (returnRule keyword expression) (returnRule keyword' expression') P.Stmts :=
  (optionalBefore_agree he).bind fun _ _ h => .expect rfl fun _ _ _ => .pure (.ret hk h)

/-- The rules of `while` agree if those of its condition and its body do. -/
theorem whileRule_agree (he : P.Agree n expression expression' P.Exprs)
    (hs : P.Agree n statement statement' P.Stmts) :
    P.Agree n (whileRule expression statement) (whileRule expression' statement') P.Stmts :=
  .expect rfl fun _ _ _ => he.pred.bind fun _ _ hc => .expect rfl fun _ _ _ =>
    hs.pred.pred.bind fun _ _ hb => .pure (.loop hc hb)

/-- The rules of `if` agree if those of its condition and its branches do. -/
theorem ifRule_agree (he : P.Agree n expression expression' P.Exprs)
    (hs : P.Agree n statement statement' P.Stmts) :
    P.Agree n (ifRule expression statement) (ifRule expression' statement') P.Stmts :=
  .expect rfl fun _ _ _ => he.pred.bind fun _ _ hc => .expect rfl fun _ _ _ =>
    hs.pred.pred.bind fun _ _ ht => .accept rfl (.pure (.ifThen hc ht)) fun _ _ _ =>
      hs.pred.pred.pred.bind fun _ _ he => .pure (.ifElse hc ht he)

/-- The first clauses of `for` loops agree. -/
theorem forInit_agree (he : P.Agree n expression expression' P.Exprs) :
    P.Agree n (forInit expression) (forInit expression') (Option.Rel P.Stmts) := by
  refine .accept rfl ((expressionRule_agree he).bind fun s s' h => .pure (.some h))
    fun mark mark' hm => ?_
  simp only [(P.faithful _ _ hm).kind]
  by_cases hp : mark.kind.same (.punct .semicolon)
  · simp only [hp, if_true]
    exact .pure .none
  · simp only [hp]
    exact (varRule_agree he.pred).bind fun s s' h => .pure (.some h)

/-- The rules of `for` agree. -/
theorem forRule_agree (he : P.Agree n expression expression' P.Exprs)
    (hs : P.Agree n statement statement' P.Stmts) :
    P.Agree n (forRule expression statement) (forRule expression' statement') P.Stmts :=
  .expect rfl fun _ _ _ => (forInit_agree he.pred).bind fun _ _ hi =>
    (optionalBefore_agree he.pred).bind fun _ _ hc => .expect rfl fun _ _ _ =>
      (optionalBefore_agree he.pred.pred).bind fun _ _ hp => .expect rfl fun _ _ _ =>
        hs.pred.pred.pred.bind fun _ _ hb => .pure (forLoop_alike hi hc hp hb)

/-- The rules of statements agree; the parts of a statement stand behind its keyword. -/
theorem statementRule_agree (he : P.Agree n expression expression' P.Exprs)
    (hs : P.Agree (n - 1) statement statement' P.Stmts)
    (hb : P.Agree (n - 1) block block' P.StmtLists) :
    P.Agree n (statementRule expression statement block)
      (statementRule expression' statement' block') P.Stmts := by
  refine .peek fun t t' hk ht => ?_
  rw [hk]
  cases kind : t.kind with
  | keyword k =>
    have hn : t.kind ≠ .endOfInput := by simp [kind]
    cases k with
    | for_ => exact .skip hn (forRule_agree he.pred hs)
    | if_ => exact .skip hn (ifRule_agree he.pred hs)
    | while_ => exact .skip hn (whileRule_agree he.pred hs)
    | return_ => exact .skip hn (returnRule_agree (ht hn) he.pred)
    | print_ => exact .skip hn (printRule_agree he.pred)
    | _ => exact (expressionRule_agree he).before
  | punct p =>
    cases p with
    | leftBrace => exact .skip (by simp [kind]) (hb.bind fun ss ss' h => .pure (.block h))
    | _ => exact (expressionRule_agree he).before
  | _ => exact (expressionRule_agree he).before

/-- The rules of functions agree; the body stands behind the name. -/
theorem routineRule_agree (hb : P.Agree (n - 1) block block' P.StmtLists) :
    P.Agree n (routineRule r block) (routineRule r block') P.Routines := by
  refine .expect rfl fun name name' hn => .expect rfl fun _ _ _ => ?_
  have parameter : P.Agree (n - 1 - 1) (Grammar.expect .identifier .parameterName)
      (Grammar.expect .identifier .parameterName) P.token := .expectLast rfl
  refine (parenthesised_agree rfl parameter).bind fun ⟨params, _⟩ ⟨params', _⟩ ⟨hp, _⟩ => ?_
  exact .expect rfl fun _ _ _ => hb.pred.pred.bind fun body body' h => .pure (.intro hn hp h)

/-- The rules of classes agree if those of methods do. -/
theorem classRule_agree (hm : P.Agree n methods methods' P.RoutineLists) :
    P.Agree n (classRule methods) (classRule methods') P.Stmts :=
  .expect rfl fun _ _ hn => .expect rfl fun _ _ _ => hm.pred.pred.bind fun _ _ h =>
    .expect rfl fun _ _ _ => .pure (.classDecl hn h)

/-- The rules of declarations agree; but for a statement, the parts stand behind the keyword. -/
theorem declarationRule_agree (he : P.Agree (n - 1) expression expression' P.Exprs)
    (hs : P.Agree n statement statement' P.Stmts)
    (hf : P.Agree (n - 1) function function' P.Routines)
    (hm : P.Agree (n - 1) methods methods' P.RoutineLists) :
    P.Agree n (declarationRule expression statement function methods)
      (declarationRule expression' statement' function' methods') P.Stmts := by
  refine .peek fun t t' hk _ => ?_
  rw [hk]
  cases kind : t.kind with
  | keyword k =>
    have hn : t.kind ≠ .endOfInput := by simp [kind]
    cases k with
    | class_ => exact .skip hn (classRule_agree hm)
    | fun_ => exact .skip hn (hf.bind fun f f' h => .pure (.function h))
    | var_ => exact .skip hn (varRule_agree he)
    | _ => exact hs.before
  | _ => exact hs.before

end Statements

end Pairing

end Grammar
end Lox
