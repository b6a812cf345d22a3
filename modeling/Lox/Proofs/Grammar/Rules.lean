/-
# The rules of the language

Which lists of tokens are expressions, statements and programs, and which tree each of them stands
for. There is one relation for each rule of the grammar:

    program     → declaration*
    declaration → classDecl | funDecl | varDecl | statement
    classDecl   → "class" IDENT "{" function* "}"
    funDecl     → "fun" function
    function    → IDENT "(" parameters? ")" block
    varDecl     → "var" IDENT ( "=" expression )? ";"
    statement   → exprStmt | forStmt | ifStmt | printStmt | returnStmt | whileStmt | block
    forStmt     → "for" "(" ( varDecl | exprStmt | ";" ) expression? ";" expression? ")" statement
    ifStmt      → "if" "(" expression ")" statement ( "else" statement )?
    returnStmt  → "return" expression? ";"
    whileStmt   → "while" "(" expression ")" statement
    block       → "{" declaration* "}"
    expression  → assignment
    assignment  → ( call "." )? IDENT "=" assignment | disjunction
    disjunction → conjunction ( "or" conjunction )*
    conjunction → equality ( "and" equality )*
    equality    → comparison ( ( "!=" | "==" ) comparison )*
    comparison  → sum ( ( ">" | ">=" | "<" | "<=" ) sum )*
    sum         → product ( ( "-" | "+" ) product )*
    product     → unary ( ( "/" | "*" ) unary )*
    unary       → ( "!" | "-" ) unary | call
    call        → primary ( "(" arguments? ")" | "." IDENT )*
    primary     → NUMBER | STRING | "true" | "false" | "nil" | "this" | IDENT | "(" expression ")"

The six levels from `disjunction` to `product` are one relation over a `Tier`; its rule is written
with the repetition on the left, which is how the operators group. The number in front of the
tokens is how many more statements, expressions and operands of signs may stand inside one another;
`arity` bounds parameters and arguments. The rule for `if` has two readings when an `else` follows
two of them. With `nearest` it belongs to the second: the statement before an `else` is none that
could take it (`Statement`, whose second index tells).

Node numbers are left out: the nodes of these trees all have the number zero.
-/

import Lox.Grammar.Program
import Lox.Proofs.Tree.Erase

namespace Lox
namespace Grammar

/-- The levels of operators between two operands, from the loosest to the tightest, and below them
the level of signs, which has no such operator. -/
inductive Tier where
  | disjunction | conjunction | equality | comparison | sum | product | sign
deriving DecidableEq, Repr

namespace Tier

/-- The level of the operands. -/
def tighter? : Tier → Option Tier
  | disjunction => some conjunction
  | conjunction => some equality
  | equality => some comparison
  | comparison => some sum
  | sum => some product
  | product => some sign
  | sign => none

/-- The operators of a level. -/
def ops : Tier → List Kind
  | disjunction => [.keyword .or_]
  | conjunction => [.keyword .and_]
  | equality => [.punct .bangEqual, .punct .equalEqual]
  | comparison => [.punct .greater, .punct .greaterEqual, .punct .less, .punct .lessEqual]
  | sum => [.punct .minus, .punct .plus]
  | product => [.punct .slash, .punct .star]
  | sign => []

/-- The node for two operands with an operator of the level between them. -/
def node : Tier → Expr → Token → Expr → Expr
  | disjunction => .logical
  | conjunction => .logical
  | _ => .binary

end Tier

namespace Derives

/-- The token is this mark. -/
abbrev Mark (p : Punct) (t : Token) : Prop := t.kind = .punct p

/-- The token is this reserved word. -/
abbrev Word (k : Keyword) (t : Token) : Prop := t.kind = .keyword k

/-- The token is a name. -/
abbrev Name (t : Token) : Prop := t.kind = .identifier

/-- Nothing, or one item. -/
inductive Optional {α : Type} (item : List Token → α → Prop) : List Token → Option α → Prop
  | none : Optional item [] none
  | some {ts a} : item ts a → Optional item ts (some a)

/-! ## Expressions -/

mutual

/-- An expression: an assignment, one level deeper. -/
inductive Expression (arity : Nat) : Nat → List Token → Expr → Prop
  | deeper {d ts e} : Assignment arity d ts e → Expression arity (d + 1) ts e

/-- An assignment to a name or to a property, or an operation. -/
inductive Assignment (arity : Nat) : Nat → List Token → Expr → Prop
  | operation {d ts e} : Operation arity d .disjunction ts e → Assignment arity d ts e
  | toName {d name eq ts value} : Name name → Mark .equal eq → Assignment arity d ts value →
      Assignment arity d (name :: eq :: ts) (.assign 0 name value)
  | toProperty {d ts object dot name eq ts' value} : Call arity d ts object → Mark .dot dot →
      Name name → Mark .equal eq → Assignment arity d ts' value →
      Assignment arity d (ts ++ dot :: name :: eq :: ts') (.set object name value)

/-- Operands of a level with its operators between them, grouped from the left. -/
inductive Operation (arity : Nat) : Nat → Tier → List Token → Expr → Prop
  | sign {d ts e} : Unary arity d ts e → Operation arity d .sign ts e
  | operand {d tier tier' ts e} : tier.tighter? = some tier' → Operation arity d tier' ts e →
      Operation arity d tier ts e
  | more {d tier tier' ts left op ts' right} : tier.tighter? = some tier' →
      Operation arity d tier ts left → op.kind ∈ tier.ops → Operation arity d tier' ts' right →
      Operation arity d tier (ts ++ op :: ts') (tier.node left op right)

/-- A sign before an operand one level deeper, or a call. -/
inductive Unary (arity : Nat) : Nat → List Token → Expr → Prop
  | bang {d op ts e} : Mark .bang op → Unary arity d ts e →
      Unary arity (d + 1) (op :: ts) (.unary op e)
  | minus {d op ts e} : Mark .minus op → Unary arity d ts e →
      Unary arity (d + 1) (op :: ts) (.unary op e)
  | call {d ts e} : Call arity d ts e → Unary arity d ts e

/-- A primary form with argument lists and property names behind it. -/
inductive Call (arity : Nat) : Nat → List Token → Expr → Prop
  | primary {d ts e} : Primary arity d ts e → Call arity d ts e
  | apply {d ts callee lp ts' args rp} : Call arity d ts callee → Mark .leftParen lp →
      Arguments arity d ts' args → args.length ≤ arity → Mark .rightParen rp →
      Call arity d (ts ++ lp :: (ts' ++ [rp])) (.call callee rp args)
  | property {d ts object dot name} : Call arity d ts object → Mark .dot dot → Name name →
      Call arity d (ts ++ [dot, name]) (.get object name)

/-- A constant, a name, the receiver, or an expression in parentheses. -/
inductive Primary (arity : Nat) : Nat → List Token → Expr → Prop
  | number {d t x} : t.kind = .number x → Primary arity d [t] (.literal (.number x))
  | string {d t s} : t.kind = .string s → Primary arity d [t] (.literal (.string s))
  | true {d t} : Word .true_ t → Primary arity d [t] (.literal (.bool true))
  | false {d t} : Word .false_ t → Primary arity d [t] (.literal (.bool false))
  | nil {d t} : Word .nil_ t → Primary arity d [t] (.literal .nil)
  | receiver {d t} : Word .this_ t → Primary arity d [t] (.receiver 0 t)
  | name {d t} : Name t → Primary arity d [t] (.ident 0 t)
  | group {d lp ts e rp} : Mark .leftParen lp → Expression arity d ts e → Mark .rightParen rp →
      Primary arity d (lp :: (ts ++ [rp])) (.grouping e)

/-- No arguments, or some. -/
inductive Arguments (arity : Nat) : Nat → List Token → List Expr → Prop
  | none {d} : Arguments arity d [] []
  | some {d ts es} : ArgumentList arity d ts es → Arguments arity d ts es

/-- Arguments with commas between them. -/
inductive ArgumentList (arity : Nat) : Nat → List Token → List Expr → Prop
  | one {d ts e} : Expression arity d ts e → ArgumentList arity d ts [e]
  | more {d ts e comma ts' es} : Expression arity d ts e → Mark .comma comma →
      ArgumentList arity d ts' es → ArgumentList arity d (ts ++ comma :: ts') (e :: es)

end

/-! ## Statements -/

/-- Names with commas between them. -/
inductive ParameterList : List Token → List Token → Prop
  | one {name} : Name name → ParameterList [name] [name]
  | more {name comma ts names} : Name name → Mark .comma comma → ParameterList ts names →
      ParameterList (name :: comma :: ts) (name :: names)

/-- No parameters, or some. -/
inductive Parameters : List Token → List Token → Prop
  | none : Parameters [] []
  | some {ts names} : ParameterList ts names → Parameters ts names

/-- An expression as a statement. -/
inductive ExprStmt (arity d : Nat) : List Token → Stmt → Prop
  | intro {ts e semi} : Expression arity d ts e → Mark .semicolon semi →
      ExprStmt arity d (ts ++ [semi]) (.expression e)

/-- A variable with an initializer or without. -/
inductive VarDecl (arity d : Nat) : List Token → Stmt → Prop
  | plain {kw name semi} : Word .var_ kw → Name name → Mark .semicolon semi →
      VarDecl arity d [kw, name, semi] (.var name none)
  | initialized {kw name eq ts e semi} : Word .var_ kw → Name name → Mark .equal eq →
      Expression arity d ts e → Mark .semicolon semi →
      VarDecl arity d (kw :: name :: eq :: (ts ++ [semi])) (.var name (some e))

/-- The first clause of a `for` loop, as the statements that it puts before the loop. -/
inductive ForInit (arity d : Nat) : List Token → List Stmt → Prop
  | none {semi} : Mark .semicolon semi → ForInit arity d [semi] []
  | var {ts s} : VarDecl arity d ts s → ForInit arity d ts [s]
  | expression {ts s} : ExprStmt arity d ts s → ForInit arity d ts [s]

/-- Statements as one: a single statement is itself, others go into a block. -/
def together : List Stmt → Stmt
  | [s] => s
  | ss => .block ss

/-- A `for` loop in terms of `while`: `{ init; while (cond) { body; step; } }`. -/
def whileForm (init : List Stmt) (cond step : Option Expr) (body : Stmt) : Stmt :=
  together (init ++
    [.loop (cond.getD (.literal (.bool true))) (together (body :: step.toList.map .expression))])

/-- The parser's `for` loop is its form in terms of `while`, up to node numbers. -/
theorem erase_forLoop (init : Option Stmt) (cond step : Option Expr) (body : Stmt) :
    (forLoop init cond step body).erase = whileForm (init.toList.map Stmt.erase)
      (cond.map Expr.erase) (step.map Expr.erase) body.erase := by
  cases init <;> cases cond <;> cases step <;>
    simp [forLoop, whileForm, together, Stmt.erase, Expr.erase]

mutual

/-- A statement, one level deeper than what it is made of. The `Bool` tells whether an `else` right
behind it could be taken for its own. -/
inductive Statement (nearest : Bool) (arity : Nat) : Nat → Bool → List Token → Stmt → Prop
  | expression {d ts s} : ExprStmt arity d ts s → Statement nearest arity (d + 1) false ts s
  | print {d kw ts e semi} : Word .print_ kw → Expression arity d ts e → Mark .semicolon semi →
      Statement nearest arity (d + 1) false (kw :: (ts ++ [semi])) (.print e)
  | ret {d kw ts value semi} : Word .return_ kw → Optional (Expression arity d) ts value →
      Mark .semicolon semi →
      Statement nearest arity (d + 1) false (kw :: (ts ++ [semi])) (.ret kw value)
  | block {d lb ts ss rb} : Mark .leftBrace lb → Declarations nearest arity d ts ss →
      Mark .rightBrace rb →
      Statement nearest arity (d + 1) false (lb :: (ts ++ [rb])) (.block ss)
  | whileLoop {d kw lp tc cond rp o tb body} : Word .while_ kw → Mark .leftParen lp →
      Expression arity d tc cond → Mark .rightParen rp → Statement nearest arity d o tb body →
      Statement nearest arity (d + 1) o (kw :: lp :: (tc ++ rp :: tb)) (.loop cond body)
  | ifThen {d kw lp tc cond rp o tt thenB} : Word .if_ kw → Mark .leftParen lp →
      Expression arity d tc cond → Mark .rightParen rp → Statement nearest arity d o tt thenB →
      Statement nearest arity (d + 1) true (kw :: lp :: (tc ++ rp :: tt)) (.branch cond thenB none)
  | ifElse {d kw lp tc cond rp o tt thenB els o' te elseB} : Word .if_ kw → Mark .leftParen lp →
      Expression arity d tc cond → Mark .rightParen rp → Statement nearest arity d o tt thenB →
      (nearest = true → o = false) → Word .else_ els → Statement nearest arity d o' te elseB →
      Statement nearest arity (d + 1) o' (kw :: lp :: (tc ++ rp :: (tt ++ els :: te)))
        (.branch cond thenB (some elseB))
  | forLoop {d kw lp ti init tc cond semi ts step rp o tb body} : Word .for_ kw →
      Mark .leftParen lp → ForInit arity d ti init → Optional (Expression arity d) tc cond →
      Mark .semicolon semi → Optional (Expression arity d) ts step → Mark .rightParen rp →
      Statement nearest arity d o tb body →
      Statement nearest arity (d + 1) o (kw :: lp :: (ti ++ (tc ++ semi :: (ts ++ rp :: tb))))
        (whileForm init cond step body)

/-- A class, a function, a variable or a statement. -/
inductive Declaration (nearest : Bool) (arity : Nat) : Nat → List Token → Stmt → Prop
  | classDecl {d kw name lb ts methods rb} : Word .class_ kw → Name name → Mark .leftBrace lb →
      Methods nearest arity d ts methods → Mark .rightBrace rb →
      Declaration nearest arity d (kw :: name :: lb :: (ts ++ [rb])) (.classDecl name methods)
  | function {d kw ts decl} : Word .fun_ kw → Function nearest arity d ts decl →
      Declaration nearest arity d (kw :: ts) (.function decl)
  | var {d ts s} : VarDecl arity d ts s → Declaration nearest arity d ts s
  | statement {d o ts s} : Statement nearest arity d o ts s → Declaration nearest arity d ts s

/-- Declarations one after the other. -/
inductive Declarations (nearest : Bool) (arity : Nat) : Nat → List Token → List Stmt → Prop
  | nil {d} : Declarations nearest arity d [] []
  | cons {d ts s ts' ss} : Declaration nearest arity d ts s →
      Declarations nearest arity d ts' ss → Declarations nearest arity d (ts ++ ts') (s :: ss)

/-- A name, parameters and a body. -/
inductive Function (nearest : Bool) (arity : Nat) : Nat → List Token → FunDecl → Prop
  | intro {d name lp tp params rp lb ts body rb} : Name name → Mark .leftParen lp →
      Parameters tp params → params.length ≤ arity → Mark .rightParen rp → Mark .leftBrace lb →
      Declarations nearest arity d ts body → Mark .rightBrace rb →
      Function nearest arity d (name :: lp :: (tp ++ rp :: lb :: (ts ++ [rb])))
        ⟨name, params, body⟩

/-- Methods one after the other. -/
inductive Methods (nearest : Bool) (arity : Nat) : Nat → List Token → List FunDecl → Prop
  | nil {d} : Methods nearest arity d [] []
  | cons {d ts f ts' fs} : Function nearest arity d ts f → Methods nearest arity d ts' fs →
      Methods nearest arity d (ts ++ ts') (f :: fs)

end

/-- A program within the limits of the language, each `else` with the nearest `if`. -/
abbrev Program (ts : List Token) (ss : List Stmt) : Prop :=
  Declarations true maxArity maxNesting ts ss

end Derives

end Grammar
end Lox
