/-
# Trees

What the grammar builds: expressions, statements and function declarations. The nodes that use a
name (a variable, an assignment, the receiver) carry a number of their own, so that facts found out
about one use of a name are not taken for another's.
-/

import Lox.Token

namespace Lox

/-- The number of a node that uses a name. -/
abbrev NodeId := Nat

/-- A constant written in the source. -/
inductive Literal where
  | nil
  | bool (b : Bool)
  | number (x : Float)
  | string (s : String)
deriving DecidableEq, Repr

/-- Expressions. Operators and names are the tokens they were read from. -/
inductive Expr where
  | literal (value : Literal)
  | grouping (inner : Expr)
  | unary (op : Token) (operand : Expr)
  | binary (left : Expr) (op : Token) (right : Expr)
  | logical (left : Expr) (op : Token) (right : Expr)
  | ident (id : NodeId) (name : Token)
  | assign (id : NodeId) (name : Token) (value : Expr)
  | call (callee : Expr) (paren : Token) (args : List Expr)
  | get (object : Expr) (name : Token)
  | set (object : Expr) (name : Token) (value : Expr)
  | receiver (id : NodeId) (keyword : Token)

mutual

/-- Statements. -/
inductive Stmt where
  | expression (e : Expr)
  | print (e : Expr)
  | var (name : Token) (init : Option Expr)
  | block (body : List Stmt)
  | branch (cond : Expr) (thenB : Stmt) (elseB : Option Stmt)
  | loop (cond : Expr) (body : Stmt)
  | function (decl : FunDecl)
  | ret (keyword : Token) (value : Option Expr)
  | classDecl (name : Token) (methods : List FunDecl)

/-- A function or method: its name, its parameters and its body. -/
structure FunDecl where
  name : Token
  params : List Token
  body : List Stmt

end

end Lox
