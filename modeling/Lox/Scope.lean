/-
# Scopes

The resolver: a walk over a tree that keeps the scopes around the current node, innermost first. It
finds, for each node that uses a name, how many scopes out the name is declared, and it finds the
uses that break a rule. Blocks, functions and classes open a scope; the outermost level is no scope,
its names are looked up when the program runs.

A variable is declared before its initializer and defined behind it. A name that its scope already
has is not declared again.
-/

import Lox.Bindings
import Lox.Report
import Lox.Tree
import Std.Data.TreeMap

namespace Lox

/-- How many frames out the name of a node is found, as `note_local` records it for `local_depth`; a
node without an entry is global. -/
abbrev Distances := Std.TreeMap NodeId Nat

namespace Scope

/-- How far the declaration of a name has come. -/
inductive Status where
  | declared
  | defined
deriving DecidableEq, Repr

/-- Why a tree breaks a rule. -/
inductive Cause where
  | redeclared
  | ownInitializer
  | topLevelReturn
  | strayReceiver
deriving DecidableEq, Repr

/-- The text of the cause. -/
def Cause.message : Cause → String
  | .redeclared => "Already a variable with this name in this scope."
  | .ownInitializer => "Can't read local variable in its own initializer."
  | .topLevelReturn => "Can't return from top-level code."
  | .strayReceiver => "Can't use 'this' outside of a class."

/-- A broken rule and the token to blame. -/
structure Violation where
  cause : Cause
  token : Token
deriving DecidableEq, Repr

/-- The violation as it is shown. -/
def Violation.report (v : Violation) : Report := .scope v.token v.cause.message

/-- What a walk carries along: the open scopes, innermost first, the distances found so far, and
the violations so far in the order they were met. -/
structure Walk where
  scopes : List (Bindings Status)
  distances : Distances
  violations : List Violation

namespace Walk

/-- Notes a violation (the resolver's `error`). -/
def blame (w : Walk) (cause : Cause) (token : Token) : Walk :=
  { w with violations := w.violations ++ [⟨cause, token⟩] }

/-- Declares a name in the innermost scope, which must not have it yet (`declare`). -/
def declare (w : Walk) (name : Token) : Walk :=
  match w.scopes with
  | [] => w
  | scope :: outer =>
    if scope.contains name.lexeme then w.blame .redeclared name
    else { w with scopes := scope.insert name.lexeme .declared :: outer }

/-- Defines a name in the innermost scope (`define`). -/
def define (w : Walk) (name : Token) : Walk :=
  match w.scopes with
  | [] => w
  | scope :: outer => { w with scopes := scope.insert name.lexeme .defined :: outer }

/-- Opens a scope (`begin_scope`). -/
def enter (w : Walk) (scope : Bindings Status) : Walk := { w with scopes := scope :: w.scopes }

/-- Closes the innermost scope (`end_scope`). -/
def leave (w : Walk) : Walk := { w with scopes := w.scopes.tail }

/-- How many scopes out a name is declared. -/
def distance? (w : Walk) (name : String) : Option Nat :=
  w.scopes.findIdx? fun scope => scope.contains name

/-- Records the distance of a node, if its name is not global: the resolver's `resolve_local`. -/
def locate (w : Walk) (id : NodeId) (name : Token) : Walk :=
  match w.distance? name.lexeme with
  | some d => { w with distances := w.distances.insert id d }
  | none => w

/-- Whether the innermost scope has a name declared and not yet defined. -/
def isPending (w : Walk) (name : String) : Bool :=
  match w.scopes with
  | [] => false
  | scope :: _ => scope.get? name == some .declared

/-- Declares and defines names in order. -/
def introduce (w : Walk) : List Token → Walk
  | [] => w
  | name :: names => ((w.declare name).define name).introduce names

end Walk

end Scope

open Scope (Walk)

namespace Expr

mutual

/-- Walks an expression (`resolve_expr`). The value of an assignment comes before its target. -/
def resolve (inClass : Bool) : Expr → Walk → Walk
  | literal _, w => w
  | grouping inner, w => inner.resolve inClass w
  | unary _ operand, w => operand.resolve inClass w
  | binary left _ right, w => right.resolve inClass (left.resolve inClass w)
  | logical left _ right, w => right.resolve inClass (left.resolve inClass w)
  | ident id name, w =>
    let w := if w.isPending name.lexeme then w.blame .ownInitializer name else w
    w.locate id name
  | assign id name value, w => (value.resolve inClass w).locate id name
  | call callee _ args, w => resolveList inClass args (callee.resolve inClass w)
  | get object _, w => object.resolve inClass w
  | set object _ value, w => object.resolve inClass (value.resolve inClass w)
  | receiver id keyword, w =>
    if inClass then w.locate id keyword else w.blame .strayReceiver keyword

/-- Walks expressions in order. -/
def resolveList (inClass : Bool) : List Expr → Walk → Walk
  | [], w => w
  | e :: es, w => resolveList inClass es (e.resolve inClass w)

end

/-- Walks an expression that may be missing. -/
def resolveOption (inClass : Bool) : Option Expr → Walk → Walk
  | none, w => w
  | some e, w => e.resolve inClass w

end Expr

/-- The scope that the methods of a class share. -/
def Scope.ofClass : Bindings Scope.Status :=
  (∅ : Bindings Scope.Status).insert "this" .defined

mutual

/-- Walks a statement (`resolve_stmt`). -/
def Stmt.resolve (inFunction inClass : Bool) : Stmt → Walk → Walk
  | .expression e, w => e.resolve inClass w
  | .print e, w => e.resolve inClass w
  | .var name init, w => (Expr.resolveOption inClass init (w.declare name)).define name
  | .block body, w => (Stmt.resolveList inFunction inClass body (w.enter ∅)).leave
  | .branch cond thenB none, w =>
    thenB.resolve inFunction inClass (cond.resolve inClass w)
  | .branch cond thenB (some elseB), w =>
    elseB.resolve inFunction inClass (thenB.resolve inFunction inClass (cond.resolve inClass w))
  | .loop cond body, w => body.resolve inFunction inClass (cond.resolve inClass w)
  | .function decl, w => decl.resolve inClass ((w.declare decl.name).define decl.name)
  | .ret keyword value, w =>
    Expr.resolveOption inClass value (if inFunction then w else w.blame .topLevelReturn keyword)
  | .classDecl name methods, w =>
    (FunDecl.resolveList true methods (((w.declare name).define name).enter Scope.ofClass)).leave

/-- Walks statements in order (`resolve_stmts`). -/
def Stmt.resolveList (inFunction inClass : Bool) : List Stmt → Walk → Walk
  | [], w => w
  | s :: ss, w => Stmt.resolveList inFunction inClass ss (s.resolve inFunction inClass w)

/-- Walks a function (`resolve_function`): its parameters and its body share a scope. -/
def FunDecl.resolve (inClass : Bool) : FunDecl → Walk → Walk
  | ⟨_, params, body⟩, w =>
    (Stmt.resolveList true inClass body ((w.enter ∅).introduce params)).leave

/-- Walks functions in order. -/
def FunDecl.resolveList (inClass : Bool) : List FunDecl → Walk → Walk
  | [], w => w
  | f :: fs, w => FunDecl.resolveList inClass fs (f.resolve inClass w)

end

namespace Scope

/-- What a walk over a program finds: the table for the interpreter and the diagnostics. -/
structure Resolution where
  distances : Distances
  violations : List Violation

/-- Walks the statements of a program, adding to the distances already known (the resolver's
`resolve`). -/
def resolve (statements : List Stmt) (known : Distances) : Resolution :=
  let w := Stmt.resolveList false false statements ⟨[], known, []⟩
  ⟨w.distances, w.violations⟩

end Scope

end Lox
