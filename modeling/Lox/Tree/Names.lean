/-
# Uses of names

The nodes of a tree that use a name, in the order of the source, an assignment before its value.
-/

import Lox.Tree

namespace Lox

/-- How a name is used. -/
inductive NameUse where
  | read
  | write
  | receiver
deriving DecidableEq, Repr

/-- A node that uses a name. -/
structure NameNode where
  use : NameUse
  id : NodeId
  name : Token

namespace Expr

mutual

/-- The nodes of an expression that use a name. -/
def names : Expr → List NameNode
  | literal _ => []
  | grouping inner => inner.names
  | unary _ operand => operand.names
  | binary left _ right => left.names ++ right.names
  | logical left _ right => left.names ++ right.names
  | ident id name => [⟨.read, id, name⟩]
  | assign id name value => ⟨.write, id, name⟩ :: value.names
  | call callee _ args => callee.names ++ namesList args
  | get object _ => object.names
  | set object _ value => object.names ++ value.names
  | receiver id keyword => [⟨.receiver, id, keyword⟩]

/-- The nodes of a list of expressions that use a name. -/
def namesList : List Expr → List NameNode
  | [] => []
  | e :: es => e.names ++ namesList es

end

/-- The nodes of an optional expression that use a name. -/
def namesOption : Option Expr → List NameNode
  | none => []
  | some e => e.names

end Expr

mutual

/-- The nodes of a statement that use a name. -/
def Stmt.names : Stmt → List NameNode
  | .expression e => e.names
  | .print e => e.names
  | .var _ init => Expr.namesOption init
  | .block body => Stmt.namesList body
  | .branch cond thenB none => cond.names ++ thenB.names
  | .branch cond thenB (some elseB) => cond.names ++ thenB.names ++ elseB.names
  | .loop cond body => cond.names ++ body.names
  | .function decl => decl.names
  | .ret _ value => Expr.namesOption value
  | .classDecl _ methods => FunDecl.namesList methods

/-- The nodes of a list of statements that use a name. -/
def Stmt.namesList : List Stmt → List NameNode
  | [] => []
  | s :: ss => s.names ++ Stmt.namesList ss

/-- The nodes of a function body that use a name. -/
def FunDecl.names : FunDecl → List NameNode
  | ⟨_, _, body⟩ => Stmt.namesList body

/-- The nodes of a list of function bodies that use a name. -/
def FunDecl.namesList : List FunDecl → List NameNode
  | [] => []
  | f :: fs => f.names ++ FunDecl.namesList fs

end

end Lox
