/-
# Assignments in a variable's own initializer

A variable that is declared inside a block or a function can be assigned to in its own initializer,
before it exists. `Stmt.assignsOwn` finds the statements in which that happens.
-/

import Lox.Tree.Names

namespace Lox

/-- Whether the expression assigns to the name. -/
def Expr.assigns (e : Expr) (name : String) : Bool :=
  e.names.any fun node => node.use = .write && node.name.lexeme = name

mutual

/-- Whether some variable that is local to a block or a function is assigned to in its own
initializer. -/
def Stmt.assignsOwn (isLocal : Bool) : Stmt → Bool
  | .var name init => isLocal && init.any fun e => e.assigns name.lexeme
  | .block body => Stmt.assignsOwnList true body
  | .branch _ thenB none => thenB.assignsOwn isLocal
  | .branch _ thenB (some elseB) => thenB.assignsOwn isLocal || elseB.assignsOwn isLocal
  | .loop _ body => body.assignsOwn isLocal
  | .function decl => decl.assignsOwn
  | .classDecl _ methods => FunDecl.assignsOwnList methods
  | _ => false

/-- Whether it happens in one of the statements. -/
def Stmt.assignsOwnList (isLocal : Bool) : List Stmt → Bool
  | [] => false
  | s :: ss => s.assignsOwn isLocal || Stmt.assignsOwnList isLocal ss

/-- Whether it happens in the function. -/
def FunDecl.assignsOwn : FunDecl → Bool
  | ⟨_, _, body⟩ => Stmt.assignsOwnList true body

/-- Whether it happens in one of the functions. -/
def FunDecl.assignsOwnList : List FunDecl → Bool
  | [] => false
  | f :: fs => f.assignsOwn || FunDecl.assignsOwnList fs

end

end Lox
