/-
# Node numbers of trees

The numbers of the nodes that use a name, in the order of the source.
-/

import Lox.Tree.Names

namespace Lox

/-- The numbers of an expression's nodes. -/
def Expr.ids (e : Expr) : List NodeId := e.names.map NameNode.id

/-- The numbers of a statement's nodes. -/
def Stmt.ids (s : Stmt) : List NodeId := s.names.map NameNode.id

/-- The numbers of a function's nodes. -/
def FunDecl.ids (f : FunDecl) : List NodeId := f.names.map NameNode.id

section

attribute [local simp] Expr.names Expr.namesList Stmt.names Stmt.namesList FunDecl.names
  FunDecl.namesList

/-- The numbers of the names in a list of expressions are those of each expression in turn. -/
theorem Expr.map_namesList : ∀ es : List Expr,
    (Expr.namesList es).map NameNode.id = es.flatMap Expr.ids
  | [] => by simp
  | e :: es => by simp [Expr.map_namesList es, Expr.ids]

/-- The names of an expression are among those of a list that has it. -/
theorem Expr.mem_namesList {node : NameNode} {e : Expr} : ∀ {es : List Expr},
    e ∈ es → node ∈ e.names → node ∈ Expr.namesList es
  | e' :: es, he, hn => by
    rw [Expr.namesList]
    rcases List.mem_cons.1 he with rfl | he
    · exact List.mem_append_left _ hn
    · exact List.mem_append_right _ (Expr.mem_namesList he hn)

/-- The numbers of the names in a list of statements are those of each statement in turn. -/
theorem Stmt.map_namesList : ∀ ss : List Stmt,
    (Stmt.namesList ss).map NameNode.id = ss.flatMap Stmt.ids
  | [] => by simp
  | s :: ss => by simp [Stmt.map_namesList ss, Stmt.ids]

/-- The numbers of the names in a list of functions are those of each function in turn. -/
theorem FunDecl.map_namesList : ∀ fs : List FunDecl,
    (FunDecl.namesList fs).map NameNode.id = fs.flatMap FunDecl.ids
  | [] => by simp
  | f :: fs => by simp [FunDecl.map_namesList fs, FunDecl.ids]

end

/-- A call has the numbers of its callee and then those of its arguments. -/
theorem Expr.ids_call (callee : Expr) (paren : Token) (args : List Expr) :
    (Expr.call callee paren args).ids = callee.ids ++ args.flatMap Expr.ids := by
  rw [Expr.ids, Expr.names, List.map_append, Expr.map_namesList]
  rfl

theorem Expr.map_namesOption : ∀ e : Option Expr,
    (Expr.namesOption e).map NameNode.id = e.toList.flatMap Expr.ids
  | none => rfl
  | some e => by rw [Expr.namesOption, Option.toList_some, List.flatMap_singleton]; rfl

end Lox
