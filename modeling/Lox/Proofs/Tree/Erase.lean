/-
# Trees without node numbers

The tree with the number zero in every node that uses a name. Two trees are equal up to node
numbers when they erase to the same tree.
-/

import Lox.Grammar.Statement

namespace Lox

namespace Expr

mutual

/-- The expression with its node numbers set to zero. -/
def erase : Expr → Expr
  | literal value => literal value
  | grouping inner => grouping inner.erase
  | unary op operand => unary op operand.erase
  | binary left op right => binary left.erase op right.erase
  | logical left op right => logical left.erase op right.erase
  | ident _ name => ident 0 name
  | assign _ name value => assign 0 name value.erase
  | call callee paren args => call callee.erase paren (eraseList args)
  | get object name => get object.erase name
  | set object name value => set object.erase name value.erase
  | receiver _ keyword => receiver 0 keyword

/-- The expressions with their node numbers set to zero. -/
def eraseList : List Expr → List Expr
  | [] => []
  | e :: es => e.erase :: eraseList es

end

/-- The numbers of expressions are erased one by one. -/
@[simp] theorem eraseList_eq_map : ∀ es : List Expr, eraseList es = es.map erase
  | [] => by rw [eraseList, List.map_nil]
  | e :: es => by rw [eraseList, eraseList_eq_map es, List.map_cons]

/-- Only the use of a name erases to the use of a name. -/
theorem eq_ident_of_erase {e : Expr} {name : Token} (h : e.erase = ident 0 name) :
    ∃ id, e = ident id name := by
  cases e <;> simp [erase] at h
  exact ⟨_, congrArg _ h⟩

/-- Only the reading of a property erases to one, of an object that erases to its object. -/
theorem eq_get_of_erase {e object : Expr} {name : Token} (h : e.erase = get object name) :
    ∃ object', e = get object' name ∧ object'.erase = object := by
  cases e <;> simp [erase] at h
  exact ⟨_, congrArg _ h.2, h.1⟩

end Expr

mutual

/-- The statement with its node numbers set to zero. -/
def Stmt.erase : Stmt → Stmt
  | .expression e => .expression e.erase
  | .print e => .print e.erase
  | .var name init => .var name (init.map Expr.erase)
  | .block body => .block (Stmt.eraseList body)
  | .branch cond thenB none => .branch cond.erase thenB.erase none
  | .branch cond thenB (some elseB) => .branch cond.erase thenB.erase (some elseB.erase)
  | .loop cond body => .loop cond.erase body.erase
  | .function decl => .function decl.erase
  | .ret keyword value => .ret keyword (value.map Expr.erase)
  | .classDecl name methods => .classDecl name (FunDecl.eraseList methods)

/-- The statements with their node numbers set to zero. -/
def Stmt.eraseList : List Stmt → List Stmt
  | [] => []
  | s :: ss => s.erase :: Stmt.eraseList ss

/-- The function with its node numbers set to zero. -/
def FunDecl.erase : FunDecl → FunDecl
  | ⟨name, params, body⟩ => ⟨name, params, Stmt.eraseList body⟩

/-- The functions with their node numbers set to zero. -/
def FunDecl.eraseList : List FunDecl → List FunDecl
  | [] => []
  | f :: fs => f.erase :: FunDecl.eraseList fs

end

/-- The numbers of statements are erased one by one. -/
@[simp] theorem Stmt.eraseList_eq_map : ∀ ss : List Stmt, Stmt.eraseList ss = ss.map Stmt.erase
  | [] => by rw [Stmt.eraseList, List.map_nil]
  | s :: ss => by rw [Stmt.eraseList, Stmt.eraseList_eq_map ss, List.map_cons]

/-- Only a `print` statement erases to one. -/
theorem Stmt.eq_print_of_erase {s : Stmt} {e : Expr} (h : s.erase = .print e) :
    ∃ e', s = .print e' ∧ e'.erase = e := by
  cases s with
  | print e' =>
    rw [erase] at h
    exact ⟨e', rfl, Stmt.print.inj h⟩
  | branch _ _ elseB => cases elseB <;> simp [erase] at h
  | _ => simp [erase] at h

@[simp] theorem FunDecl.eraseList_eq_map :
    ∀ fs : List FunDecl, FunDecl.eraseList fs = fs.map FunDecl.erase
  | [] => by rw [FunDecl.eraseList, List.map_nil]
  | f :: fs => by rw [FunDecl.eraseList, FunDecl.eraseList_eq_map fs, List.map_cons]

end Lox
