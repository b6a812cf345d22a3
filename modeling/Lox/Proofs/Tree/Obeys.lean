/-
# Rules for trees

What may be asked of a tree, node by node: of each use of a name, of each name that is declared, of
each function and of the loops (`TreeRules`). What is asked of a use of a name may depend on where
it stands; a position `κ` tells, and changes from the outside of a block, a function or a class to
its inside. A tree obeys the rules if all its parts do (`Stmt.Obeys`).
-/

import Lox.Proofs.Tree.Ids

namespace Lox

/-- What is asked of the parts of a tree. -/
structure TreeRules (κ : Type) where
  /-- Of a node that uses a name. -/
  node : κ → NameNode → Prop
  /-- Of the name of a variable, a parameter, a function or a class. -/
  name : String → Prop
  /-- Of a function, beyond what is asked of the parts of its body. -/
  function : FunDecl → Prop
  /-- Of a loop, which has to be allowed. -/
  loops : Prop
  /-- The position inside a block, or inside a function. -/
  inner : κ → κ
  /-- The position of a method of a class. -/
  method : κ → FunDecl → κ

section

variable {κ : Type} (R : TreeRules κ)

/-- The names that the expression uses obey the rules. -/
def Expr.Obeys (k : κ) (e : Expr) : Prop := ∀ node ∈ e.names, R.node k node

mutual

/-- The statement obeys the rules. -/
def Stmt.Obeys : κ → Stmt → Prop
  | k, .expression e => e.Obeys R k
  | k, .print e => e.Obeys R k
  | k, .var name init => R.name name.lexeme ∧ ∀ e ∈ init, e.Obeys R k
  | k, .block body => Stmt.ObeysList (R.inner k) body
  | k, .branch cond thenB none => cond.Obeys R k ∧ thenB.Obeys k
  | k, .branch cond thenB (some elseB) => cond.Obeys R k ∧ thenB.Obeys k ∧ elseB.Obeys k
  | k, .loop cond body => R.loops ∧ cond.Obeys R k ∧ body.Obeys k
  | k, .function decl => R.name decl.name.lexeme ∧ decl.Obeys k
  | k, .ret _ value => ∀ e ∈ value, e.Obeys R k
  | k, .classDecl name methods => R.name name.lexeme ∧ FunDecl.ObeysList k methods

/-- The statements obey the rules. -/
def Stmt.ObeysList : κ → List Stmt → Prop
  | _, [] => True
  | k, s :: ss => s.Obeys k ∧ Stmt.ObeysList k ss

/-- The function obeys the rules, with its parameters and its body. -/
def FunDecl.Obeys : κ → FunDecl → Prop
  | k, ⟨name, params, body⟩ => R.function ⟨name, params, body⟩ ∧
      (∀ t ∈ params, R.name t.lexeme) ∧ Stmt.ObeysList (R.inner k) body

/-- The methods of a class that stands at the position obey the rules. -/
def FunDecl.ObeysList : κ → List FunDecl → Prop
  | _, [] => True
  | k, f :: fs => f.Obeys (R.method k f) ∧ FunDecl.ObeysList k fs

end

variable {R} {k : κ}

/-- An expression with some of the names of another one obeys the rules that the other one obeys. -/
theorem Expr.Obeys.part {e e' : Expr} (h : e.Obeys R k) (part : e'.names ⊆ e.names) :
    e'.Obeys R k := fun node hn => h node (part hn)

/-- The arguments of a call obey the rules that the call obeys. -/
theorem Expr.Obeys.argument {callee : Expr} {paren : Token} {args : List Expr}
    (h : (Expr.call callee paren args).Obeys R k) : ∀ e ∈ args, e.Obeys R k := by
  intro e he node hn
  refine h node ?_
  rw [Expr.names]
  exact List.mem_append_right _ (Expr.mem_namesList he hn)

/-- Statements obey the rules if each of them does, at the position of the list. -/
theorem Stmt.obeysList_iff {ss : List Stmt} : Stmt.ObeysList R k ss ↔ ∀ s ∈ ss, s.Obeys R k := by
  induction ss with
  | nil => simp [Stmt.ObeysList]
  | cons s ss ih => simp [Stmt.ObeysList, ih]

/-- Methods obey the rules if each of them does, at its own position. -/
theorem FunDecl.obeysList_iff {fs : List FunDecl} :
    FunDecl.ObeysList R k fs ↔ ∀ f ∈ fs, f.Obeys R (R.method k f) := by
  induction fs with
  | nil => simp [FunDecl.ObeysList]
  | cons f fs ih => simp [FunDecl.ObeysList, ih]

/-- What is asked of a function holds of one that obeys the rules. -/
theorem FunDecl.Obeys.function {f : FunDecl} (h : f.Obeys R k) : R.function f := by
  obtain ⟨_, _, _⟩ := f
  rw [FunDecl.Obeys] at h
  exact h.1

/-- What is asked of names that are declared holds of its parameters. -/
theorem FunDecl.Obeys.params {f : FunDecl} (h : f.Obeys R k) : ∀ t ∈ f.params, R.name t.lexeme := by
  obtain ⟨_, _, _⟩ := f
  rw [FunDecl.Obeys] at h
  exact h.2.1

/-- The statements of its body obey the rules at the position inside it. -/
theorem FunDecl.Obeys.body {f : FunDecl} (h : f.Obeys R k) :
    ∀ s ∈ f.body, s.Obeys R (R.inner k) := by
  obtain ⟨_, _, _⟩ := f
  rw [FunDecl.Obeys] at h
  exact Stmt.obeysList_iff.1 h.2.2

end

/-! ## Weaker rules -/

section

variable {κ : Type} {R R' : TreeRules κ}

/-- What obeys `R` obeys `R'`: less is asked, at the same positions. -/
structure TreeRules.Weakens (R R' : TreeRules κ) : Prop where
  node : ∀ k node, R.node k node → R'.node k node
  name : ∀ name, R.name name → R'.name name
  function : ∀ f, R.function f → R'.function f
  loops : R.loops → R'.loops
  inner : R'.inner = R.inner
  method : R'.method = R.method

/-- An expression obeys weaker rules. -/
theorem Expr.Obeys.mono (h : R.Weakens R') {k : κ} {e : Expr} (he : e.Obeys R k) :
    e.Obeys R' k := fun node hn => h.node k node (he node hn)

mutual

/-- A statement obeys weaker rules. -/
theorem Stmt.Obeys.mono (h : R.Weakens R') : ∀ {s : Stmt} {k : κ}, s.Obeys R k → s.Obeys R' k
  | .expression _, _, ho | .print _, _, ho => by
    rw [Stmt.Obeys] at ho ⊢
    exact Expr.Obeys.mono h ho
  | .var _ _, _, ho => by
    rw [Stmt.Obeys] at ho ⊢
    exact ⟨h.name _ ho.1, fun e he => (ho.2 e he).mono h⟩
  | .block _, _, ho => by
    rw [Stmt.Obeys] at ho ⊢
    rw [h.inner]
    exact Stmt.ObeysList.mono h ho
  | .branch _ _ none, _, ho => by
    rw [Stmt.Obeys] at ho ⊢
    exact ⟨ho.1.mono h, Stmt.Obeys.mono h ho.2⟩
  | .branch _ _ (some _), _, ho => by
    rw [Stmt.Obeys] at ho ⊢
    exact ⟨ho.1.mono h, Stmt.Obeys.mono h ho.2.1, Stmt.Obeys.mono h ho.2.2⟩
  | .loop _ _, _, ho => by
    rw [Stmt.Obeys] at ho ⊢
    exact ⟨h.loops ho.1, ho.2.1.mono h, Stmt.Obeys.mono h ho.2.2⟩
  | .function _, _, ho => by
    rw [Stmt.Obeys] at ho ⊢
    exact ⟨h.name _ ho.1, FunDecl.Obeys.mono h ho.2⟩
  | .ret _ _, _, ho => by
    rw [Stmt.Obeys] at ho ⊢
    exact fun e he => (ho e he).mono h
  | .classDecl _ _, _, ho => by
    rw [Stmt.Obeys] at ho ⊢
    exact ⟨h.name _ ho.1, FunDecl.ObeysList.mono h ho.2⟩

/-- The same of a list of statements. -/
theorem Stmt.ObeysList.mono (h : R.Weakens R') : ∀ {ss : List Stmt} {k : κ},
    Stmt.ObeysList R k ss → Stmt.ObeysList R' k ss
  | [], _, _ => by rw [Stmt.ObeysList]; trivial
  | _ :: _, _, ho => by
    rw [Stmt.ObeysList] at ho ⊢
    exact ⟨Stmt.Obeys.mono h ho.1, Stmt.ObeysList.mono h ho.2⟩

/-- A function obeys weaker rules. -/
theorem FunDecl.Obeys.mono (h : R.Weakens R') : ∀ {f : FunDecl} {k : κ},
    f.Obeys R k → f.Obeys R' k
  | ⟨_, _, _⟩, _, ho => by
    rw [FunDecl.Obeys] at ho ⊢
    rw [h.inner]
    exact ⟨h.function _ ho.1, fun t ht => h.name _ (ho.2.1 t ht), Stmt.ObeysList.mono h ho.2.2⟩

/-- The same of the methods of a class. -/
theorem FunDecl.ObeysList.mono (h : R.Weakens R') : ∀ {fs : List FunDecl} {k : κ},
    FunDecl.ObeysList R k fs → FunDecl.ObeysList R' k fs
  | [], _, _ => by rw [FunDecl.ObeysList]; trivial
  | _ :: _, _, ho => by
    rw [FunDecl.ObeysList] at ho ⊢
    rw [h.method]
    exact ⟨FunDecl.Obeys.mono h ho.1, FunDecl.ObeysList.mono h ho.2⟩

end

end

/-- Nothing is asked. -/
def TreeRules.any : TreeRules Unit where
  node _ _ := True
  name _ := True
  function _ := True
  loops := True
  inner := id
  method k _ := k

mutual

/-- Every statement obeys the rules that ask nothing. -/
theorem Stmt.obeys_any : ∀ s : Stmt, s.Obeys .any ()
  | .expression _ | .print _ => by rw [Stmt.Obeys]; exact fun _ _ => trivial
  | .var _ _ => by rw [Stmt.Obeys]; exact ⟨trivial, fun _ _ _ _ => trivial⟩
  | .block body => by rw [Stmt.Obeys]; exact Stmt.obeysList_any body
  | .branch _ thenB none => by rw [Stmt.Obeys]; exact ⟨fun _ _ => trivial, thenB.obeys_any⟩
  | .branch _ thenB (some elseB) => by
    rw [Stmt.Obeys]
    exact ⟨fun _ _ => trivial, thenB.obeys_any, elseB.obeys_any⟩
  | .loop _ body => by rw [Stmt.Obeys]; exact ⟨trivial, fun _ _ => trivial, body.obeys_any⟩
  | .function decl => by rw [Stmt.Obeys]; exact ⟨trivial, decl.obeys_any⟩
  | .ret _ _ => by rw [Stmt.Obeys]; exact fun _ _ _ _ => trivial
  | .classDecl _ methods => by rw [Stmt.Obeys]; exact ⟨trivial, FunDecl.obeysList_any methods⟩

/-- The same of a list of statements. -/
theorem Stmt.obeysList_any : ∀ ss : List Stmt, Stmt.ObeysList .any () ss
  | [] => by rw [Stmt.ObeysList]; trivial
  | s :: ss => by rw [Stmt.ObeysList]; exact ⟨s.obeys_any, Stmt.obeysList_any ss⟩

theorem FunDecl.obeys_any : ∀ f : FunDecl, f.Obeys .any ()
  | ⟨_, _, body⟩ => by
    rw [FunDecl.Obeys]
    exact ⟨trivial, fun _ _ => trivial, Stmt.obeysList_any body⟩

theorem FunDecl.obeysList_any : ∀ fs : List FunDecl, FunDecl.ObeysList .any () fs
  | [] => by rw [FunDecl.ObeysList]; trivial
  | f :: fs => by rw [FunDecl.ObeysList]; exact ⟨f.obeys_any, FunDecl.obeysList_any fs⟩

end

end Lox
