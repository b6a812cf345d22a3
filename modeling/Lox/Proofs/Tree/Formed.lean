/-
# Well-formed trees

What the shape of a tree does not say by itself: an operator node has one of its operators, a name
is an identifier, the receiver is the word `this`, and the branches of an `if` and the body of a
loop declare nothing of their own (`Stmt.declares`). `ok` is a property that all names have besides.
-/

import Lox.Tree.Names

namespace Lox

/-- The operators of a binary node. -/
def binaryOps : List Kind :=
  [.punct .minus, .punct .plus, .punct .slash, .punct .star, .punct .bangEqual,
    .punct .equalEqual, .punct .greater, .punct .greaterEqual, .punct .less, .punct .lessEqual]

/-- Whether the statement puts a name into the scope it stands in. -/
def Stmt.declares : Stmt → Bool
  | .var _ _ => true
  | .function _ => true
  | .classDecl _ _ => true
  | _ => false

section

variable (ok : Token → Prop)

/-- The token is an identifier. -/
def Token.IsName (t : Token) : Prop := t.kind = .identifier ∧ ok t

mutual

/-- The expression is well formed. -/
def Expr.Formed : Expr → Prop
  | .literal _ => True
  | .grouping inner => inner.Formed
  | .unary op operand => op.kind ∈ [Kind.punct .bang, Kind.punct .minus] ∧ operand.Formed
  | .binary left op right => op.kind ∈ binaryOps ∧ left.Formed ∧ right.Formed
  | .logical left op right =>
    op.kind ∈ [Kind.keyword .and_, Kind.keyword .or_] ∧ left.Formed ∧ right.Formed
  | .ident _ name => name.IsName ok
  | .assign _ name value => name.IsName ok ∧ value.Formed
  | .call callee _ args => callee.Formed ∧ Expr.FormedList args
  | .get object name => object.Formed ∧ name.IsName ok
  | .set object name value => object.Formed ∧ name.IsName ok ∧ value.Formed
  | .receiver _ keyword => keyword.kind = .keyword .this_ ∧ ok keyword

/-- The expressions are well formed. -/
def Expr.FormedList : List Expr → Prop
  | [] => True
  | e :: es => e.Formed ∧ Expr.FormedList es

end

mutual

/-- The statement is well formed. -/
def Stmt.Formed : Stmt → Prop
  | .expression e => e.Formed ok
  | .print e => e.Formed ok
  | .var name init => name.IsName ok ∧ ∀ e ∈ init, e.Formed ok
  | .block body => Stmt.FormedList body
  | .branch cond thenB none => cond.Formed ok ∧ thenB.declares = false ∧ thenB.Formed
  | .branch cond thenB (some elseB) =>
    cond.Formed ok ∧ (thenB.declares = false ∧ thenB.Formed) ∧
      elseB.declares = false ∧ elseB.Formed
  | .loop cond body => cond.Formed ok ∧ body.declares = false ∧ body.Formed
  | .function decl => decl.Formed
  | .ret _ value => ∀ e ∈ value, e.Formed ok
  | .classDecl name methods => name.IsName ok ∧ FunDecl.FormedList methods

/-- The statements are well formed. -/
def Stmt.FormedList : List Stmt → Prop
  | [] => True
  | s :: ss => s.Formed ∧ Stmt.FormedList ss

/-- The function is well formed. -/
def FunDecl.Formed : FunDecl → Prop
  | ⟨name, params, body⟩ =>
    name.IsName ok ∧ (∀ p ∈ params, p.IsName ok) ∧ Stmt.FormedList body

/-- The functions are well formed. -/
def FunDecl.FormedList : List FunDecl → Prop
  | [] => True
  | f :: fs => f.Formed ∧ FunDecl.FormedList fs

end

/-- The node of the receiver has the word `this`, the others have identifiers. -/
structure NameNode.Named (node : NameNode) : Prop where
  receiver : node.use = .receiver → node.name.kind = .keyword .this_ ∧ ok node.name
  name : node.use ≠ .receiver → node.name.IsName ok

/-- The statement is well formed and declares nothing. -/
abbrev Stmt.Plain (s : Stmt) : Prop := s.declares = false ∧ s.Formed ok

variable {ok}

attribute [local simp] Expr.Formed Expr.FormedList Stmt.Formed Stmt.FormedList FunDecl.Formed
  FunDecl.FormedList

/-- A list of expressions is well formed if each of them is. -/
theorem Expr.formedList_iff : ∀ {es : List Expr},
    Expr.FormedList ok es ↔ ∀ e ∈ es, e.Formed ok
  | [] => by simp
  | e :: es => by simp [Expr.formedList_iff]

mutual

/-- In a well-formed expression every use of a name is one of the right kind of word. -/
theorem Expr.Formed.named : ∀ {e : Expr}, e.Formed ok → ∀ node ∈ e.names, node.Named ok
  | .literal _, _, node, hn => by simp [Expr.names] at hn
  | .grouping _, hf, node, hn => by
    rw [Expr.Formed] at hf
    rw [Expr.names] at hn
    exact hf.named node hn
  | .unary _ _, hf, node, hn => by
    rw [Expr.Formed] at hf
    rw [Expr.names] at hn
    exact hf.2.named node hn
  | .binary _ _ _, hf, node, hn | .logical _ _ _, hf, node, hn => by
    rw [Expr.Formed] at hf
    rw [Expr.names] at hn
    rcases List.mem_append.1 hn with hn | hn
    · exact hf.2.1.named node hn
    · exact hf.2.2.named node hn
  | .ident _ _, hf, node, hn => by
    rw [Expr.Formed] at hf
    rw [Expr.names, List.mem_singleton] at hn
    subst hn
    exact ⟨fun h => (by cases h), fun _ => hf⟩
  | .assign _ _ _, hf, node, hn => by
    rw [Expr.Formed] at hf
    rw [Expr.names] at hn
    rcases List.mem_cons.1 hn with rfl | hn
    · exact ⟨fun h => (by cases h), fun _ => hf.1⟩
    · exact hf.2.named node hn
  | .call _ _ _, hf, node, hn => by
    rw [Expr.Formed] at hf
    rw [Expr.names] at hn
    rcases List.mem_append.1 hn with hn | hn
    · exact hf.1.named node hn
    · exact hf.2.named node hn
  | .get _ _, hf, node, hn => by
    rw [Expr.Formed] at hf
    rw [Expr.names] at hn
    exact hf.1.named node hn
  | .set _ _ _, hf, node, hn => by
    rw [Expr.Formed] at hf
    rw [Expr.names] at hn
    rcases List.mem_append.1 hn with hn | hn
    · exact hf.1.named node hn
    · exact hf.2.2.named node hn
  | .receiver _ _, hf, node, hn => by
    rw [Expr.Formed] at hf
    rw [Expr.names, List.mem_singleton] at hn
    subst hn
    exact ⟨fun _ => hf, fun h => absurd rfl h⟩

/-- The same of a list of expressions. -/
theorem Expr.FormedList.named : ∀ {es : List Expr}, Expr.FormedList ok es →
    ∀ node ∈ Expr.namesList es, node.Named ok
  | [], _, node, hn => by simp [Expr.namesList] at hn
  | _ :: _, hf, node, hn => by
    rw [Expr.FormedList] at hf
    rw [Expr.namesList] at hn
    rcases List.mem_append.1 hn with hn | hn
    · exact hf.1.named node hn
    · exact hf.2.named node hn

end

/-- A list of statements is well formed if each of them is. -/
theorem Stmt.formedList_iff : ∀ {ss : List Stmt},
    Stmt.FormedList ok ss ↔ ∀ s ∈ ss, s.Formed ok
  | [] => by simp
  | s :: ss => by simp [Stmt.formedList_iff]

/-- The methods of a class are well formed if each of them is. -/
theorem FunDecl.formedList_iff : ∀ {fs : List FunDecl},
    FunDecl.FormedList ok fs ↔ ∀ f ∈ fs, f.Formed ok
  | [] => by simp
  | f :: fs => by simp [FunDecl.formedList_iff]

end

end Lox
