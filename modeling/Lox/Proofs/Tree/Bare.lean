/-
# What the printed form of a tree leaves out

Node numbers, lines, the parentheses that close calls and the words `return` are not printed. A tree
with none of that (`Stmt.bare`) is printed as the tree is (`Stmt.text_bare`), so no more than the
bare tree can be told from a printed form. The constants of a tree are collected here too: of what
is printed, they alone need not show what kind of word they are.
-/

import Lox.Tree.Printer

namespace Lox

/-! ## Bare trees -/

/-- The token without its line. -/
def Token.bare (t : Token) : Token := { t with line := 0 }

/-- A closing parenthesis. -/
def Token.closing : Token := ⟨.punct .rightParen, ")", 0⟩

/-- The word `return`. -/
def Token.returning : Token := ⟨.keyword .return_, "return", 0⟩

namespace Expr

mutual

/-- The expression without node numbers, lines and the parentheses of its calls. -/
def bare : Expr → Expr
  | literal value => literal value
  | grouping inner => grouping inner.bare
  | unary op operand => unary op.bare operand.bare
  | binary left op right => binary left.bare op.bare right.bare
  | logical left op right => logical left.bare op.bare right.bare
  | ident _ name => ident 0 name.bare
  | assign _ name value => assign 0 name.bare value.bare
  | call callee _ args => call callee.bare .closing (bareList args)
  | get object name => get object.bare name.bare
  | set object name value => set object.bare name.bare value.bare
  | receiver _ keyword => receiver 0 keyword.bare

/-- The expressions without node numbers, lines and parentheses. -/
def bareList : List Expr → List Expr
  | [] => []
  | e :: es => e.bare :: bareList es

end

end Expr

mutual

/-- The statement without node numbers, lines, the parentheses of calls and the words `return`. -/
def Stmt.bare : Stmt → Stmt
  | .expression e => .expression e.bare
  | .print e => .print e.bare
  | .var name init => .var name.bare (init.map Expr.bare)
  | .block body => .block (Stmt.bareList body)
  | .branch cond thenB none => .branch cond.bare thenB.bare none
  | .branch cond thenB (some elseB) => .branch cond.bare thenB.bare (some elseB.bare)
  | .loop cond body => .loop cond.bare body.bare
  | .function decl => .function decl.bare
  | .ret _ value => .ret .returning (value.map Expr.bare)
  | .classDecl name methods => .classDecl name.bare (FunDecl.bareList methods)

/-- The same of statements. -/
def Stmt.bareList : List Stmt → List Stmt
  | [] => []
  | s :: ss => s.bare :: Stmt.bareList ss

/-- The same of a function. -/
def FunDecl.bare : FunDecl → FunDecl
  | ⟨name, params, body⟩ => ⟨name.bare, params.map Token.bare, Stmt.bareList body⟩

/-- The same of functions. -/
def FunDecl.bareList : List FunDecl → List FunDecl
  | [] => []
  | f :: fs => f.bare :: FunDecl.bareList fs

end

/-! ## What is printed of a tree is printed of its bare tree -/

section Text

attribute [local simp] Expr.bare Expr.bareList Expr.text Expr.texts Token.bare

mutual

/-- An expression is printed as its bare form is. -/
theorem Expr.text_bare : ∀ e : Expr, e.bare.text = e.text
  | .literal _ => by simp
  | .grouping inner => by simp [inner.text_bare]
  | .unary _ operand => by simp [operand.text_bare]
  | .binary left _ right => by simp [left.text_bare, right.text_bare]
  | .logical left _ right => by simp [left.text_bare, right.text_bare]
  | .ident _ _ => by simp
  | .assign _ _ value => by simp [value.text_bare]
  | .call callee _ args => by simp [callee.text_bare, Expr.texts_bare args]
  | .get object _ => by simp [object.text_bare]
  | .set object _ value => by simp [object.text_bare, value.text_bare]
  | .receiver _ _ => by simp

/-- The same of lists of expressions. -/
theorem Expr.texts_bare : ∀ es : List Expr, Expr.texts (Expr.bareList es) = Expr.texts es
  | [] => rfl
  | e :: es => by simp [e.text_bare, Expr.texts_bare es]

end

attribute [local simp] Stmt.bare Stmt.bareList FunDecl.bare FunDecl.bareList Stmt.text Stmt.texts
  FunDecl.text FunDecl.texts Expr.text_bare

mutual

/-- A statement is printed as its bare form is. -/
theorem Stmt.text_bare : ∀ s : Stmt, s.bare.text = s.text
  | .expression _ => by simp
  | .print _ => by simp
  | .var _ none => by simp
  | .var _ (some _) => by simp
  | .block body => by simp [Stmt.texts_bare body]
  | .branch _ thenB none => by simp [thenB.text_bare]
  | .branch _ thenB (some elseB) => by simp [thenB.text_bare, elseB.text_bare]
  | .loop _ body => by simp [body.text_bare]
  | .function decl => by simp [decl.text_bare "fun"]
  | .ret _ none => by simp
  | .ret _ (some _) => by simp
  | .classDecl _ methods => by simp [FunDecl.texts_bare methods]

/-- The same of lists of statements. -/
theorem Stmt.texts_bare : ∀ ss : List Stmt, Stmt.texts (Stmt.bareList ss) = Stmt.texts ss
  | [] => rfl
  | s :: ss => by simp [s.text_bare, Stmt.texts_bare ss]

/-- A function is printed as its bare form is, under any head. -/
theorem FunDecl.text_bare (head : String) : ∀ f : FunDecl, f.bare.text head = f.text head
  | ⟨name, params, body⟩ => by simp [Stmt.texts_bare body, Function.comp_def]

theorem FunDecl.texts_bare : ∀ fs : List FunDecl,
    FunDecl.texts (FunDecl.bareList fs) = FunDecl.texts fs
  | [] => rfl
  | f :: fs => by simp [f.text_bare "method", FunDecl.texts_bare fs]

end

/-- Statements are printed one by one. -/
theorem Stmt.texts_eq_map : ∀ ss : List Stmt, Stmt.texts ss = ss.map Stmt.text
  | [] => rfl
  | s :: ss => by simp [Stmt.texts_eq_map ss]

/-- The bare form of statements is that of each of them. -/
theorem Stmt.bareList_eq_map : ∀ ss : List Stmt, Stmt.bareList ss = ss.map Stmt.bare
  | [] => rfl
  | s :: ss => by simp [Stmt.bareList_eq_map ss]

end Text

/-! ## Constants -/

namespace Expr

mutual

/-- The constants in an expression. -/
def literals : Expr → List Literal
  | literal value => [value]
  | grouping inner => inner.literals
  | unary _ operand => operand.literals
  | binary left _ right => left.literals ++ right.literals
  | logical left _ right => left.literals ++ right.literals
  | ident _ _ => []
  | assign _ _ value => value.literals
  | call callee _ args => callee.literals ++ literalsList args
  | get object _ => object.literals
  | set object _ value => object.literals ++ value.literals
  | receiver _ _ => []

/-- The constants in a list of expressions. -/
def literalsList : List Expr → List Literal
  | [] => []
  | e :: es => e.literals ++ literalsList es

end

/-- The constants in an optional expression. -/
def literalsOption : Option Expr → List Literal
  | none => []
  | some e => e.literals

end Expr

mutual

/-- The constants in a statement. -/
def Stmt.literals : Stmt → List Literal
  | .expression e => e.literals
  | .print e => e.literals
  | .var _ init => Expr.literalsOption init
  | .block body => Stmt.literalsList body
  | .branch cond thenB none => cond.literals ++ thenB.literals
  | .branch cond thenB (some elseB) => cond.literals ++ thenB.literals ++ elseB.literals
  | .loop cond body => cond.literals ++ body.literals
  | .function decl => decl.literals
  | .ret _ value => Expr.literalsOption value
  | .classDecl _ methods => FunDecl.literalsList methods

/-- The constants in a list of statements. -/
def Stmt.literalsList : List Stmt → List Literal
  | [] => []
  | s :: ss => s.literals ++ Stmt.literalsList ss

/-- The constants in a function. -/
def FunDecl.literals : FunDecl → List Literal
  | ⟨_, _, body⟩ => Stmt.literalsList body

/-- The constants in a list of functions. -/
def FunDecl.literalsList : List FunDecl → List Literal
  | [] => []
  | f :: fs => f.literals ++ FunDecl.literalsList fs

end

end Lox
