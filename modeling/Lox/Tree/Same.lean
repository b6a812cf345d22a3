/-
# Sameness of trees

Two trees are the same when they have the same shape, the same tokens and the same node numbers.
Numbers are compared as the language compares them.
-/

import Lox.Tree

namespace Lox

namespace Literal

/-- Whether two constants are equal. -/
def same : Literal → Literal → Bool
  | nil, nil => true
  | bool a, bool b => a == b
  | number x, number y => x == y
  | string s, string t => s == t
  | _, _ => false

end Literal

namespace Expr

mutual

/-- Whether two expressions are the same. -/
def same : Expr → Expr → Bool
  | literal a, literal b => a.same b
  | grouping a, grouping b => a.same b
  | unary s a, unary t b => s.same t && a.same b
  | binary a s c, binary b t d => a.same b && s.same t && c.same d
  | logical a s c, logical b t d => a.same b && s.same t && c.same d
  | ident i s, ident j t => i == j && s.same t
  | assign i s a, assign j t b => i == j && s.same t && a.same b
  | call a s as, call b t bs => a.same b && s.same t && sameList as bs
  | get a s, get b t => a.same b && s.same t
  | set a s c, set b t d => a.same b && s.same t && c.same d
  | receiver i s, receiver j t => i == j && s.same t
  | _, _ => false

/-- Whether two lists of expressions are the same. -/
def sameList : List Expr → List Expr → Bool
  | [], [] => true
  | a :: as, b :: bs => a.same b && sameList as bs
  | _, _ => false

end

/-- Whether two optional expressions are the same. -/
def sameOption : Option Expr → Option Expr → Bool
  | none, none => true
  | some a, some b => a.same b
  | _, _ => false

end Expr

namespace Token

/-- Whether two lists of tokens are the same. -/
def sameList : List Token → List Token → Bool
  | [], [] => true
  | s :: ss, t :: ts => s.same t && sameList ss ts
  | _, _ => false

end Token

mutual

/-- Whether two statements are the same. -/
def Stmt.same : Stmt → Stmt → Bool
  | .expression a, .expression b => a.same b
  | .print a, .print b => a.same b
  | .var s a, .var t b => s.same t && Expr.sameOption a b
  | .block as, .block bs => Stmt.sameList as bs
  | .branch c a none, .branch d b none => c.same d && a.same b
  | .branch c a (some x), .branch d b (some y) => c.same d && a.same b && x.same y
  | .loop c a, .loop d b => c.same d && a.same b
  | .function f, .function g => f.same g
  | .ret s a, .ret t b => s.same t && Expr.sameOption a b
  | .classDecl s fs, .classDecl t gs => s.same t && FunDecl.sameList fs gs
  | _, _ => false

/-- Whether two lists of statements are the same. -/
def Stmt.sameList : List Stmt → List Stmt → Bool
  | [], [] => true
  | a :: as, b :: bs => a.same b && Stmt.sameList as bs
  | _, _ => false

/-- Whether two function declarations are the same. -/
def FunDecl.same : FunDecl → FunDecl → Bool
  | ⟨s, ps, as⟩, ⟨t, qs, bs⟩ => s.same t && Token.sameList ps qs && Stmt.sameList as bs

/-- Whether two lists of function declarations are the same. -/
def FunDecl.sameList : List FunDecl → List FunDecl → Bool
  | [], [] => true
  | f :: fs, g :: gs => f.same g && FunDecl.sameList fs gs
  | _, _ => false

end

end Lox
