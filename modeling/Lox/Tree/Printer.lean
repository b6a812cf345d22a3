/-
# Printed trees

The parenthesised form of a tree, operator first: `(+ 1.0 (group 2.0))`. Node numbers, lines and
the tokens that only mark a place are not shown.
-/

import Lox.Tree

namespace Lox

namespace Literal

/-- The text of a constant; a string stands without quotes. -/
def text : Literal → String
  | nil => "nil"
  | bool true => "true"
  | bool false => "false"
  | number x => Number.treeText x
  | string s => s

end Literal

/-- The texts, each after a blank (the printer's `join`). -/
def spaced (texts : List String) : String := String.join (texts.map (" " ++ ·))

namespace Expr

mutual

/-- The printed form of an expression (the printer's `print`). -/
def text : Expr → String
  | literal value => value.text
  | grouping inner => "(group " ++ inner.text ++ ")"
  | unary op operand => "(" ++ op.lexeme ++ " " ++ operand.text ++ ")"
  | binary left op right => "(" ++ op.lexeme ++ " " ++ left.text ++ " " ++ right.text ++ ")"
  | logical left op right => "(" ++ op.lexeme ++ " " ++ left.text ++ " " ++ right.text ++ ")"
  | ident _ name => name.lexeme
  | assign _ name value => "(= " ++ name.lexeme ++ " " ++ value.text ++ ")"
  | call callee _ args => "(call " ++ callee.text ++ spaced (texts args) ++ ")"
  | get object name => "(. " ++ object.text ++ " " ++ name.lexeme ++ ")"
  | set object name value =>
    "(= (. " ++ object.text ++ " " ++ name.lexeme ++ ") " ++ value.text ++ ")"
  | receiver _ _ => "this"

/-- The printed forms of a list of expressions. -/
def texts : List Expr → List String
  | [] => []
  | e :: es => e.text :: texts es

end

end Expr

mutual

/-- The printed form of a statement (`print_stmt`). -/
def Stmt.text : Stmt → String
  | .expression e => "(; " ++ e.text ++ ")"
  | .print e => "(print " ++ e.text ++ ")"
  | .var name (some init) => "(var " ++ name.lexeme ++ " " ++ init.text ++ ")"
  | .var name none => "(var " ++ name.lexeme ++ ")"
  | .block body => "(block" ++ spaced (Stmt.texts body) ++ ")"
  | .branch cond thenB (some elseB) =>
    "(if-else " ++ cond.text ++ " " ++ thenB.text ++ " " ++ elseB.text ++ ")"
  | .branch cond thenB none => "(if " ++ cond.text ++ " " ++ thenB.text ++ ")"
  | .loop cond body => "(while " ++ cond.text ++ " " ++ body.text ++ ")"
  | .function decl => decl.text "fun"
  | .ret _ (some value) => "(return " ++ value.text ++ ")"
  | .ret _ none => "(return)"
  | .classDecl name methods =>
    "(class " ++ name.lexeme ++ spaced (FunDecl.texts methods) ++ ")"

/-- The printed forms of a list of statements. -/
def Stmt.texts : List Stmt → List String
  | [] => []
  | s :: ss => s.text :: Stmt.texts ss

/-- The printed form of a function declaration under the given head (`function`). -/
def FunDecl.text (head : String) : FunDecl → String
  | ⟨name, params, body⟩ =>
    "(" ++ head ++ " " ++ name.lexeme ++ "(" ++ " ".intercalate (params.map (·.lexeme)) ++ ")" ++
      spaced (Stmt.texts body) ++ ")"

/-- The printed forms of the methods of a class. -/
def FunDecl.texts : List FunDecl → List String
  | [] => []
  | f :: fs => f.text "method" :: FunDecl.texts fs

end

end Lox
