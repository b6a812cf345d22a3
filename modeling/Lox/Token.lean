/-
# Tokens

A token is a kind, the piece of source text it was cut from, and a line. The kind of a string or a
number carries the literal. Two kinds are the *same* when they are of one constructor, whatever the
literal; two tokens are the same when their kinds are, and lexeme and line agree.
-/

import Lox.Number.Text

namespace Lox

/-- Punctuation and operators. -/
inductive Punct where
  | leftParen | rightParen | leftBrace | rightBrace
  | comma | dot | minus | plus | semicolon | slash | star
  | bang | bangEqual | equal | equalEqual
  | greater | greaterEqual | less | lessEqual
deriving DecidableEq, Repr

/-- The reserved words. -/
inductive Keyword where
  | and_ | class_ | else_ | false_ | fun_ | for_ | if_ | nil_
  | or_ | print_ | return_ | super_ | this_ | true_ | var_ | while_
deriving DecidableEq, Repr

/-- What a token is. -/
inductive Kind where
  | punct (p : Punct)
  | keyword (k : Keyword)
  | identifier
  | string (contents : String)
  | number (value : Float)
  | endOfInput
deriving DecidableEq, Repr

/-- A piece of the source with its kind and line. -/
structure Token where
  kind : Kind
  lexeme : String
  line : Nat
deriving DecidableEq, Repr

namespace Punct

/-- Every punctuation mark. -/
def all : List Punct :=
  [leftParen, rightParen, leftBrace, rightBrace, comma, dot, minus, plus, semicolon, slash, star,
    bang, bangEqual, equal, equalEqual, greater, greaterEqual, less, lessEqual]

/-- How the mark is spelled. -/
def spelling : Punct → String
  | leftParen => "(" | rightParen => ")" | leftBrace => "\x7b" | rightBrace => "\x7d"
  | comma => "," | dot => "." | minus => "-" | plus => "+" | semicolon => ";"
  | slash => "/" | star => "*"
  | bang => "!" | bangEqual => "!=" | equal => "=" | equalEqual => "=="
  | greater => ">" | greaterEqual => ">=" | less => "<" | lessEqual => "<="

/-- The name of the mark in token listings (the token type's `name`). -/
def name : Punct → String
  | leftParen => "LEFT_PAREN" | rightParen => "RIGHT_PAREN"
  | leftBrace => "LEFT_BRACE" | rightBrace => "RIGHT_BRACE"
  | comma => "COMMA" | dot => "DOT" | minus => "MINUS" | plus => "PLUS"
  | semicolon => "SEMICOLON" | slash => "SLASH" | star => "STAR"
  | bang => "BANG" | bangEqual => "BANG_EQUAL" | equal => "EQUAL" | equalEqual => "EQUAL_EQUAL"
  | greater => "GREATER" | greaterEqual => "GREATER_EQUAL"
  | less => "LESS" | lessEqual => "LESS_EQUAL"

end Punct

namespace Keyword

/-- Every reserved word. -/
def all : List Keyword :=
  [and_, class_, else_, false_, fun_, for_, if_, nil_, or_, print_, return_, super_, this_, true_,
    var_, while_]

/-- How the word is spelled. -/
def spelling : Keyword → String
  | and_ => "and" | class_ => "class" | else_ => "else" | false_ => "false"
  | fun_ => "fun" | for_ => "for" | if_ => "if" | nil_ => "nil"
  | or_ => "or" | print_ => "print" | return_ => "return" | super_ => "super"
  | this_ => "this" | true_ => "true" | var_ => "var" | while_ => "while"

/-- The name of the word in token listings. -/
def name : Keyword → String
  | and_ => "AND" | class_ => "CLASS" | else_ => "ELSE" | false_ => "FALSE"
  | fun_ => "FUN" | for_ => "FOR" | if_ => "IF" | nil_ => "NIL"
  | or_ => "OR" | print_ => "PRINT" | return_ => "RETURN" | super_ => "SUPER"
  | this_ => "THIS" | true_ => "TRUE" | var_ => "VAR" | while_ => "WHILE"

/-- The reserved word of a spelling. -/
def ofSpelling? (text : String) : Option Keyword := all.find? fun k => k.spelling == text

end Keyword

namespace Kind

/-- The name of the kind in token listings, without the literal (the token type's `name`). -/
def name : Kind → String
  | punct p => p.name
  | keyword k => k.name
  | identifier => "IDENTIFIER"
  | string _ => "STRING"
  | number _ => "NUMBER"
  | endOfInput => "EOF"

/-- Whether two kinds are of one constructor, as `eq` compares token types: literals do not count.
-/
def same : Kind → Kind → Bool
  | punct p, punct q => p == q
  | keyword j, keyword k => j == k
  | identifier, identifier => true
  | string _, string _ => true
  | number _, number _ => true
  | endOfInput, endOfInput => true
  | _, _ => false

/-- The kind with the given name, if it carries no literal. -/
def ofName? (name : String) : Option Kind :=
  let candidates :=
    Punct.all.map punct ++ Keyword.all.map keyword ++ [identifier, endOfInput]
  candidates.find? fun k => k.name == name

end Kind

namespace Token

/-- Whether two tokens are of the same kind and agree in lexeme and line. -/
def same (s t : Token) : Bool := s.kind.same t.kind && s.lexeme == t.lexeme && s.line == t.line

/-- The token that closes a source. -/
def endOfInput (line : Nat) : Token := ⟨.endOfInput, "", line⟩

/-- The literal in a token listing, `null` for a token without one. -/
def literalText (t : Token) : String :=
  match t.kind with
  | .string contents => contents
  | .number value => Number.tokenText value
  | _ => "null"

/-- The line of a token in a token listing (the token's `fmt`). -/
def text (t : Token) : String := t.kind.name ++ " " ++ t.lexeme ++ " " ++ t.literalText

end Token

end Lox
