/-
# Trees that differ in tokens and node numbers

Two trees are alike if they have the same shape, with tokens that are related by `R` and node
numbers that are related by `J` in the same places. A tree is alike to itself, whatever its numbers
are taken to be, if `R` relates each of its tokens to itself (`Stmt.Alike.refl`), and trees that
erase to the same tree are alike (`Stmt.Alike.of_erase`).
-/

import Lox.Proofs.Tree.Erase
import Mathlib.Data.List.Forall2

namespace Lox

/-- The tokens read the same, on whatever lines they stand. -/
structure Token.Reads (t t' : Token) : Prop where
  kind : t'.kind = t.kind
  lexeme : t'.lexeme = t.lexeme

/-- Related tokens read the same. -/
abbrev Faithful (R : Token → Token → Prop) : Prop := ∀ t t', R t t' → t.Reads t'

/-- Each token reads as itself. -/
theorem faithful_eq : Faithful Eq := by
  rintro t _ rfl
  exact ⟨rfl, rfl⟩

section

variable (R : Token → Token → Prop) (J : NodeId → NodeId → Prop)

mutual

/-- Expressions of the same shape. -/
inductive Expr.Alike : Expr → Expr → Prop
  | literal (value : Literal) : Expr.Alike (.literal value) (.literal value)
  | grouping {e e' : Expr} (he : e.Alike e') : Expr.Alike (.grouping e) (.grouping e')
  | unary {op op' : Token} {e e' : Expr} (ho : R op op') (he : e.Alike e') :
    Expr.Alike (.unary op e) (.unary op' e')
  | binary {l l' r r' : Expr} {op op' : Token} (hl : l.Alike l') (ho : R op op')
      (hr : r.Alike r') : Expr.Alike (.binary l op r) (.binary l' op' r')
  | logical {l l' r r' : Expr} {op op' : Token} (hl : l.Alike l') (ho : R op op')
      (hr : r.Alike r') : Expr.Alike (.logical l op r) (.logical l' op' r')
  | ident {id id' : NodeId} {name name' : Token} (hi : J id id') (hn : R name name') :
    Expr.Alike (.ident id name) (.ident id' name')
  | assign {id id' : NodeId} {name name' : Token} {e e' : Expr} (hi : J id id')
      (hn : R name name') (he : e.Alike e') : Expr.Alike (.assign id name e) (.assign id' name' e')
  | call {f f' : Expr} {paren paren' : Token} {args args' : List Expr} (hf : f.Alike f')
      (hp : R paren paren') (ha : Expr.AlikeList args args') :
    Expr.Alike (.call f paren args) (.call f' paren' args')
  | get {o o' : Expr} {name name' : Token} (ho : o.Alike o') (hn : R name name') :
    Expr.Alike (.get o name) (.get o' name')
  | set {o o' e e' : Expr} {name name' : Token} (ho : o.Alike o') (hn : R name name')
      (he : e.Alike e') : Expr.Alike (.set o name e) (.set o' name' e')
  | receiver {id id' : NodeId} {keyword keyword' : Token} (hi : J id id')
      (hk : R keyword keyword') : Expr.Alike (.receiver id keyword) (.receiver id' keyword')

/-- Expressions of the same shapes, one after the other. -/
inductive Expr.AlikeList : List Expr → List Expr → Prop
  | nil : Expr.AlikeList [] []
  | cons {e e' : Expr} {es es' : List Expr} (he : e.Alike e') (hs : Expr.AlikeList es es') :
    Expr.AlikeList (e :: es) (e' :: es')

end

mutual

/-- Statements of the same shape. -/
inductive Stmt.Alike : Stmt → Stmt → Prop
  | expression {e e' : Expr} (he : e.Alike R J e') : Stmt.Alike (.expression e) (.expression e')
  | print {e e' : Expr} (he : e.Alike R J e') : Stmt.Alike (.print e) (.print e')
  | var {name name' : Token} {init init' : Option Expr} (hn : R name name')
      (hi : Option.Rel (Expr.Alike R J) init init') : Stmt.Alike (.var name init) (.var name' init')
  | block {ss ss' : List Stmt} (hs : Stmt.AlikeList ss ss') : Stmt.Alike (.block ss) (.block ss')
  | ifThen {e e' : Expr} {s s' : Stmt} (he : e.Alike R J e') (hs : s.Alike s') :
    Stmt.Alike (.branch e s none) (.branch e' s' none)
  | ifElse {e e' : Expr} {s s' t t' : Stmt} (he : e.Alike R J e') (hs : s.Alike s')
      (ht : t.Alike t') : Stmt.Alike (.branch e s (some t)) (.branch e' s' (some t'))
  | loop {e e' : Expr} {s s' : Stmt} (he : e.Alike R J e') (hs : s.Alike s') :
    Stmt.Alike (.loop e s) (.loop e' s')
  | function {f f' : FunDecl} (hf : f.Alike f') : Stmt.Alike (.function f) (.function f')
  | ret {keyword keyword' : Token} {value value' : Option Expr} (hk : R keyword keyword')
      (hv : Option.Rel (Expr.Alike R J) value value') :
    Stmt.Alike (.ret keyword value) (.ret keyword' value')
  | classDecl {name name' : Token} {fs fs' : List FunDecl} (hn : R name name')
      (hf : FunDecl.AlikeList fs fs') : Stmt.Alike (.classDecl name fs) (.classDecl name' fs')

/-- Statements of the same shapes, one after the other. -/
inductive Stmt.AlikeList : List Stmt → List Stmt → Prop
  | nil : Stmt.AlikeList [] []
  | cons {s s' : Stmt} {ss ss' : List Stmt} (hs : s.Alike s') (hss : Stmt.AlikeList ss ss') :
    Stmt.AlikeList (s :: ss) (s' :: ss')

/-- Functions of the same shape. -/
inductive FunDecl.Alike : FunDecl → FunDecl → Prop
  | intro {name name' : Token} {params params' : List Token} {body body' : List Stmt}
      (hn : R name name') (hp : List.Forall₂ R params params') (hb : Stmt.AlikeList body body') :
    FunDecl.Alike ⟨name, params, body⟩ ⟨name', params', body'⟩

/-- Functions of the same shapes, one after the other. -/
inductive FunDecl.AlikeList : List FunDecl → List FunDecl → Prop
  | nil : FunDecl.AlikeList [] []
  | cons {f f' : FunDecl} {fs fs' : List FunDecl} (hf : f.Alike f')
      (hs : FunDecl.AlikeList fs fs') : FunDecl.AlikeList (f :: fs) (f' :: fs')

end

end

/-- Node numbers are left out of account. -/
abbrev AnyNumber : NodeId → NodeId → Prop := fun _ _ => True

section

variable {R : Token → Token → Prop} {J : NodeId → NodeId → Prop}

/-- Alike functions have related names. -/
theorem FunDecl.Alike.name {f f' : FunDecl} (h : f.Alike R J f') : R f.name f'.name := by
  cases h with
  | intro hn _ _ => exact hn

/-- Expressions that are alike one by one are alike as a list. -/
theorem Expr.AlikeList.of_forall {es es' : List Expr} (h : List.Forall₂ (Expr.Alike R J) es es') :
    Expr.AlikeList R J es es' := by
  induction h with
  | nil => exact .nil
  | cons he _ ih => exact .cons he ih

/-- Lists of alike statements are put together to alike lists. -/
theorem Stmt.AlikeList.append {ss ss' ts ts' : List Stmt} (h : Stmt.AlikeList R J ss ss')
    (h' : Stmt.AlikeList R J ts ts') : Stmt.AlikeList R J (ss ++ ts) (ss' ++ ts') := by
  induction ss generalizing ss' with
  | nil =>
    cases h
    exact h'
  | cons s ss ih =>
    cases h with
    | cons hs hss => exact .cons hs (ih hss)

/-- What is alike to statements put together falls into what is alike to either part. -/
theorem Stmt.AlikeList.split {ts : List Stmt} : ∀ {ss us : List Stmt},
    Stmt.AlikeList R J (ss ++ ts) us →
      ∃ us₁ us₂, us = us₁ ++ us₂ ∧ Stmt.AlikeList R J ss us₁ ∧ Stmt.AlikeList R J ts us₂
  | [], us, h => ⟨[], us, rfl, .nil, h⟩
  | _ :: _, _ :: _, .cons hs hss => by
    obtain ⟨us₁, us₂, rfl, h₁, h₂⟩ := Stmt.AlikeList.split hss
    exact ⟨_ :: us₁, us₂, rfl, .cons hs h₁, h₂⟩

end

namespace Expr

mutual

/-- The tokens of an expression. -/
def tokens : Expr → List Token
  | literal _ => []
  | grouping inner => inner.tokens
  | unary op operand => op :: operand.tokens
  | binary left op right => left.tokens ++ op :: right.tokens
  | logical left op right => left.tokens ++ op :: right.tokens
  | ident _ name => [name]
  | assign _ name value => name :: value.tokens
  | call callee paren args => callee.tokens ++ paren :: tokensList args
  | get object name => object.tokens ++ [name]
  | set object name value => object.tokens ++ name :: value.tokens
  | receiver _ keyword => [keyword]

/-- The tokens of a list of expressions. -/
def tokensList : List Expr → List Token
  | [] => []
  | e :: es => e.tokens ++ tokensList es

end

/-- The tokens of an optional expression. -/
def tokensOption : Option Expr → List Token
  | none => []
  | some e => e.tokens

end Expr

mutual

/-- The tokens of a statement. -/
def Stmt.tokens : Stmt → List Token
  | .expression e => e.tokens
  | .print e => e.tokens
  | .var name init => name :: Expr.tokensOption init
  | .block body => Stmt.tokensList body
  | .branch cond thenB none => cond.tokens ++ thenB.tokens
  | .branch cond thenB (some elseB) => cond.tokens ++ thenB.tokens ++ elseB.tokens
  | .loop cond body => cond.tokens ++ body.tokens
  | .function decl => decl.tokens
  | .ret keyword value => keyword :: Expr.tokensOption value
  | .classDecl name methods => name :: FunDecl.tokensList methods

/-- The tokens of a list of statements. -/
def Stmt.tokensList : List Stmt → List Token
  | [] => []
  | s :: ss => s.tokens ++ Stmt.tokensList ss

/-- The tokens of a function. -/
def FunDecl.tokens : FunDecl → List Token
  | ⟨name, params, body⟩ => name :: params ++ Stmt.tokensList body

/-- The tokens of a list of functions. -/
def FunDecl.tokensList : List FunDecl → List Token
  | [] => []
  | f :: fs => f.tokens ++ FunDecl.tokensList fs

end

section

variable {R : Token → Token → Prop}

attribute [local simp] Expr.tokens Expr.tokensList Expr.tokensOption Stmt.tokens Stmt.tokensList
  FunDecl.tokens FunDecl.tokensList

mutual

/-- An expression is alike to itself if each of its tokens is related to itself. -/
theorem Expr.Alike.refl : ∀ e : Expr, (∀ t ∈ e.tokens, R t t) → e.Alike R AnyNumber e
  | .literal value, _ => .literal value
  | .grouping e, h => by
    simp only [Expr.tokens] at h
    exact .grouping (Expr.Alike.refl e h)
  | .unary op e, h => by
    simp only [Expr.tokens, List.forall_mem_cons] at h
    exact .unary h.1 (Expr.Alike.refl e h.2)
  | .binary l op r, h => by
    simp only [Expr.tokens, List.forall_mem_append, List.forall_mem_cons] at h
    exact .binary (Expr.Alike.refl l h.1) h.2.1 (Expr.Alike.refl r h.2.2)
  | .logical l op r, h => by
    simp only [Expr.tokens, List.forall_mem_append, List.forall_mem_cons] at h
    exact .logical (Expr.Alike.refl l h.1) h.2.1 (Expr.Alike.refl r h.2.2)
  | .ident id name, h => by
    simp only [Expr.tokens, List.forall_mem_singleton] at h
    exact .ident trivial h
  | .assign id name e, h => by
    simp only [Expr.tokens, List.forall_mem_cons] at h
    exact .assign trivial h.1 (Expr.Alike.refl e h.2)
  | .call f paren args, h => by
    simp only [Expr.tokens, List.forall_mem_append, List.forall_mem_cons] at h
    exact .call (Expr.Alike.refl f h.1) h.2.1 (Expr.AlikeList.refl args h.2.2)
  | .get o name, h => by
    simp only [Expr.tokens, List.forall_mem_append, List.forall_mem_singleton] at h
    exact .get (Expr.Alike.refl o h.1) h.2
  | .set o name e, h => by
    simp only [Expr.tokens, List.forall_mem_append, List.forall_mem_cons] at h
    exact .set (Expr.Alike.refl o h.1) h.2.1 (Expr.Alike.refl e h.2.2)
  | .receiver id keyword, h => by
    simp only [Expr.tokens, List.forall_mem_singleton] at h
    exact .receiver trivial h

/-- The same of a list of expressions. -/
theorem Expr.AlikeList.refl : ∀ es : List Expr, (∀ t ∈ Expr.tokensList es, R t t) →
    Expr.AlikeList R AnyNumber es es
  | [], _ => .nil
  | e :: es, h => by
    simp only [Expr.tokensList, List.forall_mem_append] at h
    exact .cons (Expr.Alike.refl e h.1) (Expr.AlikeList.refl es h.2)

end

/-- The same of an expression that may be missing. -/
theorem Expr.option_alike_refl (e : Option Expr) (h : ∀ t ∈ Expr.tokensOption e, R t t) :
    Option.Rel (Expr.Alike R AnyNumber) e e := by
  cases e with
  | none => exact .none
  | some e => exact .some (Expr.Alike.refl e h)

mutual

/-- A statement is alike to itself if each of its tokens is related to itself. -/
theorem Stmt.Alike.refl : ∀ s : Stmt, (∀ t ∈ s.tokens, R t t) → s.Alike R AnyNumber s
  | .expression e, h => by
    simp only [Stmt.tokens] at h
    exact .expression (Expr.Alike.refl e h)
  | .print e, h => by
    simp only [Stmt.tokens] at h
    exact .print (Expr.Alike.refl e h)
  | .var name init, h => by
    simp only [Stmt.tokens, List.forall_mem_cons] at h
    exact .var h.1 (Expr.option_alike_refl init h.2)
  | .block body, h => by
    simp only [Stmt.tokens] at h
    exact .block (Stmt.AlikeList.refl body h)
  | .branch e s none, h => by
    simp only [Stmt.tokens, List.forall_mem_append] at h
    exact .ifThen (Expr.Alike.refl e h.1) (Stmt.Alike.refl s h.2)
  | .branch e s (some t), h => by
    simp only [Stmt.tokens, List.forall_mem_append] at h
    exact .ifElse (Expr.Alike.refl e h.1.1) (Stmt.Alike.refl s h.1.2) (Stmt.Alike.refl t h.2)
  | .loop e s, h => by
    simp only [Stmt.tokens, List.forall_mem_append] at h
    exact .loop (Expr.Alike.refl e h.1) (Stmt.Alike.refl s h.2)
  | .function f, h => by
    simp only [Stmt.tokens] at h
    exact .function (FunDecl.Alike.refl f h)
  | .ret keyword value, h => by
    simp only [Stmt.tokens, List.forall_mem_cons] at h
    exact .ret h.1 (Expr.option_alike_refl value h.2)
  | .classDecl name fs, h => by
    simp only [Stmt.tokens, List.forall_mem_cons] at h
    exact .classDecl h.1 (FunDecl.AlikeList.refl fs h.2)

/-- The same of a list of statements. -/
theorem Stmt.AlikeList.refl : ∀ ss : List Stmt, (∀ t ∈ Stmt.tokensList ss, R t t) →
    Stmt.AlikeList R AnyNumber ss ss
  | [], _ => .nil
  | s :: ss, h => by
    simp only [Stmt.tokensList, List.forall_mem_append] at h
    exact .cons (Stmt.Alike.refl s h.1) (Stmt.AlikeList.refl ss h.2)

/-- The same of a function. -/
theorem FunDecl.Alike.refl : ∀ f : FunDecl, (∀ t ∈ f.tokens, R t t) → f.Alike R AnyNumber f
  | ⟨name, params, body⟩, h => by
    simp only [FunDecl.tokens, List.cons_append, List.forall_mem_cons,
      List.forall_mem_append] at h
    exact .intro h.1 (List.forall₂_same.2 h.2.1) (Stmt.AlikeList.refl body h.2.2)

theorem FunDecl.AlikeList.refl : ∀ fs : List FunDecl, (∀ t ∈ FunDecl.tokensList fs, R t t) →
    FunDecl.AlikeList R AnyNumber fs fs
  | [], _ => .nil
  | f :: fs, h => by
    simp only [FunDecl.tokensList, List.forall_mem_append] at h
    exact .cons (FunDecl.Alike.refl f h.1) (FunDecl.AlikeList.refl fs h.2)

end

end

section

variable {R : Token → Token → Prop} {J : NodeId → NodeId → Prop}

mutual

/-- The tokens of alike expressions are related, place by place. -/
theorem Expr.Alike.tokens : ∀ {e e' : Expr}, e.Alike R J e' → List.Forall₂ R e.tokens e'.tokens
  | _, _, .literal _ => .nil
  | _, _, .grouping he => he.tokens
  | _, _, .unary ho he => .cons ho he.tokens
  | _, _, .binary hl ho hr => List.rel_append hl.tokens (.cons ho hr.tokens)
  | _, _, .logical hl ho hr => List.rel_append hl.tokens (.cons ho hr.tokens)
  | _, _, .ident _ hn => .cons hn .nil
  | _, _, .assign _ hn he => .cons hn he.tokens
  | _, _, .call hf hp ha => List.rel_append hf.tokens (.cons hp ha.tokens)
  | _, _, .get ho hn => List.rel_append ho.tokens (.cons hn .nil)
  | _, _, .set ho hn he => List.rel_append ho.tokens (.cons hn he.tokens)
  | _, _, .receiver _ hk => .cons hk .nil

/-- The same of lists of expressions. -/
theorem Expr.AlikeList.tokens : ∀ {es es' : List Expr}, Expr.AlikeList R J es es' →
    List.Forall₂ R (Expr.tokensList es) (Expr.tokensList es')
  | _, _, .nil => .nil
  | _, _, .cons he hs => List.rel_append he.tokens hs.tokens

end

theorem Expr.option_alike_tokens {e e' : Option Expr} (h : Option.Rel (Expr.Alike R J) e e') :
    List.Forall₂ R (Expr.tokensOption e) (Expr.tokensOption e') := by
  cases h with
  | none => exact .nil
  | some h => exact h.tokens

mutual

/-- The tokens of alike statements are related, place by place. -/
theorem Stmt.Alike.tokens : ∀ {s s' : Stmt}, s.Alike R J s' → List.Forall₂ R s.tokens s'.tokens
  | _, _, .expression he => he.tokens
  | _, _, .print he => he.tokens
  | _, _, .var hn hi => .cons hn (Expr.option_alike_tokens hi)
  | _, _, .block hs => hs.tokens
  | _, _, .ifThen he hs => List.rel_append he.tokens hs.tokens
  | _, _, .ifElse he hs ht => List.rel_append (List.rel_append he.tokens hs.tokens) ht.tokens
  | _, _, .loop he hs => List.rel_append he.tokens hs.tokens
  | _, _, .function hf => hf.tokens
  | _, _, .ret hk hv => .cons hk (Expr.option_alike_tokens hv)
  | _, _, .classDecl hn hf => .cons hn hf.tokens

/-- Trees that are alike have related tokens. -/
theorem Stmt.AlikeList.tokens : ∀ {ss ss' : List Stmt}, Stmt.AlikeList R J ss ss' →
    List.Forall₂ R (Stmt.tokensList ss) (Stmt.tokensList ss')
  | _, _, .nil => .nil
  | _, _, .cons hs hss => List.rel_append hs.tokens hss.tokens

/-- The same of functions. -/
theorem FunDecl.Alike.tokens : ∀ {f f' : FunDecl}, f.Alike R J f' →
    List.Forall₂ R f.tokens f'.tokens
  | _, _, .intro hn hp hb => List.rel_append (.cons hn hp) hb.tokens

theorem FunDecl.AlikeList.tokens : ∀ {fs fs' : List FunDecl}, FunDecl.AlikeList R J fs fs' →
    List.Forall₂ R (FunDecl.tokensList fs) (FunDecl.tokensList fs')
  | _, _, .nil => .nil
  | _, _, .cons hf hs => List.rel_append hf.tokens hs.tokens

end

end

section

variable {R : Token → Token → Prop} {J J' : NodeId → NodeId → Prop}

mutual

/-- Expressions stay alike if more node numbers are taken to be related. -/
theorem Expr.Alike.mono (hJ : ∀ id id', J id id' → J' id id') :
    ∀ {e e' : Expr}, e.Alike R J e' → e.Alike R J' e'
  | _, _, .literal value => .literal value
  | _, _, .grouping he => .grouping (he.mono hJ)
  | _, _, .unary ho he => .unary ho (he.mono hJ)
  | _, _, .binary hl ho hr => .binary (hl.mono hJ) ho (hr.mono hJ)
  | _, _, .logical hl ho hr => .logical (hl.mono hJ) ho (hr.mono hJ)
  | _, _, .ident hi hn => .ident (hJ _ _ hi) hn
  | _, _, .assign hi hn he => .assign (hJ _ _ hi) hn (he.mono hJ)
  | _, _, .call hf hp ha => .call (hf.mono hJ) hp (ha.mono hJ)
  | _, _, .get ho hn => .get (ho.mono hJ) hn
  | _, _, .set ho hn he => .set (ho.mono hJ) hn (he.mono hJ)
  | _, _, .receiver hi hk => .receiver (hJ _ _ hi) hk

/-- The same of lists of expressions. -/
theorem Expr.AlikeList.mono (hJ : ∀ id id', J id id' → J' id id') :
    ∀ {es es' : List Expr}, Expr.AlikeList R J es es' → Expr.AlikeList R J' es es'
  | _, _, .nil => .nil
  | _, _, .cons he hs => .cons (he.mono hJ) (hs.mono hJ)

end

theorem Expr.option_alike_mono (hJ : ∀ id id', J id id' → J' id id') {e e' : Option Expr}
    (h : Option.Rel (Expr.Alike R J) e e') :
    Option.Rel (Expr.Alike R J') e e' := by
  cases h with
  | none => exact .none
  | some h => exact .some (h.mono hJ)

mutual

/-- Statements stay alike if more node numbers are taken to be related. -/
theorem Stmt.Alike.mono (hJ : ∀ id id', J id id' → J' id id') :
    ∀ {s s' : Stmt}, s.Alike R J s' → s.Alike R J' s'
  | _, _, .expression he => .expression (he.mono hJ)
  | _, _, .print he => .print (he.mono hJ)
  | _, _, .var hn hi => .var hn (Expr.option_alike_mono hJ hi)
  | _, _, .block hs => .block (hs.mono hJ)
  | _, _, .ifThen he hs => .ifThen (he.mono hJ) (hs.mono hJ)
  | _, _, .ifElse he hs ht => .ifElse (he.mono hJ) (hs.mono hJ) (ht.mono hJ)
  | _, _, .loop he hs => .loop (he.mono hJ) (hs.mono hJ)
  | _, _, .function hf => .function (hf.mono hJ)
  | _, _, .ret hk hv => .ret hk (Expr.option_alike_mono hJ hv)
  | _, _, .classDecl hn hf => .classDecl hn (hf.mono hJ)

/-- The same of lists of statements. -/
theorem Stmt.AlikeList.mono (hJ : ∀ id id', J id id' → J' id id') :
    ∀ {ss ss' : List Stmt}, Stmt.AlikeList R J ss ss' → Stmt.AlikeList R J' ss ss'
  | _, _, .nil => .nil
  | _, _, .cons hs hss => .cons (hs.mono hJ) (hss.mono hJ)

/-- The same of functions. -/
theorem FunDecl.Alike.mono (hJ : ∀ id id', J id id' → J' id id') :
    ∀ {f f' : FunDecl}, f.Alike R J f' → f.Alike R J' f'
  | _, _, .intro hn hp hb => .intro hn hp (hb.mono hJ)

theorem FunDecl.AlikeList.mono (hJ : ∀ id id', J id id' → J' id id') :
    ∀ {fs fs' : List FunDecl}, FunDecl.AlikeList R J fs fs' →
      FunDecl.AlikeList R J' fs fs'
  | _, _, .nil => .nil
  | _, _, .cons hf hs => .cons (hf.mono hJ) (hs.mono hJ)

end

end

section

mutual

/-- Expressions with the same tokens and node numbers in the same places are equal. -/
theorem Expr.Alike.eq : ∀ {e e' : Expr}, e.Alike Eq Eq e' → e' = e
  | _, _, .literal _ => rfl
  | _, _, .grouping he => by rw [he.eq]
  | _, _, .unary ho he => by rw [he.eq, ho]
  | _, _, .binary hl ho hr => by rw [hl.eq, ho, hr.eq]
  | _, _, .logical hl ho hr => by rw [hl.eq, ho, hr.eq]
  | _, _, .ident hi hn => by rw [hi, hn]
  | _, _, .assign hi hn he => by rw [hi, hn, he.eq]
  | _, _, .call hf hp ha => by rw [hf.eq, hp, ha.eq]
  | _, _, .get ho hn => by rw [ho.eq, hn]
  | _, _, .set ho hn he => by rw [ho.eq, hn, he.eq]
  | _, _, .receiver hi hk => by rw [hi, hk]

/-- The same of lists of expressions. -/
theorem Expr.AlikeList.eq : ∀ {es es' : List Expr}, Expr.AlikeList Eq Eq es es' → es' = es
  | _, _, .nil => rfl
  | _, _, .cons he hs => by rw [he.eq, hs.eq]

end

theorem Expr.option_alike_eq {e e' : Option Expr} (h : Option.Rel (Expr.Alike Eq Eq) e e') :
    e' = e := by
  cases h with
  | none => rfl
  | some h => rw [h.eq]

mutual

/-- Statements with the same tokens and node numbers in the same places are equal. -/
theorem Stmt.Alike.eq : ∀ {s s' : Stmt}, s.Alike Eq Eq s' → s' = s
  | _, _, .expression he => by rw [he.eq]
  | _, _, .print he => by rw [he.eq]
  | _, _, .var hn hi => by rw [hn, Expr.option_alike_eq hi]
  | _, _, .block hs => by rw [hs.eq]
  | _, _, .ifThen he hs => by rw [he.eq, hs.eq]
  | _, _, .ifElse he hs ht => by rw [he.eq, hs.eq, ht.eq]
  | _, _, .loop he hs => by rw [he.eq, hs.eq]
  | _, _, .function hf => by rw [hf.eq]
  | _, _, .ret hk hv => by rw [hk, Expr.option_alike_eq hv]
  | _, _, .classDecl hn hf => by rw [hn, hf.eq]

/-- Trees that are alike in their tokens and numbers are equal. -/
theorem Stmt.AlikeList.eq : ∀ {ss ss' : List Stmt}, Stmt.AlikeList Eq Eq ss ss' → ss' = ss
  | _, _, .nil => rfl
  | _, _, .cons hs hss => by rw [hs.eq, hss.eq]

/-- The same of functions. -/
theorem FunDecl.Alike.eq : ∀ {f f' : FunDecl}, f.Alike Eq Eq f' → f' = f
  | _, _, @FunDecl.Alike.intro _ _ _ _ params params' _ _ hn hp hb => by
    have same : params = params' := by rwa [List.forall₂_eq_eq_eq] at hp
    rw [hn, same, hb.eq]

theorem FunDecl.AlikeList.eq : ∀ {fs fs' : List FunDecl}, FunDecl.AlikeList Eq Eq fs fs' → fs' = fs
  | _, _, .nil => rfl
  | _, _, .cons hf hs => by rw [hf.eq, hs.eq]

end

end

section

mutual

/-- Expressions that erase to the same one differ in node numbers only. -/
theorem Expr.Alike.of_erase : ∀ {e e' : Expr}, e.erase = e'.erase → e.Alike Eq AnyNumber e'
  | .literal _, e', h => by
    cases e' <;> simp only [Expr.erase, reduceCtorEq] at h
    cases h
    exact .literal _
  | .grouping e, e', h => by
    cases e' <;> simp only [Expr.erase, reduceCtorEq, Expr.grouping.injEq] at h
    exact .grouping (.of_erase h)
  | .unary op e, e', h => by
    cases e' <;> simp only [Expr.erase, reduceCtorEq, Expr.unary.injEq] at h
    exact .unary h.1 (.of_erase h.2)
  | .binary l op r, e', h => by
    cases e' <;> simp only [Expr.erase, reduceCtorEq, Expr.binary.injEq] at h
    exact .binary (.of_erase h.1) h.2.1 (.of_erase h.2.2)
  | .logical l op r, e', h => by
    cases e' <;> simp only [Expr.erase, reduceCtorEq, Expr.logical.injEq] at h
    exact .logical (.of_erase h.1) h.2.1 (.of_erase h.2.2)
  | .ident id name, e', h => by
    cases e' <;> simp only [Expr.erase, reduceCtorEq, Expr.ident.injEq] at h
    exact .ident trivial h.2
  | .assign id name e, e', h => by
    cases e' <;> simp only [Expr.erase, reduceCtorEq, Expr.assign.injEq] at h
    exact .assign trivial h.2.1 (.of_erase h.2.2)
  | .call f paren args, e', h => by
    cases e' <;> simp only [Expr.erase, reduceCtorEq, Expr.call.injEq] at h
    exact .call (.of_erase h.1) h.2.1 (.of_erase h.2.2)
  | .get o name, e', h => by
    cases e' <;> simp only [Expr.erase, reduceCtorEq, Expr.get.injEq] at h
    exact .get (.of_erase h.1) h.2
  | .set o name e, e', h => by
    cases e' <;> simp only [Expr.erase, reduceCtorEq, Expr.set.injEq] at h
    exact .set (.of_erase h.1) h.2.1 (.of_erase h.2.2)
  | .receiver id keyword, e', h => by
    cases e' <;> simp only [Expr.erase, reduceCtorEq, Expr.receiver.injEq] at h
    exact .receiver trivial h.2

/-- The same of lists of expressions. -/
theorem Expr.AlikeList.of_erase : ∀ {es es' : List Expr}, Expr.eraseList es = Expr.eraseList es' →
    Expr.AlikeList Eq AnyNumber es es'
  | [], es', h => by
    cases es' <;> simp only [Expr.eraseList, reduceCtorEq] at h
    exact .nil
  | e :: es, es', h => by
    cases es' <;> simp only [Expr.eraseList, reduceCtorEq, List.cons.injEq] at h
    exact .cons (.of_erase h.1) (.of_erase h.2)

end

theorem Expr.option_alike_of_erase {e e' : Option Expr}
    (h : e.map Expr.erase = e'.map Expr.erase) : Option.Rel (Expr.Alike Eq AnyNumber) e e' := by
  cases e <;> cases e' <;> simp only [Option.map_none, Option.map_some, reduceCtorEq,
    Option.some.injEq] at h
  · exact .none
  · exact .some (.of_erase h)

mutual

/-- Statements that erase to the same one differ in node numbers only. -/
theorem Stmt.Alike.of_erase : ∀ {s s' : Stmt}, s.erase = s'.erase → s.Alike Eq AnyNumber s'
  | .expression e, s', h => by
    rcases s' with _ | _ | _ | _ | ⟨_, _, _ | _⟩ <;>
      simp only [Stmt.erase, reduceCtorEq, Stmt.expression.injEq] at h
    exact .expression (.of_erase h)
  | .print e, s', h => by
    rcases s' with _ | _ | _ | _ | ⟨_, _, _ | _⟩ <;>
      simp only [Stmt.erase, reduceCtorEq, Stmt.print.injEq] at h
    exact .print (.of_erase h)
  | .var name init, s', h => by
    rcases s' with _ | _ | _ | _ | ⟨_, _, _ | _⟩ <;>
      simp only [Stmt.erase, reduceCtorEq, Stmt.var.injEq] at h
    exact .var h.1 (Expr.option_alike_of_erase h.2)
  | .block body, s', h => by
    rcases s' with _ | _ | _ | _ | ⟨_, _, _ | _⟩ <;>
      simp only [Stmt.erase, reduceCtorEq, Stmt.block.injEq] at h
    exact .block (.of_erase h)
  | .branch e s none, s', h => by
    rcases s' with _ | _ | _ | _ | ⟨_, _, _ | _⟩ <;>
      simp only [Stmt.erase, reduceCtorEq, Stmt.branch.injEq, and_true, and_false] at h
    exact .ifThen (.of_erase h.1) (.of_erase h.2)
  | .branch e s (some t), s', h => by
    rcases s' with _ | _ | _ | _ | ⟨_, _, _ | _⟩ <;>
      simp only [Stmt.erase, reduceCtorEq, Stmt.branch.injEq, Option.some.injEq, and_false] at h
    exact .ifElse (.of_erase h.1) (.of_erase h.2.1) (.of_erase h.2.2)
  | .loop e s, s', h => by
    rcases s' with _ | _ | _ | _ | ⟨_, _, _ | _⟩ <;>
      simp only [Stmt.erase, reduceCtorEq, Stmt.loop.injEq] at h
    exact .loop (.of_erase h.1) (.of_erase h.2)
  | .function f, s', h => by
    rcases s' with _ | _ | _ | _ | ⟨_, _, _ | _⟩ <;>
      simp only [Stmt.erase, reduceCtorEq, Stmt.function.injEq] at h
    exact .function (.of_erase h)
  | .ret keyword value, s', h => by
    rcases s' with _ | _ | _ | _ | ⟨_, _, _ | _⟩ <;>
      simp only [Stmt.erase, reduceCtorEq, Stmt.ret.injEq] at h
    exact .ret h.1 (Expr.option_alike_of_erase h.2)
  | .classDecl name fs, s', h => by
    rcases s' with _ | _ | _ | _ | ⟨_, _, _ | _⟩ <;>
      simp only [Stmt.erase, reduceCtorEq, Stmt.classDecl.injEq] at h
    exact .classDecl h.1 (.of_erase h.2)

/-- The same of lists of statements. -/
theorem Stmt.AlikeList.of_erase : ∀ {ss ss' : List Stmt}, Stmt.eraseList ss = Stmt.eraseList ss' →
    Stmt.AlikeList Eq AnyNumber ss ss'
  | [], ss', h => by
    cases ss' <;> simp only [Stmt.eraseList, reduceCtorEq] at h
    exact .nil
  | s :: ss, ss', h => by
    cases ss' <;> simp only [Stmt.eraseList, reduceCtorEq, List.cons.injEq] at h
    exact .cons (.of_erase h.1) (.of_erase h.2)

/-- The same of functions. -/
theorem FunDecl.Alike.of_erase : ∀ {f f' : FunDecl}, f.erase = f'.erase → f.Alike Eq AnyNumber f'
  | ⟨name, params, body⟩, ⟨name', params', body'⟩, h => by
    simp only [FunDecl.erase, FunDecl.mk.injEq] at h
    obtain ⟨rfl, rfl, hb⟩ := h
    exact .intro rfl (List.forall₂_refl _) (.of_erase hb)

theorem FunDecl.AlikeList.of_erase : ∀ {fs fs' : List FunDecl},
    FunDecl.eraseList fs = FunDecl.eraseList fs' → FunDecl.AlikeList Eq AnyNumber fs fs'
  | [], fs', h => by
    cases fs' <;> simp only [FunDecl.eraseList, reduceCtorEq] at h
    exact .nil
  | f :: fs, fs', h => by
    cases fs' <;> simp only [FunDecl.eraseList, reduceCtorEq, List.cons.injEq] at h
    exact .cons (.of_erase h.1) (.of_erase h.2)

end

end

end Lox
