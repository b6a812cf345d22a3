/-
# Reading printed trees back

A form is read from its parts up (`Form.read`): a word by what it is spelled with, a list by its
head and by what its items are. What is read is an expression, a statement, a method, or the name
and the parameters that a function shows (`Part`). The heads are not all different: `-` stands for a
negation and for a difference, which the number of items tells apart, and `=` for an assignment to a
variable and to a field, which the first item does.

The form of a well-formed tree whose tokens were written in a source is read as the bare tree
(`Stmt.form_shows`, by induction on the tree). No constructor is compared with another for that:
every node is read back for itself, and two trees with one form are read as the same.
-/

import Lox.Proofs.Token.Respaced
import Lox.Proofs.Tree.Alike
import Lox.Proofs.Tree.Bare
import Lox.Proofs.Tree.Formed
import Lox.Proofs.Tree.Forms

namespace Lox

/-! ## Reading -/

/-- What a form is the text of. -/
inductive Part where
  | expr (e : Expr)
  | stmt (s : Stmt)
  | method (f : FunDecl)
  | signature (name : Token) (params : List Token)

namespace Part

/-- The expression. -/
def expr? : Part → Option Expr
  | expr e => some e
  | _ => none

/-- The statement. -/
def stmt? : Part → Option Stmt
  | stmt s => some s
  | _ => none

/-- The method. -/
def method? : Part → Option FunDecl
  | method f => some f
  | _ => none

/-- The name. -/
def name? : Part → Option Token
  | expr (.ident _ name) => some name
  | _ => none

end Part

namespace Form

/-- A name. -/
def named (text : String) : Token := ⟨.identifier, text, 0⟩

/-- The kinds that stand at the head of an operation. -/
def operators : List Kind := .punct .bang :: .keyword .and_ :: .keyword .or_ :: binaryOps

/-- How a mark or a reserved word is spelled. -/
def spelling : Kind → String
  | .punct p => p.spelling
  | .keyword k => k.spelling
  | _ => ""

/-- An operator. -/
def operator (text : String) : Token :=
  ⟨(operators.find? fun k => spelling k == text).getD .endOfInput, text, 0⟩

/-- Whether the text is one of digits and points. -/
def isNumeral (text : String) : Bool := text.toList.all fun c => c.isDigit || c == '.'

/-- What a word is, if the numbers among the words are the given ones. -/
def readWord (numbers : List Float) (text : String) : Expr :=
  if isNumeral text then
    .literal (.number ((numbers.find? fun x => Number.treeText x == text).getD 0))
  else
    match Keyword.ofSpelling? text with
    | some .nil_ => .literal .nil
    | some .true_ => .literal (.bool true)
    | some .false_ => .literal (.bool false)
    | some .this_ => .receiver 0 ⟨.keyword .this_, "this", 0⟩
    | _ => .ident 0 (named text)

/-- What a list is, by its head and its parts. -/
def node : String → List Part → Part
  | "group", [.expr e] => .expr (.grouping e)
  | "call", .expr callee :: args => .expr (.call callee .closing (args.filterMap Part.expr?))
  | ".", [.expr object, .expr (.ident _ name)] => .expr (.get object name)
  | "=", [.expr (.ident id name), .expr value] => .expr (.assign id name value)
  | "=", [.expr (.get object name), .expr value] => .expr (.set object name value)
  | ";", [.expr e] => .stmt (.expression e)
  | "print", [.expr e] => .stmt (.print e)
  | "var", [.expr (.ident _ name)] => .stmt (.var name none)
  | "var", [.expr (.ident _ name), .expr e] => .stmt (.var name (some e))
  | "block", body => .stmt (.block (body.filterMap Part.stmt?))
  | "if", [.expr cond, .stmt thenB] => .stmt (.branch cond thenB none)
  | "if-else", [.expr cond, .stmt thenB, .stmt elseB] => .stmt (.branch cond thenB (some elseB))
  | "while", [.expr cond, .stmt body] => .stmt (.loop cond body)
  | "fun", .signature name params :: body =>
    .stmt (.function ⟨name, params, body.filterMap Part.stmt?⟩)
  | "method", .signature name params :: body =>
    .method ⟨name, params, body.filterMap Part.stmt?⟩
  | "return", [] => .stmt (.ret .returning none)
  | "return", [.expr e] => .stmt (.ret .returning (some e))
  | "class", .expr (.ident _ name) :: methods =>
    .stmt (.classDecl name (methods.filterMap Part.method?))
  | "and", [.expr l, .expr r] => .expr (.logical l (operator "and") r)
  | "or", [.expr l, .expr r] => .expr (.logical l (operator "or") r)
  | head, [.expr e] => .expr (.unary (operator head) e)
  | head, [.expr l, .expr r] => .expr (.binary l (operator head) r)
  | _, _ => .expr (.literal .nil)

mutual

/-- What a form is the text of, if the numbers in it are the given ones. -/
def read (numbers : List Float) : Form → Part
  | word text => .expr (readWord numbers text)
  | list name head items =>
    if name = "" then node head (readList numbers items)
    else
      .signature (named name)
        (if head = "" then [] else named head :: (readList numbers items).filterMap Part.name?)

/-- What forms are the texts of. -/
def readList (numbers : List Float) : List Form → List Part
  | [] => []
  | f :: fs => f.read numbers :: readList numbers fs

end

end Form

/-! ## The words of a printed tree -/

/-- The token ends the input, or its lexeme is one of its kind. -/
def Token.Written (t : Token) : Prop :=
  t.kind = .endOfInput ∨ Scan.Lexeme t.lexeme.toList (.token t.kind)

/-- The tokens of a source are written in it. -/
theorem tokens_written (source : String) : ∀ t ∈ tokens source, t.Written := by
  obtain ⟨pieces, h⟩ := Scan.exists_divides source.toList
  obtain ⟨before, last, ht, -, faces⟩ := tokens_faces h
  rw [ht]
  refine List.forall_mem_append.2 ⟨fun t hm => .inr ?_, List.forall_mem_singleton.2 (.inl rfl)⟩
  have face : t.face ∈ (pieces.filterMap Scan.lexeme?).map fun l => (l.2, String.ofList l.1) :=
    faces ▸ List.mem_map_of_mem hm
  obtain ⟨l, hl, same⟩ := List.mem_map.1 face
  have kind : t.kind = l.2 := (congrArg Prod.fst same).symm
  have lexeme : t.lexeme = String.ofList l.1 := (congrArg Prod.snd same).symm
  rw [kind, lexeme, String.toList_ofList]
  exact h.lexemes l hl

/-- The texts of the numbers are of digits and points, and tell the numbers apart. -/
structure Number.Legible (numbers : List Float) : Prop where
  digits : ∀ x ∈ numbers, Form.isNumeral (Number.treeText x) = true
  distinct : ∀ x ∈ numbers, ∀ y ∈ numbers, Number.treeText x = Number.treeText y → x = y

/-- The constant is no string, and if it is a number, it is one of the given ones. -/
def Literal.Among (numbers : List Float) : Literal → Prop
  | .string _ => False
  | .number x => x ∈ numbers
  | _ => True

namespace Form

/-- A character of a name does not end a word. -/
theorem isEnd_of_isNamePart {c : Char} (h : Scan.isNamePart c = true) : isEnd c = false := by
  rw [Bool.eq_false_iff]
  intro he
  simp only [isEnd, Bool.or_eq_true, beq_iff_eq] at he
  rcases he with (rfl | rfl) | rfl <;> cases h

/-- A character that begins a name may stand in one. -/
theorem isNamePart_of_isNameStart {c : Char} (h : Scan.isNameStart c = true) :
    Scan.isNamePart c = true := by
  simp only [Scan.isNameStart, Scan.isNamePart, Char.isAlphanum, Bool.or_eq_true] at h ⊢
  exact h.imp_left Or.inl

/-- A numeral has nothing in it that ends a word. -/
theorem unbroken_of_isNumeral {text : String} (h : isNumeral text = true) : Unbroken text := by
  intro c hc
  have inside := List.all_eq_true.1 h c hc
  rw [Bool.eq_false_iff]
  intro he
  simp only [isEnd, Bool.or_eq_true, beq_iff_eq] at he
  rcases he with (rfl | rfl) | rfl <;> cases inside

/-- What a name is written with. -/
structure NameText (text : String) : Prop where
  unbroken : Unbroken text
  nonempty : text ≠ ""
  notNumeral : isNumeral text = false
  free : Keyword.ofSpelling? text = none

/-- The lexeme of a written identifier is a name. -/
theorem nameText {t : Token} (h : t.Written) (hk : t.kind = .identifier) : NameText t.lexeme := by
  rw [Token.Written, hk] at h
  have lexeme := h.resolve_left nofun
  generalize ht : t.lexeme.toList = text at lexeme
  cases lexeme with
  | @identifier c cs hc hcs free =>
    refine ⟨fun d hd => ?_, fun empty => ?_, ?_, ?_⟩
    · rw [ht] at hd
      refine isEnd_of_isNamePart ?_
      rcases List.mem_cons.1 hd with rfl | hd
      · exact isNamePart_of_isNameStart hc
      · exact hcs d hd
    · rw [empty] at ht
      cases ht
    · have point : (c == '.') = false := by
        rw [Bool.eq_false_iff, ne_eq, beq_iff_eq]
        rintro rfl
        cases hc
      rw [isNumeral, ht, List.all_cons, Scan.isDigit_of_isNameStart hc, point]
      rfl
    · rw [Option.eq_none_iff_forall_ne_some]
      intro k spelled
      exact free k (ht ▸ congrArg String.toList (Keyword.spelling_of_ofSpelling? spelled))

variable {numbers : List Float}

/-- A name is read as the use of that name. -/
theorem NameText.readWord {text : String} (h : NameText text) :
    readWord numbers text = .ident 0 (named text) := by
  rw [Form.readWord, h.notNumeral, h.free]
  rfl

/-- The name read off an identifier is its bare token. -/
theorem named_eq_bare {t : Token} (hk : t.kind = .identifier) : named t.lexeme = t.bare := by
  rw [named, Token.bare, hk]

/-- A mark or a reserved word is spelled as its kind. -/
theorem lexeme_of_spelling {t : Token} (h : t.Written) (hk : spelling t.kind ≠ "") :
    t.lexeme = spelling t.kind := by
  have inner : t.kind ≠ .endOfInput := by
    intro he
    rw [he] at hk
    exact hk rfl
  have lexeme := h.resolve_left inner
  generalize t.kind = kind at lexeme hk ⊢
  generalize ht : t.lexeme.toList = text at lexeme
  cases lexeme with
  | mark p => exact String.toList_injective ht
  | reserved k => exact String.toList_injective ht
  | whole => exact absurd rfl hk
  | decimal => exact absurd rfl hk
  | string => exact absurd rfl hk
  | identifier => exact absurd rfl hk

/-- A written operator has the spelling of its kind. -/
theorem lexeme_of_operator {t : Token} (h : t.Written) (hk : t.kind ∈ operators) :
    t.lexeme = spelling t.kind := by
  have all : ∀ k ∈ operators, spelling k ≠ "" := by decide
  exact lexeme_of_spelling h (all _ hk)

/-- An operator is one unbroken word. -/
theorem unbroken_operator {t : Token} (h : t.Written) (hk : t.kind ∈ operators) :
    Unbroken t.lexeme := by
  have all : ∀ k ∈ operators, Unbroken (spelling k) := by decide
  exact lexeme_of_operator h hk ▸ all t.kind hk

/-- The operator read off a written one is its bare token. -/
theorem operator_eq_bare {t : Token} (h : t.Written) (hk : t.kind ∈ operators) :
    operator t.lexeme = t.bare := by
  have all : ∀ k ∈ operators, operator (spelling k) = ⟨k, spelling k, 0⟩ := by decide
  rw [Token.bare, lexeme_of_operator h hk]
  exact all t.kind hk

section Nodes

variable {op : Token} (h : op.Written)

include h

/-- What a list under one of these operators is, is read off the spellings of their kinds. -/
theorem node_operator {kinds : List Kind} (known : kinds ⊆ operators) (hk : op.kind ∈ kinds)
    {parts : List Part} (build : Token → Part)
    (each : ∀ k ∈ kinds, node (spelling k) parts = build (operator (spelling k))) :
    Unbroken op.lexeme ∧ node op.lexeme parts = build op.bare := by
  refine ⟨unbroken_operator h (known hk), ?_⟩
  rw [← operator_eq_bare h (known hk), lexeme_of_operator h (known hk)]
  exact each _ hk

variable (e f : Expr)

/-- A `!` or `-` before one item is read as the operation on it. -/
theorem node_unary (hk : op.kind ∈ [Kind.punct .bang, .punct .minus]) :
    Unbroken op.lexeme ∧ node op.lexeme [.expr e] = .expr (.unary op.bare e) := by
  refine node_operator h (by decide) hk (fun op => .expr (.unary op e)) ?_
  simp only [List.forall_mem_cons]
  exact ⟨rfl, rfl, List.forall_mem_nil _⟩

/-- An operator before two items is read as the operation on them. -/
theorem node_binary (hk : op.kind ∈ binaryOps) :
    Unbroken op.lexeme ∧ node op.lexeme [.expr e, .expr f] = .expr (.binary e op.bare f) := by
  refine node_operator h (by decide) hk (fun op => .expr (.binary e op f)) ?_
  simp only [binaryOps, List.forall_mem_cons]
  exact ⟨rfl, rfl, rfl, rfl, rfl, rfl, rfl, rfl, rfl, rfl, List.forall_mem_nil _⟩

/-- `and` and `or` before two items are read as the connective of them. -/
theorem node_logical (hk : op.kind ∈ [Kind.keyword .and_, .keyword .or_]) :
    Unbroken op.lexeme ∧ node op.lexeme [.expr e, .expr f] = .expr (.logical e op.bare f) := by
  refine node_operator h (by decide) hk (fun op => .expr (.logical e op f)) ?_
  simp only [List.forall_mem_cons]
  exact ⟨rfl, rfl, List.forall_mem_nil _⟩

end Nodes

/-- The word `call` before expressions is read as a call of the first with the others. -/
theorem node_call (callee : Expr) (args : List Expr) :
    node "call" (.expr callee :: args.map Part.expr) = .expr (.call callee .closing args) := by
  have back : (args.map Part.expr).filterMap Part.expr? = args := by
    rw [List.filterMap_map]
    exact List.filterMap_some
  exact congrArg (fun as => Part.expr (.call callee .closing as)) back

/-- The statements among parts that are all statements are these parts. -/
theorem filterMap_stmt (body : List Stmt) : (body.map Part.stmt).filterMap Part.stmt? = body := by
  rw [List.filterMap_map]
  exact List.filterMap_some

/-- The word `block` before statements is read as a block of them. -/
theorem node_block (body : List Stmt) :
    node "block" (body.map Part.stmt) = .stmt (.block body) :=
  congrArg (fun ss => Part.stmt (.block ss)) (filterMap_stmt body)

/-- The word `fun` before a signature and statements is read as a function. -/
theorem node_fun (name : Token) (params : List Token) (body : List Stmt) :
    node "fun" (.signature name params :: body.map Part.stmt) =
      .stmt (.function ⟨name, params, body⟩) :=
  congrArg (fun ss => Part.stmt (.function ⟨name, params, ss⟩)) (filterMap_stmt body)

/-- The word `method` before a signature and statements is read as a method. -/
theorem node_method (name : Token) (params : List Token) (body : List Stmt) :
    node "method" (.signature name params :: body.map Part.stmt) =
      .method ⟨name, params, body⟩ :=
  congrArg (fun ss => Part.method ⟨name, params, ss⟩) (filterMap_stmt body)

/-- The word `class` before a name and methods is read as a class. -/
theorem node_class (id : NodeId) (name : Token) (methods : List FunDecl) :
    node "class" (.expr (.ident id name) :: methods.map Part.method) =
      .stmt (.classDecl name methods) := by
  have back : (methods.map Part.method).filterMap Part.method? = methods := by
    rw [List.filterMap_map]
    exact List.filterMap_some
  exact congrArg (fun fs => Part.stmt (.classDecl name fs)) back

/-- The text of a constant is one word and is read as the constant. -/
theorem readWord_literal (legible : Number.Legible numbers) {l : Literal} (h : l.Among numbers) :
    Unbroken l.text ∧ readWord numbers l.text = .literal l := by
  cases l with
  | nil => exact ⟨by decide, rfl⟩
  | bool b => cases b <;> exact ⟨by decide, rfl⟩
  | string s => exact h.elim
  | number x =>
    have digits : isNumeral (Literal.number x).text = true := legible.digits x h
    refine ⟨unbroken_of_isNumeral digits, ?_⟩
    have found : (numbers.find? fun y => Number.treeText y == Number.treeText x) = some x := by
      have some : (numbers.find? fun y => Number.treeText y == Number.treeText x).isSome = true :=
        List.find?_isSome.2 ⟨x, h, beq_self_eq_true (Number.treeText x)⟩
      obtain ⟨y, hy⟩ := Option.isSome_iff_exists.1 some
      have text : Number.treeText y = Number.treeText x := by
        simpa using List.find?_some hy
      rw [hy, legible.distinct y (List.mem_of_find?_eq_some hy) x h text]
    rw [readWord, digits, if_pos rfl, Literal.text, found]
    rfl

/-! ## What the forms of trees are read as -/

/-- The form has no broken words and is read as the part. -/
structure Shows (numbers : List Float) (part : Part) (f : Form) : Prop where
  sound : f.Sound
  read : f.read numbers = part

/-- Forms that show parts, one by one, have no broken words and are read as the parts. -/
theorem Shows.all {parts : List Part} {fs : List Form} (h : List.Forall₂ (Shows numbers) parts fs) :
    SoundList fs ∧ readList numbers fs = parts := by
  induction h with
  | nil => exact ⟨trivial, rfl⟩
  | cons hf _ ih => exact ⟨⟨hf.sound, ih.1⟩, by rw [readList, hf.read, ih.2]⟩

/-- A list shows what its head makes of the parts that its items show. -/
theorem Shows.list {head : String} {parts : List Part} {fs : List Form} {part : Part}
    (hh : Unbroken head) (h : List.Forall₂ (Shows numbers) parts fs) (hn : node head parts = part) :
    Shows numbers part (list "" head fs) where
  sound := ⟨nofun, hh, (Shows.all h).1⟩
  read := by rw [Form.read, if_pos rfl, (Shows.all h).2, hn]

/-- The lexeme of a name shows the use of the name. -/
theorem shows_name {t : Token} (h : t.IsName Token.Written) :
    Shows numbers (.expr (.ident 0 t.bare)) (word t.lexeme) where
  sound := (nameText h.2 h.1).unbroken
  read := by rw [Form.read, (nameText h.2 h.1).readWord, named_eq_bare h.1]

/-- The same of parameters. -/
theorem shows_names : ∀ {ps : List Token}, (∀ p ∈ ps, p.IsName Token.Written) →
    List.Forall₂ (Shows numbers) (ps.map fun p => .expr (.ident 0 p.bare))
      (ps.map fun p => word p.lexeme)
  | [], _ => .nil
  | _ :: _, h =>
    let ⟨hp, hps⟩ := List.forall_mem_cons.1 h
    .cons (shows_name hp) (shows_names hps)

/-- A name with its parameters shows the signature. -/
theorem shows_signature {name : Token} {params : List Token} (hn : name.IsName Token.Written)
    (hp : ∀ p ∈ params, p.IsName Token.Written) :
    Shows numbers (.signature name.bare (params.map Token.bare)) (signature name params) := by
  have text := nameText hn.2 hn.1
  cases params with
  | nil =>
    refine ⟨⟨text.unbroken, nofun, trivial⟩, ?_⟩
    rw [signature, Form.read, if_neg text.nonempty, if_pos rfl, named_eq_bare hn.1]
    rfl
  | cons p ps =>
    obtain ⟨hp, hps⟩ := List.forall_mem_cons.1 hp
    have head := nameText hp.2 hp.1
    have others : List.Forall₂ (Shows numbers) (ps.map fun p => .expr (.ident 0 p.bare))
      (ps.map fun p => word p.lexeme) := shows_names hps
    obtain ⟨sound, read⟩ := Shows.all others
    refine ⟨⟨text.unbroken, head.unbroken, sound⟩, ?_⟩
    have names : (ps.map fun p => Part.expr (.ident 0 p.bare)).filterMap Part.name? =
        ps.map Token.bare := by
      rw [List.filterMap_map]
      exact congrFun List.filterMap_eq_map ps
    rw [signature, Form.read, if_neg text.nonempty, if_neg head.nonempty, read,
      named_eq_bare hn.1, named_eq_bare hp.1, names]
    rfl

end Form

/-! ## Trees are read back -/

section Trees

open Form

variable {numbers : List Float}

mutual

/-- The form of a well-formed expression with written tokens shows the bare expression. -/
theorem Expr.form_shows (legible : Number.Legible numbers) : ∀ {e : Expr},
    e.Formed Token.Written → (∀ t ∈ e.tokens, t.Written) → (∀ l ∈ e.literals, l.Among numbers) →
    Shows numbers (.expr e.bare) e.form
  | .literal value, _, _, hl => by
    simp only [Expr.literals, List.forall_mem_singleton] at hl
    have text := readWord_literal legible hl
    exact ⟨text.1, congrArg Part.expr text.2⟩
  | .grouping inner, hf, ht, hl =>
    .list (by decide) (.cons (Expr.form_shows legible hf ht hl) .nil) rfl
  | .unary op operand, hf, ht, hl => by
    simp only [Expr.tokens, List.forall_mem_cons] at ht
    have inner := Expr.form_shows legible hf.2 ht.2 hl
    obtain ⟨unbroken, read⟩ := node_unary ht.1 operand.bare hf.1
    exact .list unbroken (.cons inner .nil) read
  | .binary left op right, hf, ht, hl => by
    simp only [Expr.tokens, Expr.literals, List.forall_mem_append, List.forall_mem_cons] at ht hl
    obtain ⟨known, formed, formed'⟩ := hf
    have first := Expr.form_shows legible formed ht.1 hl.1
    have second := Expr.form_shows legible formed' ht.2.2 hl.2
    obtain ⟨unbroken, read⟩ := node_binary ht.2.1 left.bare right.bare known
    exact .list unbroken (.cons first (.cons second .nil)) read
  | .logical left op right, hf, ht, hl => by
    simp only [Expr.tokens, Expr.literals, List.forall_mem_append, List.forall_mem_cons] at ht hl
    obtain ⟨known, formed, formed'⟩ := hf
    have first := Expr.form_shows legible formed ht.1 hl.1
    have second := Expr.form_shows legible formed' ht.2.2 hl.2
    obtain ⟨unbroken, read⟩ := node_logical ht.2.1 left.bare right.bare known
    exact .list unbroken (.cons first (.cons second .nil)) read
  | .ident _ name, hf, _, _ => shows_name hf
  | .assign _ name value, hf, ht, hl => by
    simp only [Expr.tokens, List.forall_mem_cons] at ht
    have assigned := Expr.form_shows legible hf.2 ht.2 hl
    exact .list (by decide) (.cons (shows_name hf.1) (.cons assigned .nil)) rfl
  | .call callee paren args, hf, ht, hl => by
    simp only [Expr.tokens, Expr.literals, List.forall_mem_append, List.forall_mem_cons] at ht hl
    have called := Expr.form_shows legible hf.1 ht.1 hl.1
    have given := Expr.forms_show legible hf.2 ht.2.2 hl.2
    exact .list (by decide) (.cons called given) (node_call callee.bare (Expr.bareList args))
  | .get object name, hf, ht, hl => by
    simp only [Expr.tokens, List.forall_mem_append] at ht
    have inside := Expr.form_shows legible hf.1 ht.1 hl
    exact .list (by decide) (.cons inside (.cons (shows_name hf.2) .nil)) rfl
  | .set object name value, hf, ht, hl => by
    simp only [Expr.tokens, Expr.literals, List.forall_mem_append, List.forall_mem_cons] at ht hl
    obtain ⟨formed, named, formed'⟩ := hf
    have inside := Expr.form_shows legible formed ht.1 hl.1
    have assigned := Expr.form_shows legible formed' ht.2.2 hl.2
    -- The field is a list of its own, as if it were read.
    have field : Shows numbers (.expr (.get object.bare name.bare))
        (.list "" "." [object.form, .word name.lexeme]) :=
      .list (by decide) (.cons inside (.cons (shows_name named) .nil)) rfl
    exact .list (by decide) (.cons field (.cons assigned .nil)) rfl
  | .receiver _ keyword, hf, _, _ => by
    have text : keyword.lexeme = "this" := by
      have spelled := lexeme_of_spelling hf.2
      rw [hf.1] at spelled
      exact spelled (by decide)
    refine ⟨show Unbroken "this" by decide, ?_⟩
    rw [Expr.bare, Token.bare, hf.1, text]
    rfl

/-- The same of a list of expressions. -/
theorem Expr.forms_show (legible : Number.Legible numbers) : ∀ {es : List Expr},
    Expr.FormedList Token.Written es →
    (∀ t ∈ Expr.tokensList es, t.Written) → (∀ l ∈ Expr.literalsList es, l.Among numbers) →
    List.Forall₂ (Shows numbers) ((Expr.bareList es).map Part.expr) (Expr.forms es)
  | [], _, _, _ => .nil
  | e :: es, hf, ht, hl => by
    simp only [Expr.tokensList, Expr.literalsList, List.forall_mem_append] at ht hl
    exact .cons (Expr.form_shows legible hf.1 ht.1 hl.1) (Expr.forms_show legible hf.2 ht.2 hl.2)

end

mutual

/-- The form of a well-formed statement with written tokens shows the bare statement. -/
theorem Stmt.form_shows (legible : Number.Legible numbers) : ∀ {s : Stmt},
    s.Formed Token.Written → (∀ t ∈ s.tokens, t.Written) → (∀ l ∈ s.literals, l.Among numbers) →
    Shows numbers (.stmt s.bare) s.form
  | .expression e, hf, ht, hl =>
    .list (by decide) (.cons (Expr.form_shows legible hf ht hl) .nil) rfl
  | .print e, hf, ht, hl =>
    .list (by decide) (.cons (Expr.form_shows legible hf ht hl) .nil) rfl
  | .var name none, hf, _, _ => .list (by decide) (.cons (shows_name hf.1) .nil) rfl
  | .var name (some init), hf, ht, hl => by
    simp only [Stmt.tokens, List.forall_mem_cons] at ht
    have first := Expr.form_shows legible (hf.2 init rfl) ht.2 hl
    exact .list (by decide) (.cons (shows_name hf.1) (.cons first .nil)) rfl
  | .block body, hf, ht, hl =>
    .list (by decide) (Stmt.forms_show legible hf ht hl) (node_block (Stmt.bareList body))
  | .branch cond thenB none, hf, ht, hl => by
    simp only [Stmt.tokens, Stmt.literals, List.forall_mem_append] at ht hl
    obtain ⟨formed, -, formedThen⟩ := hf
    have test := Expr.form_shows legible formed ht.1 hl.1
    have taken := Stmt.form_shows legible formedThen ht.2 hl.2
    exact .list (by decide) (.cons test (.cons taken .nil)) rfl
  | .branch cond thenB (some elseB), hf, ht, hl => by
    simp only [Stmt.tokens, Stmt.literals, List.forall_mem_append] at ht hl
    obtain ⟨formed, ⟨-, formedThen⟩, -, formedElse⟩ := hf
    have test := Expr.form_shows legible formed ht.1.1 hl.1.1
    have taken := Stmt.form_shows legible formedThen ht.1.2 hl.1.2
    have other := Stmt.form_shows legible formedElse ht.2 hl.2
    exact .list (by decide) (.cons test (.cons taken (.cons other .nil))) rfl
  | .loop cond body, hf, ht, hl => by
    simp only [Stmt.tokens, Stmt.literals, List.forall_mem_append] at ht hl
    obtain ⟨formed, -, formedBody⟩ := hf
    have test := Expr.form_shows legible formed ht.1 hl.1
    have round := Stmt.form_shows legible formedBody ht.2 hl.2
    exact .list (by decide) (.cons test (.cons round .nil)) rfl
  | .function ⟨name, params, body⟩, hf, ht, hl => by
    simp only [Stmt.tokens, FunDecl.tokens, List.forall_mem_append] at ht
    obtain ⟨named, params', formed⟩ := hf
    have inside := Stmt.forms_show legible formed ht.2 hl
    exact .list (by decide) (.cons (shows_signature named params') inside)
      (node_fun _ _ (Stmt.bareList body))
  | .ret _ none, _, _, _ => .list (by decide) .nil rfl
  | .ret _ (some value), hf, ht, hl => by
    simp only [Stmt.tokens, List.forall_mem_cons] at ht
    have returned := Expr.form_shows legible (hf value rfl) ht.2 hl
    exact .list (by decide) (.cons returned .nil) rfl
  | .classDecl name methods, hf, ht, hl => by
    simp only [Stmt.tokens, List.forall_mem_cons] at ht
    have inside := FunDecl.forms_show legible hf.2 ht.2 hl
    exact .list (by decide) (.cons (shows_name hf.1) inside)
      (node_class 0 name.bare (FunDecl.bareList methods))

/-- The same of a list of statements. -/
theorem Stmt.forms_show (legible : Number.Legible numbers) : ∀ {ss : List Stmt},
    Stmt.FormedList Token.Written ss →
    (∀ t ∈ Stmt.tokensList ss, t.Written) → (∀ l ∈ Stmt.literalsList ss, l.Among numbers) →
    List.Forall₂ (Shows numbers) ((Stmt.bareList ss).map Part.stmt) (Stmt.forms ss)
  | [], _, _, _ => .nil
  | s :: ss, hf, ht, hl => by
    simp only [Stmt.tokensList, Stmt.literalsList, List.forall_mem_append] at ht hl
    exact .cons (Stmt.form_shows legible hf.1 ht.1 hl.1) (Stmt.forms_show legible hf.2 ht.2 hl.2)

/-- The same of the methods of a class. -/
theorem FunDecl.forms_show (legible : Number.Legible numbers) : ∀ {fs : List FunDecl},
    FunDecl.FormedList Token.Written fs →
    (∀ t ∈ FunDecl.tokensList fs, t.Written) → (∀ l ∈ FunDecl.literalsList fs, l.Among numbers) →
    List.Forall₂ (Shows numbers) ((FunDecl.bareList fs).map Part.method) (FunDecl.forms fs)
  | [], _, _, _ => .nil
  | ⟨name, params, body⟩ :: fs, hf, ht, hl => by
    simp only [FunDecl.tokensList, FunDecl.tokens, FunDecl.literalsList,
      List.forall_mem_append] at ht hl
    obtain ⟨⟨named, params', formed⟩, others⟩ := hf
    have inside := Stmt.forms_show legible formed ht.1.2 hl.1
    have method := Shows.list (by decide) (.cons (shows_signature named params') inside)
      (node_method _ _ (Stmt.bareList body))
    exact .cons method (FunDecl.forms_show legible others ht.2 hl.2)

end

/-- Statements that are read back are determined by their texts. -/
theorem Stmt.bareList_eq_of_texts {ss ss' : List Stmt}
    (shows : List.Forall₂ (Shows numbers) ((Stmt.bareList ss).map Part.stmt) (Stmt.forms ss))
    (shows' : List.Forall₂ (Shows numbers) ((Stmt.bareList ss').map Part.stmt) (Stmt.forms ss'))
    (h : Stmt.texts ss = Stmt.texts ss') : Stmt.bareList ss = Stmt.bareList ss' := by
  obtain ⟨sound, read⟩ := Shows.all shows
  obtain ⟨sound', read'⟩ := Shows.all shows'
  have chars : charsList (Stmt.forms ss) ++ [')'] = charsList (Stmt.forms ss') ++ [')'] := by
    rw [← Stmt.toList_texts, ← Stmt.toList_texts, h]
  obtain ⟨forms, -⟩ := eq_of_charsList sound sound' chars
  have parts : (Stmt.bareList ss).map Part.stmt = (Stmt.bareList ss').map Part.stmt := by
    rw [← read, ← read', forms]
  rw [← filterMap_stmt (Stmt.bareList ss), parts, filterMap_stmt]

end Trees

end Lox
