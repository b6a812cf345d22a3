/-
# The forms of printed trees

A printed tree consists of words and of lists in parentheses: the head of a list comes first, and
each item stands behind a blank. A function has a list with its name before it, of its parameters.
So there are two kinds of forms, if every list may have a name (`Form`), and a printed tree is the
text of a form (`Stmt.toList_text`).

If no word has a blank or a parenthesis in it, a form is read off its text in one way, also where
more text follows (`Form.eq_of_chars`): a word ends at the first blank or parenthesis, an opening
one tells that it is the name of a list, and an item begins where a blank stands before the closing
one.
-/

import Lox.Tree.Printer
import Mathlib.Data.String.Basic

namespace Lox

/-- A word, or a list with a head and items, and with a name before it. -/
inductive Form where
  | word (text : String)
  | list (name head : String) (items : List Form)

namespace Form

mutual

/-- The text of a form. -/
def chars : Form → List Char
  | word text => text.toList
  | list name head items =>
    name.toList ++ '(' :: (head.toList ++ (charsList items ++ [')']))

/-- The texts of forms, each behind a blank. -/
def charsList : List Form → List Char
  | [] => []
  | f :: fs => ' ' :: (f.chars ++ charsList fs)

end

/-- The characters that end a word. -/
def isEnd (c : Char) : Bool := c == ' ' || c == '(' || c == ')'

/-- No character of the text ends a word. -/
def Unbroken (text : String) : Prop := ∀ c ∈ text.toList, isEnd c = false

instance : DecidablePred Unbroken := fun text =>
  List.decidableBAll (fun c => isEnd c = false) text.toList

mutual

/-- No word of the form is broken. -/
def Sound : Form → Prop
  | word text => Unbroken text
  | list name head items => Unbroken name ∧ Unbroken head ∧ SoundList items

/-- No word of the forms is broken. -/
def SoundList : List Form → Prop
  | [] => True
  | f :: fs => f.Sound ∧ SoundList fs

end

/-! ## Reading a form off a text -/

/-- What follows a word: nothing, or a character that ends it. -/
def Ended (rest : List Char) : Prop := ∀ c ∈ rest.head?, isEnd c = true

/-- What follows a form: nothing, a blank or a closing parenthesis. -/
def Closed (rest : List Char) : Prop := ∀ c ∈ rest.head?, c = ' ' ∨ c = ')'

/-- A word ends where a form may end. -/
theorem Closed.ended {rest : List Char} (h : Closed rest) : Ended rest := by
  intro c hc
  rcases h c hc with rfl | rfl <;> rfl

/-- A word ends before a character that ends words. -/
theorem ended_cons {c : Char} (h : isEnd c = true) (rest : List Char) : Ended (c :: rest) := by
  rintro _ ⟨⟩
  exact h

/-- A form may end before a closing parenthesis. -/
theorem closed_close (rest : List Char) : Closed (')' :: rest) := by
  rintro _ ⟨⟩
  exact .inr rfl

/-- A form may end before the other items of its list and the closing parenthesis. -/
theorem closed_items (fs : List Form) (rest : List Char) : Closed (charsList fs ++ ')' :: rest) := by
  cases fs with
  | nil => exact closed_close rest
  | cons f fs =>
    rintro _ ⟨⟩
    exact .inl rfl

/-- A word ends where what follows begins. -/
theorem eq_of_ended {rest rest' : List Char} (hr : Ended rest) (hr' : Ended rest') :
    ∀ {cs cs' : List Char}, (∀ c ∈ cs, isEnd c = false) → (∀ c ∈ cs', isEnd c = false) →
      cs ++ rest = cs' ++ rest' → cs = cs' ∧ rest = rest'
  | [], [], _, _, h => ⟨rfl, h⟩
  | [], c :: cs', _, hc, h => by
    have ends := hr c (by rw [List.nil_append] at h; rw [h]; rfl)
    exact absurd ends (by simp [hc c (List.mem_cons_self ..)])
  | c :: cs, [], hc, _, h => by
    have ends := hr' c (by rw [List.nil_append] at h; rw [← h]; rfl)
    exact absurd ends (by simp [hc c (List.mem_cons_self ..)])
  | c :: cs, c' :: cs', hc, hc', h => by
    obtain ⟨rfl, behind⟩ := List.cons.inj h
    obtain ⟨rfl, same⟩ := eq_of_ended hr hr' (fun d hd => hc d (List.mem_cons_of_mem _ hd))
      (fun d hd => hc' d (List.mem_cons_of_mem _ hd)) behind
    exact ⟨rfl, same⟩

/-- An unbroken text ends where what follows begins. -/
theorem Unbroken.eq {text text' : String} {rest rest' : List Char} (ht : Unbroken text)
    (ht' : Unbroken text') (hr : Ended rest) (hr' : Ended rest')
    (h : text.toList ++ rest = text'.toList ++ rest') : text = text' ∧ rest = rest' := by
  obtain ⟨same, rest⟩ := eq_of_ended hr hr' ht ht' h
  exact ⟨String.toList_injective same, rest⟩

/-- What stands behind the name of a list does not follow a form. -/
theorem not_closed_open {rest : List Char} : ¬ Closed ('(' :: rest) := fun h => by
  rcases h '(' rfl with h | h <;> cases h

mutual

/-- **A form is read off a text in one way**, and so is what follows it. -/
theorem eq_of_chars : ∀ {f g : Form} {rest rest' : List Char}, f.Sound → g.Sound →
    Closed rest → Closed rest' → f.chars ++ rest = g.chars ++ rest' → f = g ∧ rest = rest'
  | word text, word text', _, _, hf, hg, hr, hr', h => by
    obtain ⟨rfl, same⟩ := Unbroken.eq hf hg hr.ended hr'.ended h
    exact ⟨rfl, same⟩
  | word text, list name head items, rest, rest', hf, hg, hr, _, h => by
    rw [chars, chars, List.append_assoc] at h
    obtain ⟨-, rfl⟩ := hf.eq hg.1 hr.ended (ended_cons rfl _) h
    exact absurd hr not_closed_open
  | list name head items, word text, rest, rest', hf, hg, _, hr', h => by
    rw [chars, chars, List.append_assoc] at h
    obtain ⟨-, rfl⟩ := hf.1.eq hg (ended_cons rfl _) hr'.ended h
    exact absurd hr' not_closed_open
  | list name head items, list name' head' items', rest, rest', hf, hg, _, _, h => by
    simp only [chars, List.append_assoc, List.cons_append, List.nil_append] at h
    obtain ⟨rfl, inside⟩ := hf.1.eq hg.1 (ended_cons rfl _) (ended_cons rfl _) h
    obtain ⟨rfl, behind⟩ := hf.2.1.eq hg.2.1 (closed_items items rest).ended
      (closed_items items' rest').ended (List.cons.inj inside).2
    obtain ⟨rfl, same⟩ := eq_of_charsList hf.2.2 hg.2.2 behind
    exact ⟨rfl, same⟩

/-- The items of a list are read off its text in one way, and so is what follows the list. -/
theorem eq_of_charsList : ∀ {fs gs : List Form} {rest rest' : List Char}, SoundList fs →
    SoundList gs → charsList fs ++ ')' :: rest = charsList gs ++ ')' :: rest' →
      fs = gs ∧ rest = rest'
  | [], [], _, _, _, _, h => ⟨rfl, (List.cons.inj h).2⟩
  | [], _ :: _, _, _, _, _, h => by cases h
  | _ :: _, [], _, _, _, _, h => by cases h
  | f :: fs, g :: gs, rest, rest', hf, hg, h => by
    simp only [charsList, List.cons_append, List.append_assoc, List.cons.injEq, true_and] at h
    obtain ⟨rfl, others⟩ := eq_of_chars hf.1 hg.1 (closed_items fs rest) (closed_items gs rest') h
    obtain ⟨rfl, same⟩ := eq_of_charsList hf.2 hg.2 others
    exact ⟨rfl, same⟩

end

end Form

/-! ## Trees as forms -/

open Form (word list)

namespace Expr

mutual

/-- The form of an expression. -/
def form : Expr → Form
  | literal value => word value.text
  | grouping inner => list "" "group" [inner.form]
  | unary op operand => list "" op.lexeme [operand.form]
  | binary left op right => list "" op.lexeme [left.form, right.form]
  | logical left op right => list "" op.lexeme [left.form, right.form]
  | ident _ name => word name.lexeme
  | assign _ name value => list "" "=" [word name.lexeme, value.form]
  | call callee _ args => list "" "call" (callee.form :: forms args)
  | get object name => list "" "." [object.form, word name.lexeme]
  | set object name value =>
    list "" "=" [list "" "." [object.form, word name.lexeme], value.form]
  | receiver _ _ => word "this"

/-- The forms of a list of expressions. -/
def forms : List Expr → List Form
  | [] => []
  | e :: es => e.form :: forms es

end

end Expr

/-- The form of a name with parameters. -/
def Form.signature (name : Token) : List Token → Form
  | [] => list name.lexeme "" []
  | p :: ps => list name.lexeme p.lexeme (ps.map fun p => word p.lexeme)

mutual

/-- The form of a statement. -/
def Stmt.form : Stmt → Form
  | .expression e => list "" ";" [e.form]
  | .print e => list "" "print" [e.form]
  | .var name (some init) => list "" "var" [word name.lexeme, init.form]
  | .var name none => list "" "var" [word name.lexeme]
  | .block body => list "" "block" (Stmt.forms body)
  | .branch cond thenB (some elseB) => list "" "if-else" [cond.form, thenB.form, elseB.form]
  | .branch cond thenB none => list "" "if" [cond.form, thenB.form]
  | .loop cond body => list "" "while" [cond.form, body.form]
  | .function decl => decl.form "fun"
  | .ret _ (some value) => list "" "return" [value.form]
  | .ret _ none => list "" "return" []
  | .classDecl name methods => list "" "class" (word name.lexeme :: FunDecl.forms methods)

/-- The forms of a list of statements. -/
def Stmt.forms : List Stmt → List Form
  | [] => []
  | s :: ss => s.form :: Stmt.forms ss

/-- The form of a function under the given head. -/
def FunDecl.form (head : String) : FunDecl → Form
  | ⟨name, params, body⟩ => list "" head (.signature name params :: Stmt.forms body)

/-- The forms of the methods of a class. -/
def FunDecl.forms : List FunDecl → List Form
  | [] => []
  | f :: fs => f.form "method" :: FunDecl.forms fs

end

/-! ## What is printed are the texts of forms -/

section Text

/-- The first of spaced texts stands behind a blank. -/
theorem spaced_cons (text : String) (texts : List String) :
    (spaced (text :: texts)).toList = ' ' :: (text.toList ++ (spaced texts).toList) := by
  simp [spaced, String.join_eq]

attribute [local simp] Form.chars Form.charsList spaced_cons

namespace Expr

attribute [local simp] text texts form forms

mutual

/-- The text of an expression is that of its form. -/
theorem toList_text : ∀ e : Expr, e.text.toList = e.form.chars
  | literal _ => by simp
  | grouping inner => by simp [inner.toList_text]
  | unary _ operand => by simp [operand.toList_text]
  | binary left _ right => by simp [left.toList_text, right.toList_text]
  | logical left _ right => by simp [left.toList_text, right.toList_text]
  | ident _ _ => by simp
  | assign _ _ value => by simp [value.toList_text]
  | call callee _ args => by simp [callee.toList_text, toList_texts args]
  | get object _ => by simp [object.toList_text]
  | set object _ value => by simp [object.toList_text, value.toList_text]
  | receiver _ _ => by simp

/-- The spaced texts of expressions are those of their forms. -/
theorem toList_texts : ∀ es : List Expr, (spaced (texts es)).toList = Form.charsList (forms es)
  | [] => rfl
  | e :: es => by simp [e.toList_text, toList_texts es]

end

end Expr

/-- Texts with a blank between each two are the first and then the others, each behind a blank. -/
theorem toList_intercalate_cons (text : String) (texts : List String) :
    (" ".intercalate (text :: texts)).toList =
      text.toList ++ Form.charsList (texts.map Form.word) := by
  induction texts generalizing text with
  | nil => simp
  | cons next texts ih =>
    have others := ih next
    rw [String.toList_intercalate] at others ⊢
    rw [List.map_cons] at others
    rw [List.map_cons, List.map_cons, List.intercalate_cons_cons, others]
    simp

attribute [local simp] Stmt.text Stmt.texts Stmt.form Stmt.forms FunDecl.text FunDecl.texts
  FunDecl.form FunDecl.forms Expr.toList_text

/-- A name with its parameters in parentheses is the text of the form of both. -/
theorem Form.toList_signature (name : Token) (params : List Token) :
    name.lexeme.toList ++ '(' :: ((" ".intercalate (params.map (·.lexeme))).toList ++ [')']) =
      (Form.signature name params).chars := by
  cases params with
  | nil => rfl
  | cons p ps =>
    rw [List.map_cons, toList_intercalate_cons]
    simp [Form.signature, Function.comp_def]

mutual

/-- The text of a statement is that of its form. -/
theorem Stmt.toList_text : ∀ s : Stmt, s.text.toList = s.form.chars
  | .expression _ => by simp
  | .print _ => by simp
  | .var _ (some _) => by simp
  | .var _ none => by simp
  | .block body => by simp [Stmt.toList_texts body]
  | .branch _ thenB (some elseB) => by simp [thenB.toList_text, elseB.toList_text]
  | .branch _ thenB none => by simp [thenB.toList_text]
  | .loop _ body => by simp [body.toList_text]
  | .function decl => decl.toList_text "fun"
  | .ret _ (some _) => by simp
  | .ret _ none => by simp
  | .classDecl _ methods => by simp [FunDecl.toList_texts methods]

/-- The spaced texts of statements are those of their forms. -/
theorem Stmt.toList_texts : ∀ ss : List Stmt,
    (spaced (Stmt.texts ss)).toList = Form.charsList (Stmt.forms ss)
  | [] => rfl
  | s :: ss => by simp [s.toList_text, Stmt.toList_texts ss]

/-- The text of a function is that of its form, under any head. -/
theorem FunDecl.toList_text (head : String) : ∀ f : FunDecl,
    (f.text head).toList = (f.form head).chars
  | ⟨name, params, body⟩ => by
    simp [Stmt.toList_texts body, ← Form.toList_signature]

theorem FunDecl.toList_texts : ∀ fs : List FunDecl,
    (spaced (FunDecl.texts fs)).toList = Form.charsList (FunDecl.forms fs)
  | [] => rfl
  | f :: fs => by simp [f.toList_text "method", FunDecl.toList_texts fs]

end

end Text

end Lox
