/-
# The printed form of a program determines its tree

Two trees that the parser builds and that have the same texts differ in nothing but what is not
printed (`parse_text_eq_iff`). Their words were read from sources, so a name is written as a name
and an operator as its kind; the constants have no such mark. A string is printed as it is, without
quotes, so there must be none; and the texts of the numbers must be told from names and from each
other, which is asked of the numbers that are in the trees only.
-/

import Lox.Proofs.Grammar.Alike
import Lox.Proofs.Grammar.Formed
import Lox.Proofs.Tree.Readback

namespace Lox

namespace Literal

/-- Whether the constant is a string. -/
def isString : Literal → Bool
  | string _ => true
  | _ => false

/-- The number that the constant is. -/
def number? : Literal → Option Float
  | number x => some x
  | _ => none

/-- A constant of a tree without strings is among those with the tree's numbers. -/
theorem among_of_mem {l : Literal} {ls : List Literal} (h : l ∈ ls)
    (unquoted : ∀ l ∈ ls, l.isString = false) : l.Among (ls.filterMap number?) := by
  cases l with
  | nil => trivial
  | bool b => trivial
  | number x => exact List.mem_filterMap.2 ⟨_, h, rfl⟩
  | string s => cases unquoted _ h

end Literal

namespace Grammar

/-- The forms of the trees of a source show the bare trees. -/
theorem parse_shows (source : String) (n : NodeId) {numbers : List Float}
    (legible : Number.Legible numbers)
    (among : ∀ l ∈ Stmt.literalsList (parse (tokens source) n).tree, l.Among numbers) :
    List.Forall₂ (Form.Shows numbers)
      ((Stmt.bareList (parse (tokens source) n).tree).map Part.stmt)
      (Stmt.forms (parse (tokens source) n).tree) := by
  have formed := Stmt.formedList_iff.2 (parse_formed (tokens_written source) n)
  have written : ∀ t ∈ Stmt.tokensList (parse (tokens source) n).tree, t.Written :=
    fun t ht => tokens_written source t (parse_tokens _ n t ht)
  exact Stmt.forms_show legible formed written among

/-- **The printed form determines the tree**: the trees of two sources without strings have the same
texts exactly if they are the same but for node numbers, lines, the closing parentheses of calls and
the words `return`. Of the numbers that occur in them it is assumed that they are written with
digits and points, so none is infinite, and that no two of them are written the same. -/
theorem parse_text_eq_iff {source source' : String} {n n' : NodeId} {tree tree' : List Stmt}
    (parsed : (parse (tokens source) n).tree = tree)
    (parsed' : (parse (tokens source') n').tree = tree')
    (unquoted : ∀ l ∈ Stmt.literalsList tree ++ Stmt.literalsList tree', l.isString = false)
    (legible : Number.Legible
      ((Stmt.literalsList tree ++ Stmt.literalsList tree').filterMap Literal.number?)) :
    tree.map Stmt.text = tree'.map Stmt.text ↔ tree.map Stmt.bare = tree'.map Stmt.bare := by
  subst parsed parsed'
  have shows := parse_shows source n legible fun l hl =>
    Literal.among_of_mem (List.mem_append_left _ hl) unquoted
  have shows' := parse_shows source' n' legible fun l hl =>
    Literal.among_of_mem (List.mem_append_right _ hl) unquoted
  rw [← Stmt.texts_eq_map, ← Stmt.texts_eq_map, ← Stmt.bareList_eq_map, ← Stmt.bareList_eq_map]
  constructor
  · exact Stmt.bareList_eq_of_texts shows shows'
  · intro bare
    rw [← Stmt.texts_bare, bare, Stmt.texts_bare]

/-- A program with a `for` loop. -/
def forSource : String := "for (var i = 1; i < 2.5; i = i + 1) print i;"

/-- The same program with a `while` loop, a line further down. -/
def whileSource : String :=
  "\n{ var i = 1; while (i < 2.5) { print i; i = i + 1; } }"

/-- A `for` loop is printed as the `while` loop that does the same, so their trees are the same but
for numbers and lines. -/
theorem forSource_bare_eq :
    (parse (tokens forSource) 0).tree.map Stmt.bare =
      (parse (tokens whileSource) 0).tree.map Stmt.bare :=
  (parse_text_eq_iff rfl rfl (by decide +kernel) ⟨by decide +kernel, by decide +kernel⟩).1
    (by decide +kernel)

/-- With strings it would be otherwise: they are printed as names are. -/
example : (parse (tokens "print \"a\";") 0).tree.map Stmt.text =
    (parse (tokens "print a;") 0).tree.map Stmt.text := by decide +kernel

end Grammar

end Lox
