/-
# Node numbers

The parser numbers the nodes that use a name from the next free number on. The numbers in a tree it
returns are all different and lie between the next free number before and after (`Fresh`,
`parse_fresh`), also where errors were met.
-/

import Lox.Proofs.Grammar.Contract
import Lox.Proofs.Tree.Ids
import Mathlib.Data.List.Nodup

namespace Lox

namespace Grammar

/-- An operation has the numbers of its left operand and then those of its right one. -/
theorem Tier.ids_node (tier : Tier) (left : Expr) (op : Token) (right : Expr) :
    (tier.node left op right).ids = left.ids ++ right.ids := by
  cases tier <;> simp [node, Expr.ids, Expr.names]

/-- No number occurs twice, and all of them are at least `lo` and below `hi`. -/
def Fresh (lo hi : NodeId) (ids : List NodeId) : Prop :=
  ∀ i, ids.count i ≤ if lo ≤ i ∧ i < hi then 1 else 0

namespace Fresh

variable {lo mid hi : NodeId} {ids ids' : List NodeId}

/-- No numbers are always fresh. -/
theorem nil : Fresh lo hi [] := fun _ => Nat.zero_le _

/-- Fresh numbers are all different. -/
theorem nodup (h : Fresh lo hi ids) : ids.Nodup := by
  rw [List.nodup_iff_count_le_one]
  intro i
  refine Nat.le_trans (h i) ?_
  split <;> decide

/-- A fresh number lies between the bounds. -/
theorem range (h : Fresh lo hi ids) {i : NodeId} (hm : i ∈ ids) : lo ≤ i ∧ i < hi := by
  have := h i
  have hpos := List.count_pos_iff.2 hm
  split at this
  · assumption
  · omega

/-- What occurs no more often than in fresh numbers is fresh. -/
theorem mono (h : Fresh lo hi ids) (hc : ∀ i, ids'.count i ≤ ids.count i) : Fresh lo hi ids' :=
  fun i => Nat.le_trans (hc i) (h i)

/-- Fresh numbers of two ranges, one behind the other, are fresh together. -/
theorem append (h : Fresh lo mid ids) (h' : Fresh mid hi ids') (hl : lo ≤ mid) (hr : mid ≤ hi) :
    Fresh lo hi (ids ++ ids') := by
  intro i
  rw [List.count_append]
  have := h i
  have := h' i
  grind

end Fresh

/-- The numbers of the nodes in a phrase. -/
def Phrase.ids : Phrase → List NodeId
  | token _ | name _ => []
  | number id => [id]
  | expr e => e.ids
  | stmt s | decl s => s.ids
  | routine f => f.ids

/-- The numbers in expressions are those of each of them. -/
@[simp] theorem Phrase.ids_exprs (es : List Expr) :
    (es.map Phrase.expr).flatMap Phrase.ids = es.flatMap Expr.ids := List.flatMap_map ..

/-- The numbers in statements are those of each of them. -/
@[simp] theorem Phrase.ids_decls (ss : List Stmt) :
    (ss.map Phrase.decl).flatMap Phrase.ids = ss.flatMap Stmt.ids := List.flatMap_map ..

/-- The numbers in functions are those of each of them. -/
@[simp] theorem Phrase.ids_routines (fs : List FunDecl) :
    (fs.map Phrase.routine).flatMap Phrase.ids = fs.flatMap FunDecl.ids := List.flatMap_map ..

/-- There are no node numbers in names. -/
@[simp] theorem Phrase.ids_names (ts : List Token) :
    (ts.map Phrase.name).flatMap Phrase.ids = [] := by simp [Phrase.ids]

/-- The step of a `for` loop is written before its body and stands behind it in the tree. -/
theorem count_ids_forLoop (init : Option Stmt) (cond step : Option Expr) (body : Stmt)
    (i : NodeId) : (forLoop init cond step body).ids.count i =
      (init.toList.flatMap Stmt.ids).count i + (cond.toList.flatMap Expr.ids).count i +
        (step.toList.flatMap Expr.ids).count i + body.ids.count i := by
  cases init <;> cases cond <;> cases step <;>
    simp [forLoop, Stmt.ids, Stmt.names, Stmt.namesList, Expr.ids, Expr.names] <;> omega

/-- A phrase has no number more often than the parts it is joined from have it. -/
theorem Phrase.Joins.count_ids {ps : List Phrase} {p : Phrase} (h : Phrase.Joins ps p)
    (i : NodeId) : p.ids.count i ≤ (ps.flatMap Phrase.ids).count i := by
  cases h with
  | operation ht hop => simp [Phrase.ids, Tier.ids_node]
  | call => simp [Phrase.ids, Expr.ids_call]
  | assign =>
    -- The node of the target is given up, and the number of the new one stands behind the value.
    simp only [Phrase.ids, Expr.ids, Expr.names, List.flatMap_cons, List.flatMap_nil, List.map_cons,
      List.count_append, List.count_cons, List.count_nil]
    omega
  | forLoop =>
    simp only [Phrase.ids, List.flatMap_append, List.count_append, Phrase.ids_decls,
      Phrase.ids_exprs, count_ids_forLoop, List.flatMap_singleton]
    exact Nat.le_refl _
  | _ =>
    simp [Phrase.ids, Expr.ids, Expr.names, Stmt.ids, Stmt.names, FunDecl.ids, FunDecl.names,
      Expr.map_namesOption, Stmt.map_namesList, FunDecl.map_namesList]

/-- The numbers in what was made are all different and were taken on the way. -/
def numbering : Contract where
  made s s' ps := Fresh s.nextId s'.nextId (ps.flatMap Phrase.ids)
  nil _ := .nil
  token _ := .nil
  name _ _ := .nil
  number s i := by
    simp only [List.flatMap_singleton, Phrase.ids, List.count_singleton]
    grind
  append l l' h h' := by
    rw [List.flatMap_append]
    exact h.append h' l.nextId l'.nextId
  join hj h := h.mono fun i => by simpa using hj.count_ids i
  deeper h := h

/-- The numbers in the trees of a program are fresh from the first one given up to the next free
one. -/
theorem parse_fresh (tokens : List Token) (n : NodeId) :
    Fresh n (parse tokens n).nextId ((parse tokens n).tree.flatMap Stmt.ids) ∧
      n ≤ (parse tokens n).nextId := by
  unfold parse
  cases h : declarations tokens.length (.start tokens n) with
  | ok statements s =>
    have made := (numbering.declarations_keeps _).made (.refl _) .nil h
    exact ⟨Phrase.ids_decls statements ▸ made, ((declarations_advances _).ok h).nextId⟩
  | error e s => exact ⟨.nil, ((declarations_advances _).error h).nextId⟩

/-- The same of an expression that is parsed alone. -/
theorem parseExpression_fresh (tokens : List Token) (n : NodeId) :
    Fresh n (parseExpression tokens n).nextId
      ((parseExpression tokens n).tree.toList.flatMap Expr.ids) ∧
        n ≤ (parseExpression tokens n).nextId := by
  unfold parseExpression
  cases h : soleExpression (.start tokens n) with
  | ok e s =>
    exact ⟨numbering.soleExpression_keeps.made (.refl _) .nil h,
      (soleExpression_advances.ok h).nextId⟩
  | error e s => exact ⟨.nil, (soleExpression_advances.error h).nextId⟩

end Grammar
end Lox
