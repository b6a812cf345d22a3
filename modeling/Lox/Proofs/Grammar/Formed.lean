/-
# The parser builds well-formed trees

Whatever tokens it is given, and also where errors were met, the trees that the parser returns are
well formed, and their names are among the tokens (`parse_formed`).
-/

import Lox.Proofs.Grammar.Contract
import Lox.Proofs.Tree.Formed

namespace Lox
namespace Grammar

section Formed

variable {ok : Token → Prop}

/-- What is known of a phrase when all tokens to read are `ok`. A statement that may stand as a
branch or a body declares nothing. -/
def Phrase.Formed (ok : Token → Prop) : Phrase → Prop
  | token t => ok t
  | number _ => True
  | name t => t.IsName ok
  | expr e => e.Formed ok
  | stmt s => s.Plain ok
  | decl s => s.Formed ok
  | routine f => f.Formed ok

/-- A node of a tier is well formed if its operands are and its operator is one of the tier's. -/
theorem Tier.formed_node {tier tier' : Tier} (ht : tier.tighter? = some tier') {left right : Expr}
    {op : Token} (hl : left.Formed ok) (hop : op.kind ∈ tier.ops) (hr : right.Formed ok) :
    (tier.node left op right).Formed ok := by
  cases tier <;> simp only [Tier.node, Expr.Formed]
  case disjunction =>
    exact ⟨(by decide : ∀ k ∈ Tier.disjunction.ops, k ∈ [Kind.keyword .and_, .keyword .or_]) _ hop,
      hl, hr⟩
  case conjunction =>
    exact ⟨(by decide : ∀ k ∈ Tier.conjunction.ops, k ∈ [Kind.keyword .and_, .keyword .or_]) _ hop,
      hl, hr⟩
  case equality => exact ⟨(by decide : ∀ k ∈ Tier.equality.ops, k ∈ binaryOps) _ hop, hl, hr⟩
  case comparison => exact ⟨(by decide : ∀ k ∈ Tier.comparison.ops, k ∈ binaryOps) _ hop, hl, hr⟩
  case sum => exact ⟨(by decide : ∀ k ∈ Tier.sum.ops, k ∈ binaryOps) _ hop, hl, hr⟩
  case product => exact ⟨(by decide : ∀ k ∈ Tier.product.ops, k ∈ binaryOps) _ hop, hl, hr⟩
  case sign => cases ht

/-- A `for` loop of well-formed parts is rewritten to a well-formed statement, which declares
nothing. -/
theorem forLoop_plain {init : Option Stmt} {cond step : Option Expr} {body : Stmt}
    (hi : ∀ s ∈ init, s.Formed ok) (hc : ∀ e ∈ cond, e.Formed ok) (hp : ∀ e ∈ step, e.Formed ok)
    (hb : Stmt.Plain ok body) : Stmt.Plain ok (forLoop init cond step body) := by
  obtain ⟨hb, hb'⟩ := hb
  cases init <;> cases cond <;> cases step <;>
    simp_all [forLoop, Stmt.Plain, Stmt.declares, Stmt.Formed, Stmt.FormedList, Expr.Formed]

/-- A phrase is well formed if the parts it is joined from are. -/
theorem Phrase.Joins.formed {ps : List Phrase} {p : Phrase} (hj : Phrase.Joins ps p)
    (h : ∀ q ∈ ps, q.Formed ok) : p.Formed ok := by
  cases hj <;> simp only [List.forall_mem_cons, List.forall_mem_append, List.forall_mem_map,
    List.not_mem_nil, false_implies, implies_true, and_true, Phrase.Formed] at h ⊢
  case operation ht hop => exact Tier.formed_node ht h.1 hop h.2
  case forLoop =>
    obtain ⟨⟨⟨hi, hc⟩, hp⟩, hb⟩ := h
    exact forLoop_plain (by simpa using hi) (by simpa using hc) (by simpa using hp) hb
  case expression | print | loop | ifThen | ifElse =>
    exact ⟨rfl, by simpa only [Stmt.Formed] using h⟩
  case ret | block =>
    exact ⟨rfl, by simpa [Stmt.Formed, Stmt.formedList_iff] using h.2⟩
  all_goals
    simp_all [Expr.Formed, Stmt.Formed, FunDecl.Formed, Expr.formedList_iff, Stmt.formedList_iff,
      FunDecl.formedList_iff, Token.IsName]

/-- What was made of tokens that are all `ok` is well formed. -/
def forming (ok : Token → Prop) : Contract where
  made s _ ps := (∀ t ∈ s.rest, ok t) → ∀ p ∈ ps, p.Formed ok
  nil _ _ := by simp
  token hr h := by simpa [Phrase.Formed] using h _ (hr ▸ List.mem_cons_self ..)
  name hr ht h := by simpa [Phrase.Formed] using ⟨ht, h _ (hr ▸ List.mem_cons_self ..)⟩
  number _ _ := by simp [Phrase.Formed]
  append l _ h h' hok p hp := by
    rcases List.mem_append.1 hp with hp | hp
    · exact h hok p hp
    · exact h' (fun t ht => hok t (l.rest.subset ht)) p hp
  join hj h hok := by simpa using hj.formed (h hok)
  deeper h := h

end Formed

/-- Every tree of a program is well formed, with names for which all tokens of the input are `ok`.
-/
theorem parse_formed {ok : Token → Prop} {tokens : List Token} (h : ∀ t ∈ tokens, ok t)
    (n : NodeId) : ∀ s ∈ (parse tokens n).tree, s.Formed ok := by
  unfold parse
  cases hd : declarations tokens.length (.start tokens n) with
  | ok statements s =>
    have made := ((forming ok).declarations_keeps _).made (.refl _) (by simp [forming]) hd h
    exact fun s hs => made _ (List.mem_map_of_mem hs)
  | error e s => simp

/-- The same of an expression that is parsed alone. -/
theorem parseExpression_formed {ok : Token → Prop} {tokens : List Token} (h : ∀ t ∈ tokens, ok t)
    (n : NodeId) : ∀ e ∈ (parseExpression tokens n).tree, e.Formed ok := by
  unfold parseExpression
  cases hd : soleExpression (.start tokens n) with
  | ok e s =>
    have made := (forming ok).soleExpression_keeps.made (.refl _) (by simp [forming]) hd h
    simpa [Phrase.Formed] using made
  | error e s => simp

end Grammar
end Lox
