/-
# Paths down a tree

A path goes from a node to one of the nodes right below it, and on from there. How deep a tree is
nested is told by the nodes on its paths: `Node.counted` are the blocks, branches, loops, groups and
signs, and a node is `Within d` if no path down from it has more than `d` of these. It is so if all
the nodes right below it are, with one to spare if it is counted itself (`Within.of_counted`).
-/

import Lox.Proofs.Tree.Erase
import Mathlib.Data.List.Chain

namespace Lox

/-- An expression or a statement of a tree. -/
inductive Node where
  | expr (e : Expr)
  | stmt (s : Stmt)

namespace Node

/-- The nodes right below a node. Below a function or a class are the statements of its bodies. -/
def children : Node → List Node
  | expr (.literal _) | expr (.ident _ _) | expr (.receiver _ _) => []
  | expr (.grouping inner) => [expr inner]
  | expr (.unary _ operand) => [expr operand]
  | expr (.binary left _ right) | expr (.logical left _ right) => [expr left, expr right]
  | expr (.assign _ _ value) => [expr value]
  | expr (.call callee _ args) => (callee :: args).map expr
  | expr (.get object _) => [expr object]
  | expr (.set object _ value) => [expr object, expr value]
  | stmt (.expression e) | stmt (.print e) => [expr e]
  | stmt (.var _ value) | stmt (.ret _ value) => value.toList.map expr
  | stmt (.block body) => body.map stmt
  | stmt (.branch cond thenB elseB) => expr cond :: (thenB :: elseB.toList).map stmt
  | stmt (.loop cond body) => [expr cond, stmt body]
  | stmt (.function decl) => decl.body.map stmt
  | stmt (.classDecl _ methods) => (methods.flatMap (·.body)).map stmt

/-- Whether the node is a block, a branch, a loop, a group or a sign. -/
def counted : Node → Bool
  | stmt (.block _) | stmt (.branch ..) | stmt (.loop ..) => true
  | expr (.grouping _) | expr (.unary ..) => true
  | _ => false

/-- Whether the node is counted, or is an assignment or a function. -/
def nests : Node → Bool
  | stmt (.function _) | expr (.assign ..) => true
  | n => n.counted

/-- Each node of the list but the first stands right below the one before it. -/
abbrev IsPath (path : List Node) : Prop :=
  path.IsChain fun parent child => child ∈ parent.children

/-- No path down from the node has more counted nodes. -/
def Within (d : Nat) (n : Node) : Prop :=
  ∀ path, IsPath (n :: path) → (n :: path).countP counted ≤ d

section Within

variable {d : Nat} {n : Node}

/-- A bound on the nodes that count may be raised. -/
theorem Within.mono {d' : Nat} (h : n.Within d) (hd : d ≤ d') : n.Within d' :=
  fun path hp => Nat.le_trans (h path hp) hd

/-- The nodes of a path behind the first are no more than those of a node below it. -/
theorem countP_tail_le (h : ∀ c ∈ n.children, c.Within d) {path : List Node}
    (hp : IsPath (n :: path)) : path.countP counted ≤ d := by
  cases path with
  | nil => exact Nat.zero_le d
  | cons c path =>
    obtain ⟨below, hp⟩ := List.isChain_cons_cons.1 hp
    exact h c below path hp

/-- A node that does not count is within the bound that the nodes below it are within. -/
theorem Within.of_plain (hn : n.counted = false) (h : ∀ c ∈ n.children, c.Within d) :
    n.Within d := by
  intro path hp
  rw [List.countP_cons_of_neg (by simp [hn])]
  exact countP_tail_le h hp

/-- Any node is within a bound one above that of the nodes below it. -/
theorem Within.of_counted (h : ∀ c ∈ n.children, c.Within d) : n.Within (d + 1) := by
  intro path hp
  rw [List.countP_cons]
  have := countP_tail_le h hp
  split <;> omega

end Within

section Erase

/-- The node with its node numbers set to zero. -/
def erase : Node → Node
  | expr e => expr e.erase
  | stmt s => stmt s.erase

/-- Whether a node counts does not hang on its number. -/
theorem counted_erase (n : Node) : n.erase.counted = n.counted := by
  cases n with
  | expr e => cases e <;> rfl
  | stmt s =>
    cases s with
    | branch _ _ elseB => cases elseB <;> rfl
    | _ => rfl

theorem nests_erase (n : Node) : n.erase.nests = n.nests := by
  cases n with
  | expr e => cases e <;> rfl
  | stmt s =>
    cases s with
    | branch _ _ elseB => cases elseB <;> rfl
    | _ => rfl

/-- So many nodes of a path have a property, with or without their numbers, if the property does not
hang on them. -/
theorem countP_erase {f : Node → Bool} (hf : ∀ n, f (erase n) = f n) (path : List Node) :
    (path.map erase).countP f = path.countP f := by
  rw [List.countP_map]
  exact List.countP_congr fun n _ => by rw [Function.comp_apply, hf]

/-- The body of a function is erased statement by statement. -/
theorem body_erase (f : FunDecl) : f.erase.body = f.body.map Stmt.erase := by
  obtain ⟨name, params, body⟩ := f
  rw [FunDecl.erase, Stmt.eraseList_eq_map]

/-- Below a node without numbers are the nodes below it, without theirs. -/
theorem children_erase (n : Node) : n.erase.children = n.children.map erase := by
  cases n with
  | expr e => cases e <;> simp [erase, children, Expr.erase]
  | stmt s =>
    cases s with
    | branch _ _ elseB => cases elseB <;> simp [erase, children, Stmt.erase]
    | var _ value | ret _ value => cases value <;> simp [erase, children, Stmt.erase]
    | function decl => simp [erase, children, Stmt.erase, body_erase]
    | classDecl _ methods =>
      have kinds : erase ∘ stmt = stmt ∘ Stmt.erase := rfl
      simp [erase, children, Stmt.erase, body_erase, List.flatMap_map, List.map_flatMap, kinds]
    | _ => simp [erase, children, Stmt.erase]

/-- Node numbers have nothing to do with paths. -/
theorem Within.of_erase {d : Nat} {n : Node} (h : n.erase.Within d) : n.Within d := by
  intro path hp
  have erased : IsPath ((n :: path).map erase) := by
    rw [IsPath, List.isChain_map]
    refine hp.imp fun parent child below => ?_
    rw [children_erase]
    exact List.mem_map_of_mem below
  rw [← countP_erase counted_erase]
  exact h _ erased

/-- The paths of the erased node come from paths of the node. -/
theorem exists_path_of_erase {n : Node} {path : List Node} (hp : IsPath (n.erase :: path)) :
    ∃ path', IsPath (n :: path') ∧ path'.map erase = path := by
  induction path generalizing n with
  | nil => exact ⟨[], .singleton n, rfl⟩
  | cons c path ih =>
    obtain ⟨below, hp⟩ := List.isChain_cons_cons.1 hp
    rw [children_erase] at below
    obtain ⟨c', below', rfl⟩ := List.mem_map.1 below
    obtain ⟨path', hp', rfl⟩ := ih hp
    exact ⟨c' :: path', .cons_cons below' hp', rfl⟩

end Erase

end Node

end Lox
