/-
# How deep an accepted program is nested

The parser enters statements, expressions and the operands of signs one level deeper, and there are
`maxNesting` levels. What it accepts is derived within that many (`program_of_accepted`), and a
derivation on `d` levels gives a node that is `Within d`: each block, branch, loop, group and sign
on a path down the tree takes up a level of its own (`Statement.within`). A `for` loop is left out
of this, since it is one statement and stands for up to three nodes.

The value of an assignment and the body of a function are not entered one level deeper. There is no
limit to how many assignments (`parse_assignments`) or functions (`parse_functions`) an accepted
program nests.
-/

import Lox.Proofs.Grammar.Accepted
import Lox.Proofs.Grammar.Faults
import Lox.Proofs.Tree.Paths

namespace Lox
namespace Grammar

open Derives

/-! ## Derivations on so many levels -/

namespace Derives

section Within

variable {arity : Nat} {nearest : Bool}

/-- Within one level less is within as many. -/
theorem within_of_spare {d : Nat} {n : Node} (h : ∃ d', d = d' + 1 ∧ n.Within d') :
    n.Within d := by
  obtain ⟨d', rfl, hn⟩ := h
  exact hn.mono (Nat.le_succ _)

/-- An operation is within the levels that both of its operands are within. -/
theorem within_operation (tier : Tier) {d : Nat} {left right : Expr} (op : Token)
    (hl : (Node.expr left).Within d) (hr : (Node.expr right).Within d) :
    (Node.expr (tier.node left op right)).Within d := by
  cases tier <;>
    exact .of_plain rfl (List.forall_mem_cons.2 ⟨hl, List.forall_mem_singleton.2 hr⟩)

mutual

/-- An expression takes up a level itself. -/
theorem Expression.within : ∀ {d ts e}, Expression arity d ts e →
    ∃ d', d = d' + 1 ∧ (Node.expr e).Within d'
  | _, _, _, .deeper h => ⟨_, rfl, h.within⟩

/-- An assignment on `d` levels is within them, and so is its value. -/
theorem Assignment.within : ∀ {d ts e}, Assignment arity d ts e → (Node.expr e).Within d
  | _, _, _, .operation h => h.within
  | _, _, _, .toName _ _ h => .of_plain rfl (List.forall_mem_singleton.2 h.within)
  | _, _, _, .toProperty ho _ _ _ h =>
    .of_plain rfl (List.forall_mem_cons.2 ⟨ho.within, List.forall_mem_singleton.2 h.within⟩)

/-- An operation on `d` levels is within them. -/
theorem Operation.within : ∀ {d tier ts e}, Operation arity d tier ts e → (Node.expr e).Within d
  | _, _, _, _, .sign h => h.within
  | _, _, _, _, .operand _ h => h.within
  | _, _, _, _, .more _ hl _ hr => within_operation _ _ hl.within hr.within

/-- An expression with signs on `d` levels is within them, as each sign takes up one. -/
theorem Unary.within : ∀ {d ts e}, Unary arity d ts e → (Node.expr e).Within d
  | _, _, _, .bang _ h | _, _, _, .minus _ h =>
    .of_counted (List.forall_mem_singleton.2 h.within)
  | _, _, _, .call h => h.within

/-- A call on `d` levels is within them. -/
theorem Call.within : ∀ {d ts e}, Call arity d ts e → (Node.expr e).Within d
  | _, _, _, .primary h => h.within
  | _, _, _, .apply h _ ha _ _ =>
    .of_plain rfl (List.forall_mem_map.2 (List.forall_mem_cons.2 ⟨h.within, ha.within⟩))
  | _, _, _, .property h _ _ => .of_plain rfl (List.forall_mem_singleton.2 h.within)

/-- A primary form on `d` levels is within them, as parentheses take up one. -/
theorem Primary.within : ∀ {d ts e}, Primary arity d ts e → (Node.expr e).Within d
  | _, _, _, .number _ | _, _, _, .string _ | _, _, _, .true _ | _, _, _, .false _
  | _, _, _, .nil _ | _, _, _, .receiver _ | _, _, _, .name _ => .of_plain rfl nofun
  | _, _, _, .group _ h _ => by
    obtain ⟨d', rfl, he⟩ := h.within
    exact .of_counted (List.forall_mem_singleton.2 he)

/-- Arguments on `d` levels are within them. -/
theorem Arguments.within : ∀ {d ts es}, Arguments arity d ts es →
    ∀ e ∈ es, (Node.expr e).Within d
  | _, _, _, .none => nofun
  | _, _, _, .some h => h.within

theorem ArgumentList.within : ∀ {d ts es}, ArgumentList arity d ts es →
    ∀ e ∈ es, (Node.expr e).Within d
  | _, _, _, .one h => List.forall_mem_singleton.2 (within_of_spare h.within)
  | _, _, _, .more h _ hmore => List.forall_mem_cons.2 ⟨within_of_spare h.within, hmore.within⟩

end

/-- An expression on `d` levels is within them. -/
theorem Expression.inside {d ts e} (h : Expression arity d ts e) : (Node.expr e).Within d :=
  within_of_spare h.within

/-- The same of an expression that may be missing. -/
theorem Optional.inside {d ts value} (h : Optional (Expression arity d) ts value) :
    ∀ n ∈ value.toList.map Node.expr, n.Within d := by
  cases h with
  | none => nofun
  | some h => exact List.forall_mem_singleton.2 h.inside

/-- The declaration of a variable on `d` levels is within them. -/
theorem VarDecl.within {d ts s} (h : VarDecl arity d ts s) : (Node.stmt s).Within d := by
  cases h with
  | plain _ _ _ => exact .of_plain rfl nofun
  | initialized _ _ _ h _ => exact .of_plain rfl (List.forall_mem_singleton.2 h.inside)

/-- None of the tokens begins a `for` loop. -/
abbrev NoFor (ts : List Token) : Prop := ∀ t ∈ ts, ¬Word .for_ t

mutual

/-- A statement is within the levels it is derived on. -/
theorem Statement.within : ∀ {d o ts s}, Statement nearest arity d o ts s → NoFor ts →
    (Node.stmt s).Within d
  | _ + 1, _, _, _, .expression (.intro h _), _ =>
    .mono (.of_plain rfl (List.forall_mem_singleton.2 h.inside)) (Nat.le_succ _)
  | _ + 1, _, _, _, .print _ h _, _ =>
    .mono (.of_plain rfl (List.forall_mem_singleton.2 h.inside)) (Nat.le_succ _)
  | _ + 1, _, _, _, .ret _ h _, _ => .mono (.of_plain rfl h.inside) (Nat.le_succ _)
  | _ + 1, _, _, _, .block _ h _, hf =>
    .of_counted (List.forall_mem_map.2 (h.within fun t ht => hf t (by simp [ht])))
  | _ + 1, _, _, _, .whileLoop _ _ h _ hs, hf => by
    have body := hs.within fun t ht => hf t (by simp [ht])
    exact .of_counted (List.forall_mem_cons.2 ⟨h.inside, List.forall_mem_singleton.2 body⟩)
  | _ + 1, _, _, _, .ifThen _ _ h _ hs, hf => by
    have thenB := hs.within fun t ht => hf t (by simp [ht])
    exact .of_counted (List.forall_mem_cons.2 ⟨h.inside, List.forall_mem_singleton.2 thenB⟩)
  | _ + 1, _, _, _, .ifElse _ _ h _ hs _ _ hs', hf => by
    have thenB := hs.within fun t ht => hf t (by simp [ht])
    have elseB := hs'.within fun t ht => hf t (by simp [ht])
    exact .of_counted (List.forall_mem_cons.2 ⟨h.inside,
      List.forall_mem_cons.2 ⟨thenB, List.forall_mem_singleton.2 elseB⟩⟩)
  | _ + 1, _, _, _, .forLoop hkw _ _ _ _ _ _ _, hf => absurd hkw (hf _ (List.mem_cons_self ..))

/-- A declaration without `for` loops on `d` levels is within them. -/
theorem Declaration.within : ∀ {d ts s}, Declaration nearest arity d ts s → NoFor ts →
    (Node.stmt s).Within d
  | _, _, _, .classDecl _ _ _ h _, hf =>
    .of_plain rfl (List.forall_mem_map.2 (h.within fun t ht => hf t (by simp [ht])))
  | _, _, _, .function _ h, hf =>
    .of_plain rfl (List.forall_mem_map.2 (h.within fun t ht => hf t (by simp [ht])))
  | _, _, _, .var h, _ => h.within
  | _, _, _, .statement h, hf => h.within hf

/-- The same of declarations one after the other. -/
theorem Declarations.within : ∀ {d ts ss}, Declarations nearest arity d ts ss → NoFor ts →
    ∀ s ∈ ss, (Node.stmt s).Within d
  | _, _, _, .nil, _ => nofun
  | _, _, _, .cons h hmore, hf => List.forall_mem_cons.2
    ⟨h.within fun t ht => hf t (by simp [ht]), hmore.within fun t ht => hf t (by simp [ht])⟩

/-- The same of the statements in the body of a function. -/
theorem Function.within : ∀ {d ts f}, Function nearest arity d ts f → NoFor ts →
    ∀ s ∈ f.body, (Node.stmt s).Within d
  | _, _, _, .intro _ _ _ _ _ _ h _, hf => h.within fun t ht => hf t (by simp [ht])

/-- The same of the statements in the bodies of methods. -/
theorem Methods.within : ∀ {d ts fs}, Methods nearest arity d ts fs → NoFor ts →
    ∀ s ∈ fs.flatMap (·.body), (Node.stmt s).Within d
  | _, _, _, .nil, _ => nofun
  | _, _, _, .cons h hmore, hf => by
    have first := h.within fun t ht => hf t (by simp [ht])
    have others := hmore.within fun t ht => hf t (by simp [ht])
    rw [List.flatMap_cons]
    exact List.forall_mem_append.2 ⟨first, others⟩

end

end Within

end Derives

/-! ## Accepted programs -/

/-- What is parsed without an error follows the rules, up to the first end of input. -/
theorem program_of_accepted {tokens : List Token} {n : NodeId}
    (h : (parse tokens n).errors = []) :
    Program (inner tokens) ((parse tokens n).tree.map Stmt.erase) := by
  obtain ⟨ss, s, hd⟩ := declarations_returns tokens.length (.start tokens n)
  rw [parse_eq hd] at h ⊢
  obtain ⟨ts, hrest, hend, hderiv⟩ :=
    declarations_sound _ hd (congrArg List.length h) (Nat.le_refl _)
  obtain ⟨new, charged⟩ := (declarations_runs tokens.length (.start tokens n)).ok hd
  have read : inner tokens = ts := charged.reaches.inner_eq hend hrest
  exact read ▸ hderiv

/-- **Nesting is limited.** Of a list of tokens that is parsed without an error and has no `for`
before its first end of input, no path down from a statement of the program has more than
`maxNesting` blocks, branches, loops, groups and signs on it. -/
theorem parse_within {tokens : List Token} {n : NodeId} (accepted : (parse tokens n).errors = [])
    (noFor : NoFor (inner tokens)) {s : Stmt} (hs : s ∈ (parse tokens n).tree)
    {path : List Node} (hp : Node.IsPath (.stmt s :: path)) :
    (Node.stmt s :: path).countP Node.counted ≤ maxNesting := by
  have erased : s.erase ∈ (parse tokens n).tree.map Stmt.erase := List.mem_map_of_mem hs
  have within : (Node.stmt s).erase.Within maxNesting :=
    (program_of_accepted accepted).within noFor _ erased
  exact within.of_erase path hp

/-- The tokens of `{ while (a) if (b) !(c); }`, and a `for` behind the end of the input. -/
def nestedNodes : List Token :=
  [⟨.punct .leftBrace, "\x7b", 1⟩, ⟨.keyword .while_, "while", 1⟩, ⟨.punct .leftParen, "(", 1⟩,
    ⟨.identifier, "a", 1⟩, ⟨.punct .rightParen, ")", 1⟩, ⟨.keyword .if_, "if", 1⟩,
    ⟨.punct .leftParen, "(", 1⟩, ⟨.identifier, "b", 1⟩, ⟨.punct .rightParen, ")", 1⟩,
    ⟨.punct .bang, "!", 1⟩, ⟨.punct .leftParen, "(", 1⟩, ⟨.identifier, "c", 1⟩,
    ⟨.punct .rightParen, ")", 1⟩, ⟨.punct .semicolon, ";", 1⟩, ⟨.punct .rightBrace, "\x7d", 1⟩,
    .endOfInput 1, ⟨.keyword .for_, "for", 1⟩]

/-- Its group, its sign, its branch and its loop. -/
def nestedGroup : Expr := .grouping (.ident 2 ⟨.identifier, "c", 1⟩)

@[inherit_doc nestedGroup]
def nestedSign : Expr := .unary ⟨.punct .bang, "!", 1⟩ nestedGroup

@[inherit_doc nestedGroup]
def nestedBranch : Stmt := .branch (.ident 1 ⟨.identifier, "b", 1⟩) (.expression nestedSign) none

@[inherit_doc nestedGroup]
def nestedLoop : Stmt := .loop (.ident 0 ⟨.identifier, "a", 1⟩) nestedBranch

/-- In a program with a loop in a block and a branch in the loop there is a path with five nodes
that count, and no more of them than there are levels. -/
theorem nestedNodes_within :
    (parse nestedNodes 0).errors = [] ∧ NoFor (inner nestedNodes) ∧
    ∃ s ∈ (parse nestedNodes 0).tree, ∃ path, Node.IsPath (.stmt s :: path) ∧
      (Node.stmt s :: path).countP Node.counted = 5 ∧
      (Node.stmt s :: path).countP Node.counted ≤ maxNesting := by
  have accepted : (parse nestedNodes 0).errors = [] := by decide +kernel
  have noFor : NoFor (inner nestedNodes) := by decide
  have root : .block [nestedLoop] ∈ (parse nestedNodes 0).tree := by decide +kernel
  have chain : Node.IsPath
      [.stmt (.block [nestedLoop]), .stmt nestedLoop, .stmt nestedBranch,
        .stmt (.expression nestedSign), .expr nestedSign, .expr nestedGroup] := by
    simp [Node.children, nestedLoop, nestedBranch, nestedSign]
  exact ⟨accepted, noFor, _, root, _, chain, rfl, parse_within accepted noFor root chain⟩

/-! ## What is not limited -/

/-- The program is accepted, has no `for`, and nests at least so many blocks, branches, loops,
groups, signs, assignments and functions on one path. -/
def NestsTo (k : Nat) (tokens : List Token) : Prop :=
  (parse tokens 0).errors = [] ∧ NoFor (inner tokens) ∧
    ∃ s ∈ (parse tokens 0).tree, ∃ path, Node.IsPath (.stmt s :: path) ∧
      k ≤ (Node.stmt s :: path).countP Node.nests

/-- A program without `for` loops that has a path with `k` nested nodes nests to `k`. -/
theorem nestsTo_of_program {k : Nat} {ts : List Token} {ss : List Stmt} (h : Program ts ss)
    (noFor : NoFor ts) {s : Stmt} (hs : s ∈ ss) {path : List Node}
    (hp : Node.IsPath (.stmt s :: path)) (hk : k ≤ (Node.stmt s :: path).countP Node.nests) :
    NestsTo k (ts ++ [.endOfInput 1]) := by
  obtain ⟨accepted, erased⟩ := @parse_of_program ts (.endOfInput 1) 0 ss rfl h
  rw [← erased] at hs
  obtain ⟨s', hs', rfl⟩ := List.mem_map.1 hs
  obtain ⟨path', hp', rfl⟩ := @Node.exists_path_of_erase (.stmt s') path hp
  refine ⟨accepted, ?_, s', hs', path', hp', ?_⟩
  · intro t ht
    obtain ht | ht := List.mem_append.1 ((List.takeWhile_sublist _).subset ht)
    · exact noFor t ht
    · rw [List.mem_singleton.1 ht]
      decide
  · rw [← Node.countP_erase Node.nests_erase]
    exact hk

section Assignments

/-- A name. -/
def aName : Token := ⟨.identifier, "a", 1⟩

/-- The tokens of `a = a = … = nil`, with so many assignments. -/
def assignments : Nat → List Token
  | 0 => [⟨.keyword .nil_, "nil", 1⟩]
  | k + 1 => aName :: ⟨.punct .equal, "=", 1⟩ :: assignments k

/-- The tree of so many assignments. -/
def assignmentTree : Nat → Expr
  | 0 => .literal .nil
  | k + 1 => .assign 0 aName (assignmentTree k)

/-- Any number of assignments nested in one another is an assignment, on every level. -/
theorem assignments_derived (arity d : Nat) :
    ∀ k, Assignment arity d (assignments k) (assignmentTree k)
  | 0 => .operation <| .operand rfl <| .operand rfl <| .operand rfl <| .operand rfl <|
      .operand rfl <| .operand rfl <| .sign <| .call <| .primary <| .nil rfl
  | k + 1 => .toName rfl rfl (assignments_derived arity d k)

/-- There is no `for` in them. -/
theorem assignments_noFor : ∀ k, NoFor (assignments k)
  | 0 => by decide
  | k + 1 => List.forall_mem_cons.2
    ⟨by decide, List.forall_mem_cons.2 ⟨by decide, assignments_noFor k⟩⟩

/-- On the path down them each is passed. -/
theorem assignments_path : ∀ k, ∃ path, Node.IsPath (.expr (assignmentTree k) :: path) ∧
    k ≤ (Node.expr (assignmentTree k) :: path).countP Node.nests
  | 0 => ⟨[], .singleton _, Nat.zero_le _⟩
  | k + 1 => by
    obtain ⟨path, hp, hk⟩ := assignments_path k
    refine ⟨_, .cons_cons (List.mem_singleton_self _) hp, ?_⟩
    rw [List.countP_cons_of_pos rfl]
    exact Nat.succ_le_succ hk

/-- An accepted program may nest any number of assignments. -/
theorem parse_assignments (k : Nat) :
    NestsTo k (assignments k ++ [⟨.punct .semicolon, ";", 1⟩] ++ [.endOfInput 1]) := by
  obtain ⟨path, hp, hk⟩ := assignments_path k
  have whole : Statement true maxArity maxNesting false _ (.expression (assignmentTree k)) :=
    .expression (.intro (.deeper (assignments_derived maxArity 98 k))
      (rfl : Mark .semicolon ⟨_, ";", 1⟩))
  have derived := Declarations.cons (.statement whole) .nil
  rw [List.append_nil] at derived
  refine nestsTo_of_program derived ?_ (List.mem_singleton_self _)
    (.cons_cons (List.mem_singleton_self _) hp) ?_
  · exact List.forall_mem_append.2 ⟨assignments_noFor k, by decide⟩
  · rwa [List.countP_cons_of_neg (Bool.eq_false_iff.1 rfl)]

end Assignments

section Functions

/-- The tokens of `fun a() { fun a() { … } }`, with so many functions. -/
def functions : Nat → List Token
  | 0 => []
  | k + 1 => [⟨.keyword .fun_, "fun", 1⟩, aName, ⟨.punct .leftParen, "(", 1⟩,
      ⟨.punct .rightParen, ")", 1⟩, ⟨.punct .leftBrace, "\x7b", 1⟩] ++
        (functions k ++ [⟨.punct .rightBrace, "\x7d", 1⟩])

/-- The trees of so many functions, each but the first in the body of another. -/
def functionTrees : Nat → List Stmt
  | 0 => []
  | k + 1 => [.function ⟨aName, [], functionTrees k⟩]

/-- Any number of functions nested in one another are declarations, on every level. -/
theorem functions_derived (d : Nat) :
    ∀ k, Declarations true maxArity d (functions k) (functionTrees k)
  | 0 => .nil
  | k + 1 => by
    have inner : Function true maxArity d _ ⟨aName, [], functionTrees k⟩ :=
      .intro rfl (rfl : Mark .leftParen ⟨_, "(", 1⟩) .none (Nat.zero_le _)
        (rfl : Mark .rightParen ⟨_, ")", 1⟩) (rfl : Mark .leftBrace ⟨_, "\x7b", 1⟩)
        (functions_derived d k) (rfl : Mark .rightBrace ⟨_, "\x7d", 1⟩)
    have outer := Declarations.cons
      (Declaration.function (rfl : Word .fun_ ⟨_, "fun", 1⟩) inner) .nil
    rwa [List.append_nil] at outer

/-- There is no `for` in them. -/
theorem functions_noFor : ∀ k, NoFor (functions k)
  | 0 => List.forall_mem_nil _
  | k + 1 => List.forall_mem_append.2
    ⟨by decide, List.forall_mem_append.2 ⟨functions_noFor k, by decide⟩⟩

/-- On the path down them each is passed. -/
theorem functions_path : ∀ k, ∃ s ∈ functionTrees (k + 1), ∃ path,
    Node.IsPath (.stmt s :: path) ∧ k + 1 ≤ (Node.stmt s :: path).countP Node.nests
  | 0 => ⟨_, List.mem_singleton_self _, [], .singleton _, Nat.le_refl 1⟩
  | k + 1 => by
    obtain ⟨s, hs, path, hp, hk⟩ := functions_path k
    refine ⟨_, List.mem_singleton_self _, _, .cons_cons (List.mem_map_of_mem hs) hp, ?_⟩
    rw [List.countP_cons_of_pos rfl]
    exact Nat.succ_le_succ hk

/-- An accepted program may nest any number of functions. -/
theorem parse_functions (k : Nat) : NestsTo (k + 1) (functions (k + 1) ++ [.endOfInput 1]) := by
  obtain ⟨s, hs, path, hp, hk⟩ := functions_path k
  exact nestsTo_of_program (functions_derived _ _) (functions_noFor _) hs hp hk

end Functions

/-- The levels do not limit assignments and functions: `a = a = … = nil;` with 101 assignments is
accepted, and so are 101 functions, each but the first in the body of another. -/
theorem nesting_unlimited :
    NestsTo (maxNesting + 1) (assignments 101 ++ [⟨.punct .semicolon, ";", 1⟩] ++ [.endOfInput 1]) ∧
      NestsTo (maxNesting + 1) (functions 101 ++ [.endOfInput 1]) :=
  ⟨parse_assignments 101, parse_functions 100⟩

end Grammar
end Lox
