/-
# Trees without loops

Whether a tree has a loop anywhere, the bodies of its functions included (`Stmt.loopFree`), and how
deep its parts are nested (`Stmt.height`). Neither has to do with node numbers
(`Stmt.Alike.loopFree`, `Stmt.Alike.height`).
-/

import Lox.Proofs.Tree.Alike
import Lox.Proofs.Tree.Obeys

namespace Lox

mutual

/-- Whether there is no loop in the statement. -/
def Stmt.loopFree : Stmt → Bool
  | .block body => Stmt.loopFreeList body
  | .branch _ thenB none => thenB.loopFree
  | .branch _ thenB (some elseB) => thenB.loopFree && elseB.loopFree
  | .loop _ _ => false
  | .function decl => decl.loopFree
  | .classDecl _ methods => FunDecl.loopFreeList methods
  | .expression _ => true
  | .print _ => true
  | .var _ _ => true
  | .ret _ _ => true

/-- Whether there is no loop in the statements. -/
def Stmt.loopFreeList : List Stmt → Bool
  | [] => true
  | s :: ss => s.loopFree && Stmt.loopFreeList ss

/-- Whether there is no loop in the function. -/
def FunDecl.loopFree : FunDecl → Bool
  | ⟨_, _, body⟩ => Stmt.loopFreeList body

/-- Whether there is no loop in the functions. -/
def FunDecl.loopFreeList : List FunDecl → Bool
  | [] => true
  | f :: fs => f.loopFree && FunDecl.loopFreeList fs

end

namespace Expr

mutual

/-- How deep the parts of the expression are nested. -/
def height : Expr → Nat
  | literal _ => 1
  | grouping inner => inner.height + 1
  | unary _ operand => operand.height + 1
  | binary left _ right => max left.height right.height + 1
  | logical left _ right => max left.height right.height + 1
  | ident _ _ => 1
  | assign _ _ value => value.height + 1
  | call callee _ args => max callee.height (heightList args) + 1
  | get object _ => object.height + 1
  | set object _ value => max object.height value.height + 1
  | receiver _ _ => 1

/-- The height of the highest of the expressions. -/
def heightList : List Expr → Nat
  | [] => 0
  | e :: es => max e.height (heightList es)

end

/-- The height of the expression, if there is one. -/
def heightOption : Option Expr → Nat
  | none => 0
  | some e => e.height

end Expr

mutual

/-- How deep the parts of the statement are nested, the bodies of functions among them. -/
def Stmt.height : Stmt → Nat
  | .expression e => e.height + 1
  | .print e => e.height + 1
  | .var _ init => Expr.heightOption init + 1
  | .block body => Stmt.heightList body + 1
  | .branch cond thenB none => max cond.height thenB.height + 1
  | .branch cond thenB (some elseB) => max cond.height (max thenB.height elseB.height) + 1
  | .loop cond body => max cond.height body.height + 1
  | .function decl => decl.height + 1
  | .ret _ value => Expr.heightOption value + 1
  | .classDecl _ methods => FunDecl.heightList methods + 1

/-- The height of the highest of the statements. -/
def Stmt.heightList : List Stmt → Nat
  | [] => 0
  | s :: ss => max s.height (Stmt.heightList ss)

/-- The height of the highest statement of the function. -/
def FunDecl.height : FunDecl → Nat
  | ⟨_, _, body⟩ => Stmt.heightList body

/-- The height of the highest of the functions. -/
def FunDecl.heightList : List FunDecl → Nat
  | [] => 0
  | f :: fs => max f.height (FunDecl.heightList fs)

end

/-- No statement of a list is higher than the list. -/
theorem Stmt.height_le_of_mem {s : Stmt} : ∀ {ss : List Stmt}, s ∈ ss →
    s.height ≤ Stmt.heightList ss
  | s' :: ss, h => by
    rw [Stmt.heightList]
    rcases List.mem_cons.1 h with rfl | h
    · omega
    · have := Stmt.height_le_of_mem h
      omega

/-- No statement of a body is higher than the function. -/
theorem FunDecl.height_body {f : FunDecl} : ∀ s ∈ f.body, s.height ≤ f.height := by
  intro s hs
  obtain ⟨_, _, _⟩ := f
  rw [FunDecl.height]
  exact Stmt.height_le_of_mem hs

/-- Every expression has a height. -/
theorem Expr.height_pos (e : Expr) : 0 < e.height := by
  cases e <;> rw [Expr.height] <;> omega

/-- Every statement has a height. -/
theorem Stmt.height_pos (s : Stmt) : 0 < s.height := by
  cases s with
  | branch cond thenB elseB => cases elseB <;> rw [Stmt.height] <;> omega
  | _ => rw [Stmt.height]; omega

/-! ## Node numbers do not matter -/

section

variable {R : Token → Token → Prop} {J : NodeId → NodeId → Prop}

mutual

/-- Alike expressions are of one height. -/
theorem Expr.Alike.height : ∀ {e e' : Expr}, e.Alike R J e' → e'.height = e.height
  | _, _, .literal _ => rfl
  | _, _, .grouping he => by rw [Expr.height, Expr.height, he.height]
  | _, _, .unary _ he => by rw [Expr.height, Expr.height, he.height]
  | _, _, .binary hl _ hr => by rw [Expr.height, Expr.height, hl.height, hr.height]
  | _, _, .logical hl _ hr => by rw [Expr.height, Expr.height, hl.height, hr.height]
  | _, _, .ident _ _ => by rw [Expr.height, Expr.height]
  | _, _, .assign _ _ he => by rw [Expr.height, Expr.height, he.height]
  | _, _, .call hf _ ha => by rw [Expr.height, Expr.height, hf.height, ha.height]
  | _, _, .get ho _ => by rw [Expr.height, Expr.height, ho.height]
  | _, _, .set ho _ he => by rw [Expr.height, Expr.height, ho.height, he.height]
  | _, _, .receiver _ _ => by rw [Expr.height, Expr.height]

/-- The same of lists of expressions. -/
theorem Expr.AlikeList.height : ∀ {es es' : List Expr}, Expr.AlikeList R J es es' →
    Expr.heightList es' = Expr.heightList es
  | _, _, .nil => rfl
  | _, _, .cons he hs => by rw [Expr.heightList, Expr.heightList, he.height, hs.height]

end

theorem Expr.heightOption_rel {e e' : Option Expr} (h : Option.Rel (Expr.Alike R J) e e') :
    Expr.heightOption e' = Expr.heightOption e := by
  cases h with
  | none => rfl
  | some he => exact he.height

mutual

/-- Alike statements are of one height. -/
theorem Stmt.Alike.height : ∀ {s s' : Stmt}, s.Alike R J s' → s'.height = s.height
  | _, _, .expression he => by rw [Stmt.height, Stmt.height, he.height]
  | _, _, .print he => by rw [Stmt.height, Stmt.height, he.height]
  | _, _, .var _ hi => by rw [Stmt.height, Stmt.height, Expr.heightOption_rel hi]
  | _, _, .block hs => by rw [Stmt.height, Stmt.height, hs.height]
  | _, _, .ifThen he hs => by rw [Stmt.height, Stmt.height, he.height, hs.height]
  | _, _, .ifElse he hs ht => by
    rw [Stmt.height, Stmt.height, he.height, hs.height, ht.height]
  | _, _, .loop he hs => by rw [Stmt.height, Stmt.height, he.height, hs.height]
  | _, _, .function hf => by rw [Stmt.height, Stmt.height, hf.height]
  | _, _, .ret _ hv => by rw [Stmt.height, Stmt.height, Expr.heightOption_rel hv]
  | _, _, .classDecl _ hf => by rw [Stmt.height, Stmt.height, hf.height]

/-- The same of lists of statements. -/
theorem Stmt.AlikeList.height : ∀ {ss ss' : List Stmt}, Stmt.AlikeList R J ss ss' →
    Stmt.heightList ss' = Stmt.heightList ss
  | _, _, .nil => rfl
  | _, _, .cons hs hss => by rw [Stmt.heightList, Stmt.heightList, hs.height, hss.height]

/-- The same of functions. -/
theorem FunDecl.Alike.height : ∀ {f f' : FunDecl}, f.Alike R J f' → f'.height = f.height
  | _, _, .intro _ _ hb => by rw [FunDecl.height, FunDecl.height, hb.height]

theorem FunDecl.AlikeList.height : ∀ {fs fs' : List FunDecl}, FunDecl.AlikeList R J fs fs' →
    FunDecl.heightList fs' = FunDecl.heightList fs
  | _, _, .nil => rfl
  | _, _, .cons hf hs => by rw [FunDecl.heightList, FunDecl.heightList, hf.height, hs.height]

end

mutual

/-- What is alike to a statement without loops has none. -/
theorem Stmt.Alike.loopFree : ∀ {s s' : Stmt}, s.Alike R J s' → s'.loopFree = s.loopFree
  | _, _, .expression _ => by rw [Stmt.loopFree, Stmt.loopFree]
  | _, _, .print _ => by rw [Stmt.loopFree, Stmt.loopFree]
  | _, _, .var _ _ => by rw [Stmt.loopFree, Stmt.loopFree]
  | _, _, .block hs => by rw [Stmt.loopFree, Stmt.loopFree, hs.loopFree]
  | _, _, .ifThen _ hs => by rw [Stmt.loopFree, Stmt.loopFree, hs.loopFree]
  | _, _, .ifElse _ hs ht => by rw [Stmt.loopFree, Stmt.loopFree, hs.loopFree, ht.loopFree]
  | _, _, .loop _ _ => by rw [Stmt.loopFree, Stmt.loopFree]
  | _, _, .function hf => by rw [Stmt.loopFree, Stmt.loopFree, hf.loopFree]
  | _, _, .ret _ _ => by rw [Stmt.loopFree, Stmt.loopFree]
  | _, _, .classDecl _ hf => by rw [Stmt.loopFree, Stmt.loopFree, hf.loopFree]

/-- The same of lists of statements. -/
theorem Stmt.AlikeList.loopFree : ∀ {ss ss' : List Stmt}, Stmt.AlikeList R J ss ss' →
    Stmt.loopFreeList ss' = Stmt.loopFreeList ss
  | _, _, .nil => rfl
  | _, _, .cons hs hss => by
    rw [Stmt.loopFreeList, Stmt.loopFreeList, hs.loopFree, hss.loopFree]

/-- The same of functions. -/
theorem FunDecl.Alike.loopFree : ∀ {f f' : FunDecl}, f.Alike R J f' → f'.loopFree = f.loopFree
  | _, _, .intro _ _ hb => by rw [FunDecl.loopFree, FunDecl.loopFree, hb.loopFree]

theorem FunDecl.AlikeList.loopFree : ∀ {fs fs' : List FunDecl}, FunDecl.AlikeList R J fs fs' →
    FunDecl.loopFreeList fs' = FunDecl.loopFreeList fs
  | _, _, .nil => rfl
  | _, _, .cons hf hs => by
    rw [FunDecl.loopFreeList, FunDecl.loopFreeList, hf.loopFree, hs.loopFree]

end

end

/-! ## Low trees -/

/-- There are no loops, and no function is higher than the bound. -/
def TreeRules.low (bound : Nat) : TreeRules Unit where
  node _ _ := True
  name _ := True
  function f := f.height ≤ bound
  loops := False
  inner := id
  method k _ := k

section

variable {bound : Nat}

/-- No loop and no function stands in an expression. -/
theorem Expr.obeys_low (e : Expr) : e.Obeys (.low bound) () := fun _ _ => trivial

mutual

/-- In a statement without loops every function is at most as high as the statement may be. -/
theorem Stmt.obeys_low : ∀ {s : Stmt}, s.loopFree = true → s.height ≤ bound →
    s.Obeys (.low bound) ()
  | .expression e, _, _ => by rw [Stmt.Obeys]; exact e.obeys_low
  | .print e, _, _ => by rw [Stmt.Obeys]; exact e.obeys_low
  | .var _ _, _, _ => by rw [Stmt.Obeys]; exact ⟨trivial, fun e _ => e.obeys_low⟩
  | .block body, hl, hh => by
    rw [Stmt.loopFree] at hl
    rw [Stmt.height] at hh
    rw [Stmt.Obeys]
    exact Stmt.obeysList_low hl (by omega)
  | .branch cond thenB none, hl, hh => by
    rw [Stmt.loopFree] at hl
    rw [Stmt.height] at hh
    rw [Stmt.Obeys]
    exact ⟨cond.obeys_low, Stmt.obeys_low hl (by omega)⟩
  | .branch cond thenB (some elseB), hl, hh => by
    rw [Stmt.loopFree, Bool.and_eq_true] at hl
    rw [Stmt.height] at hh
    rw [Stmt.Obeys]
    exact ⟨cond.obeys_low, Stmt.obeys_low hl.1 (by omega), Stmt.obeys_low hl.2 (by omega)⟩
  | .loop _ _, hl, _ => by
    rw [Stmt.loopFree] at hl
    cases hl
  | .function decl, hl, hh => by
    rw [Stmt.loopFree] at hl
    rw [Stmt.height] at hh
    rw [Stmt.Obeys]
    exact ⟨trivial, FunDecl.obeys_low hl (by omega)⟩
  | .ret _ _, _, _ => by rw [Stmt.Obeys]; exact fun e _ => e.obeys_low
  | .classDecl _ methods, hl, hh => by
    rw [Stmt.loopFree] at hl
    rw [Stmt.height] at hh
    rw [Stmt.Obeys]
    exact ⟨trivial, FunDecl.obeysList_low hl (by omega)⟩

/-- The same of a list of statements. -/
theorem Stmt.obeysList_low : ∀ {ss : List Stmt}, Stmt.loopFreeList ss = true →
    Stmt.heightList ss ≤ bound → Stmt.ObeysList (.low bound) () ss
  | [], _, _ => by rw [Stmt.ObeysList]; trivial
  | _ :: _, hl, hh => by
    rw [Stmt.loopFreeList, Bool.and_eq_true] at hl
    rw [Stmt.heightList] at hh
    rw [Stmt.ObeysList]
    exact ⟨Stmt.obeys_low hl.1 (by omega), Stmt.obeysList_low hl.2 (by omega)⟩

/-- The same of a function. -/
theorem FunDecl.obeys_low : ∀ {f : FunDecl}, f.loopFree = true → f.height ≤ bound →
    f.Obeys (.low bound) ()
  | ⟨_, _, body⟩, hl, hh => by
    rw [FunDecl.loopFree] at hl
    rw [FunDecl.Obeys]
    refine ⟨hh, fun _ _ => trivial, ?_⟩
    rw [FunDecl.height] at hh
    exact Stmt.obeysList_low hl hh

theorem FunDecl.obeysList_low : ∀ {fs : List FunDecl}, FunDecl.loopFreeList fs = true →
    FunDecl.heightList fs ≤ bound → FunDecl.ObeysList (.low bound) () fs
  | [], _, _ => by rw [FunDecl.ObeysList]; trivial
  | _ :: _, hl, hh => by
    rw [FunDecl.loopFreeList, Bool.and_eq_true] at hl
    rw [FunDecl.heightList] at hh
    rw [FunDecl.ObeysList]
    exact ⟨FunDecl.obeys_low hl.1 (by omega), FunDecl.obeysList_low hl.2 (by omega)⟩

end

end

end Lox
