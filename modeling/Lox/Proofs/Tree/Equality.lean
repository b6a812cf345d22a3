/-
# Equality of trees

Trees hold lists of trees, so it takes a comparison of the lists beside that of the trees to decide
whether two of them are equal (`Expr.eqb`, `Stmt.eqb`). With it the trees that a concrete program is
parsed to can be told by evaluation.
-/

import Lox.Tree

namespace Lox

namespace Expr

mutual

/-- Compares two expressions part by part. -/
def eqb : Expr → Expr → Bool
  | literal a, literal b => a = b
  | grouping a, grouping b => a.eqb b
  | unary s a, unary t b => s = t && a.eqb b
  | binary a s c, binary b t d => a.eqb b && s = t && c.eqb d
  | logical a s c, logical b t d => a.eqb b && s = t && c.eqb d
  | ident i s, ident j t => i = j && s = t
  | assign i s a, assign j t b => i = j && s = t && a.eqb b
  | call a s as, call b t bs => a.eqb b && s = t && eqbList as bs
  | get a s, get b t => a.eqb b && s = t
  | set a s c, set b t d => a.eqb b && s = t && c.eqb d
  | receiver i s, receiver j t => i = j && s = t
  | _, _ => false

/-- Compares two lists of expressions. -/
def eqbList : List Expr → List Expr → Bool
  | [], [] => true
  | a :: as, b :: bs => a.eqb b && eqbList as bs
  | _, _ => false

end

mutual

/-- The comparison of expressions decides their equality. -/
theorem eqb_iff : ∀ {a b : Expr}, a.eqb b = true ↔ a = b
  | literal _, b => by cases b <;> simp [eqb]
  | grouping a, b | unary _ a, b | get a _, b => by
    have ha : ∀ b, a.eqb b = true ↔ a = b := fun _ => eqb_iff
    cases b <;> simp [eqb, ha]
  | assign _ _ a, b => by
    have ha : ∀ b, a.eqb b = true ↔ a = b := fun _ => eqb_iff
    cases b <;> simp [eqb, ha, and_assoc]
  | binary a _ c, b | logical a _ c, b | set a _ c, b => by
    have ha : ∀ b, a.eqb b = true ↔ a = b := fun _ => eqb_iff
    have hc : ∀ b, c.eqb b = true ↔ c = b := fun _ => eqb_iff
    cases b <;> simp [eqb, ha, hc, and_assoc]
  | ident _ _, b | receiver _ _, b => by cases b <;> simp [eqb]
  | call a _ as, b => by
    have ha : ∀ b, a.eqb b = true ↔ a = b := fun _ => eqb_iff
    have has : ∀ bs, eqbList as bs = true ↔ as = bs := fun _ => eqbList_iff
    cases b <;> simp [eqb, ha, has, and_assoc]

/-- The same of lists of expressions. -/
theorem eqbList_iff : ∀ {as bs : List Expr}, eqbList as bs = true ↔ as = bs
  | [], bs => by cases bs <;> simp [eqbList]
  | a :: as, bs => by
    have ha : ∀ b, a.eqb b = true ↔ a = b := fun _ => eqb_iff
    have has : ∀ bs, eqbList as bs = true ↔ as = bs := fun _ => eqbList_iff
    cases bs <;> simp [eqbList, ha, has]

end

instance : DecidableEq Expr := fun _ _ => decidable_of_iff _ eqb_iff

end Expr

mutual

/-- Compares two statements part by part. -/
def Stmt.eqb : Stmt → Stmt → Bool
  | .expression a, .expression b => a = b
  | .print a, .print b => a = b
  | .var s a, .var t b => s = t && a = b
  | .block as, .block bs => Stmt.eqbList as bs
  | .branch c a none, .branch d b none => c = d && a.eqb b
  | .branch c a (some x), .branch d b (some y) => c = d && a.eqb b && x.eqb y
  | .loop c a, .loop d b => c = d && a.eqb b
  | .function f, .function g => f.eqb g
  | .ret s a, .ret t b => s = t && a = b
  | .classDecl s fs, .classDecl t gs => s = t && FunDecl.eqbList fs gs
  | _, _ => false

/-- Compares two lists of statements. -/
def Stmt.eqbList : List Stmt → List Stmt → Bool
  | [], [] => true
  | a :: as, b :: bs => a.eqb b && Stmt.eqbList as bs
  | _, _ => false

/-- Compares two functions part by part. -/
def FunDecl.eqb : FunDecl → FunDecl → Bool
  | ⟨s, ps, as⟩, ⟨t, qs, bs⟩ => s = t && ps = qs && Stmt.eqbList as bs

/-- Compares two lists of functions. -/
def FunDecl.eqbList : List FunDecl → List FunDecl → Bool
  | [], [] => true
  | f :: fs, g :: gs => f.eqb g && FunDecl.eqbList fs gs
  | _, _ => false

end

mutual

/-- The comparison of statements decides their equality. -/
theorem Stmt.eqb_iff : ∀ {a b : Stmt}, a.eqb b = true ↔ a = b
  | .expression _, b | .print _, b | .var _ _, b | .ret _ _, b => by cases b <;> simp [Stmt.eqb]
  | .block as, b => by
    have has : ∀ bs, Stmt.eqbList as bs = true ↔ as = bs := fun _ => Stmt.eqbList_iff
    cases b <;> simp [Stmt.eqb, has]
  | .branch c a none, b => by
    have ha : ∀ b, a.eqb b = true ↔ a = b := fun _ => Stmt.eqb_iff
    rcases b with _ | _ | _ | _ | ⟨d, b, _ | y⟩ | _ | _ | _ | _ <;> simp [Stmt.eqb, ha]
  | .branch c a (some x), b => by
    have ha : ∀ b, a.eqb b = true ↔ a = b := fun _ => Stmt.eqb_iff
    have hx : ∀ b, x.eqb b = true ↔ x = b := fun _ => Stmt.eqb_iff
    rcases b with _ | _ | _ | _ | ⟨d, b, _ | y⟩ | _ | _ | _ | _ <;>
      simp [Stmt.eqb, ha, hx, and_assoc]
  | .loop _ a, b => by
    have ha : ∀ b, a.eqb b = true ↔ a = b := fun _ => Stmt.eqb_iff
    cases b <;> simp [Stmt.eqb, ha]
  | .function f, b => by
    have hf : ∀ g, f.eqb g = true ↔ f = g := fun _ => FunDecl.eqb_iff
    cases b <;> simp [Stmt.eqb, hf]
  | .classDecl _ fs, b => by
    have hf : ∀ gs, FunDecl.eqbList fs gs = true ↔ fs = gs := fun _ => FunDecl.eqbList_iff
    cases b <;> simp [Stmt.eqb, hf]

/-- The same of lists of statements. -/
theorem Stmt.eqbList_iff : ∀ {as bs : List Stmt}, Stmt.eqbList as bs = true ↔ as = bs
  | [], bs => by cases bs <;> simp [Stmt.eqbList]
  | a :: as, bs => by
    have ha : ∀ b, a.eqb b = true ↔ a = b := fun _ => Stmt.eqb_iff
    have has : ∀ bs, Stmt.eqbList as bs = true ↔ as = bs := fun _ => Stmt.eqbList_iff
    cases bs <;> simp [Stmt.eqbList, ha, has]

/-- The comparison of functions decides their equality. -/
theorem FunDecl.eqb_iff : ∀ {f g : FunDecl}, f.eqb g = true ↔ f = g
  | ⟨_, _, as⟩, ⟨_, _, _⟩ => by
    have has : ∀ bs, Stmt.eqbList as bs = true ↔ as = bs := fun _ => Stmt.eqbList_iff
    simp [FunDecl.eqb, has, and_assoc]

theorem FunDecl.eqbList_iff : ∀ {fs gs : List FunDecl}, FunDecl.eqbList fs gs = true ↔ fs = gs
  | [], gs => by cases gs <;> simp [FunDecl.eqbList]
  | f :: fs, gs => by
    have hf : ∀ g, f.eqb g = true ↔ f = g := fun _ => FunDecl.eqb_iff
    have hfs : ∀ gs, FunDecl.eqbList fs gs = true ↔ fs = gs := fun _ => FunDecl.eqbList_iff
    cases gs <;> simp [FunDecl.eqbList, hf, hfs]

end

instance : DecidableEq Stmt := fun _ _ => decidable_of_iff _ Stmt.eqb_iff

end Lox
