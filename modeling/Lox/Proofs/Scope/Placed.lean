/-
# Names in their places

What a table of distances has to say about a tree for the tree to run as it is written: for each
node that uses a name, how many scopes out from it the name is declared (`Stmt.Placed`). It is said
of the tree and of the scopes around it, without the walk that fills the table, and of a set of
tables at once, because a table grows while the functions it served are still there. A variable is
in scope in its own initializer, but not yet to be used there; whether assignments count as uses is
what `strict` tells.
-/

import Lox.Proofs.Heap.Growth
import Lox.Proofs.Tree.Formed
import Lox.Scope
import Lox.Tree.Names

namespace Lox

/-- Of two values for one name the second one stays. -/
theorem Bindings.insert_insert {α : Type} (b : Bindings α) (name : String) (x y : α) :
    (b.insert name x).insert name y = b.insert name y := by
  have put_put : ∀ es : List (String × α), put name y (put name x es) = put name y es := by
    intro es
    induction es with
    | nil => simp [put]
    | cons entry rest ih =>
      obtain ⟨n, old⟩ := entry
      by_cases h : n = name <;> simp [put, h, ih]
  exact congrArg Bindings.mk (put_put b.entries)

namespace Scope

/-- Scopes around a node, innermost first. -/
abbrev Scopes := List (Bindings Status)

namespace Scopes

/-- How many scopes out a name is declared. -/
def distance? (scopes : Scopes) (name : String) : Option Nat :=
  scopes.findIdx? fun scope => scope.contains name

/-- The innermost scope has the name declared and not yet defined. -/
def Pending : Scopes → String → Prop
  | [], _ => False
  | scope :: _, name => scope.get? name = some .declared

/-- The innermost scope, if there is one, with a name put into it. -/
def put (name : String) (status : Status) : Scopes → Scopes
  | [] => []
  | scope :: outer => scope.insert name status :: outer

/-- The innermost scope does not have the name. -/
def Lacks : Scopes → String → Prop
  | [], _ => True
  | scope :: _, name => scope.contains name = false

/-- No name of the innermost scope is waiting for its definition. -/
def Settled (scopes : Scopes) : Prop := ∀ name, ¬ scopes.Pending name

/-- Of two ways to put a name into a scope the second one stays. -/
theorem put_put (scopes : Scopes) (name : String) (x y : Status) :
    (scopes.put name x).put name y = scopes.put name y := by
  cases scopes with
  | nil => rfl
  | cons scope outer => rw [put, put, put, Bindings.insert_insert]

/-- Outside of all scopes nothing is waiting. -/
theorem Settled.nil : Settled [] := fun _ h => h

/-- In a new scope nothing is waiting. -/
theorem Settled.empty (scopes : Scopes) : Settled (∅ :: scopes) := fun name h => by
  simp [Pending] at h

/-- Nothing is waiting when a name is defined. -/
theorem Settled.put {scopes : Scopes} (h : scopes.Settled) (name : String) :
    (scopes.put name .defined).Settled := by
  cases scopes with
  | nil => exact .nil
  | cons scope outer =>
    intro n hn
    simp only [Pending, Scopes.put, Bindings.get?_insert] at hn
    split at hn
    · cases hn
    · exact h n hn

/-- While a variable waits for its initializer, it is the only one that does. -/
theorem Settled.pending_put {scopes : Scopes} (h : scopes.Settled) {name n : String}
    (hn : (scopes.put name .declared).Pending n) : n = name ∧ scopes ≠ [] := by
  cases scopes with
  | nil => exact hn.elim
  | cons scope outer =>
    refine ⟨?_, by simp⟩
    simp only [Pending, Scopes.put, Bindings.get?_insert] at hn
    split at hn
    · exact Eq.symm ‹_›
    · exact absurd hn (h n)

end Scopes

/-- The scope of the parameters of a function. -/
def ofParams (params : List Token) : Bindings Status :=
  (∅ : Bindings Status).insertMany (params.map fun p => (p.lexeme, .defined))

/-- Parameters are not waiting for a definition. -/
theorem Scopes.Settled.ofParams (params : List Token) (outer : Scopes) :
    Settled (ofParams params :: outer) := by
  have introduced : ∀ (params : List Token) (scope : Bindings Status), Settled (scope :: outer) →
      Settled (scope.insertMany (params.map fun p => (p.lexeme, .defined)) :: outer) := by
    intro params
    induction params with
    | nil => exact fun _ h => h
    | cons p params ih => exact fun scope h => ih _ (h.put p.lexeme)
  exact introduced params ∅ (.empty outer)

/-- The parameters are the names that a call binds. -/
theorem contains_ofParams {params : List Token} {args : List Value}
    (h : args.length = params.length) (n : String) : (ofParams params).contains n =
      ((∅ : Bindings Value).insertMany ((params.map (·.lexeme)).zip args)).contains n := by
  rw [Bool.eq_iff_iff, ofParams, Bindings.contains_insertMany, Bindings.contains_insertMany]
  refine or_congr Iff.rfl ⟨?_, ?_⟩
  · rintro ⟨st, hn⟩
    obtain ⟨p, hp, hpn⟩ := List.mem_map.1 hn
    cases hpn
    obtain ⟨i, hi, rfl⟩ := List.getElem_of_mem hp
    refine ⟨args[i], List.mem_iff_getElem.2 ⟨i, ?_, ?_⟩⟩
    · simp [h, hi]
    · simp
  · rintro ⟨v, hn⟩
    obtain ⟨p, hp, hpn⟩ := List.mem_map.1 (List.of_mem_zip hn).1
    exact ⟨.defined, List.mem_map.2 ⟨p, hp, by rw [hpn]⟩⟩

/-- The frame of a call binds the parameters, if there are as many arguments. -/
theorem ofParams_within {params : List Token} {args : List Value}
    (h : args.length = params.length) : (ofParams params).Within
      ((∅ : Bindings Value).insertMany ((params.map (·.lexeme)).zip args)) :=
  fun n hn => contains_ofParams h n ▸ hn

end Scope

open Scope (Scopes)

/-- The scopes behind a statement. -/
def Stmt.scopesAfter : Stmt → Scopes → Scopes
  | .var name _, scopes => scopes.put name.lexeme .defined
  | .function decl, scopes => scopes.put decl.name.lexeme .defined
  | .classDecl name _, scopes => scopes.put name.lexeme .defined
  | _, scopes => scopes

/-- Behind a statement that declares nothing the scopes are as before. -/
theorem Stmt.scopesAfter_plain {s : Stmt} (h : s.declares = false) (scopes : Scopes) :
    s.scopesAfter scopes = scopes := by
  cases s <;> first | rfl | cases h

/-- There are no scopes behind a statement outside of all scopes. -/
theorem Stmt.scopesAfter_nil (s : Stmt) : s.scopesAfter [] = [] := by cases s <;> rfl

/-- A statement leaves the scopes around the innermost one. -/
theorem Stmt.tail_scopesAfter (s : Stmt) (scopes : Scopes) :
    (s.scopesAfter scopes).tail = scopes.tail := by
  cases s <;> cases scopes <;> rfl

/-- Nothing is waiting behind a statement. -/
theorem Scope.Scopes.Settled.scopesAfter {scopes : Scopes} (h : scopes.Settled) (s : Stmt) :
    (s.scopesAfter scopes).Settled := by
  cases s <;> first | exact h | exact h.put _

section Placed

variable (strict : Bool) (T : Distances → Prop)

/-- The tables have the distance of the node's name, and the name is ready to be used. -/
structure NameNode.Placed (scopes : Scopes) (node : NameNode) : Prop where
  distance : ∀ D, T D → D.get? node.id = scopes.distance? node.name.lexeme
  ready : (node.use = .write → strict = true) → ¬ scopes.Pending node.name.lexeme

/-- The names of the expression are in their places. -/
def Expr.Placed (scopes : Scopes) (e : Expr) : Prop :=
  ∀ node ∈ e.names, node.Placed strict T scopes

mutual

/-- The names of the statement are in their places, and it declares nothing twice. -/
def Stmt.Placed : Stmt → Scopes → Prop
  | .expression e, scopes => e.Placed strict T scopes
  | .print e, scopes => e.Placed strict T scopes
  | .var name init, scopes =>
    scopes.Lacks name.lexeme ∧
      ∀ e ∈ init, e.Placed strict T (scopes.put name.lexeme .declared)
  | .block body, scopes => Stmt.PlacedList body (∅ :: scopes)
  | .branch cond thenB none, scopes =>
    cond.Placed strict T scopes ∧ thenB.declares = false ∧ thenB.Placed scopes
  | .branch cond thenB (some elseB), scopes =>
    cond.Placed strict T scopes ∧ (thenB.declares = false ∧ thenB.Placed scopes) ∧
      elseB.declares = false ∧ elseB.Placed scopes
  | .loop cond body, scopes =>
    cond.Placed strict T scopes ∧ body.declares = false ∧ body.Placed scopes
  | .function decl, scopes =>
    scopes.Lacks decl.name.lexeme ∧ decl.Placed (scopes.put decl.name.lexeme .defined)
  | .ret _ value, scopes => ∀ e ∈ value, e.Placed strict T scopes
  | .classDecl name methods, scopes =>
    scopes.Lacks name.lexeme ∧
      FunDecl.PlacedList methods (Scope.ofClass :: scopes.put name.lexeme .defined)

/-- The names of the statements are in their places, one statement after the other. -/
def Stmt.PlacedList : List Stmt → Scopes → Prop
  | [], _ => True
  | s :: ss, scopes => s.Placed scopes ∧ Stmt.PlacedList ss (s.scopesAfter scopes)

/-- The names of the function's body are in their places. -/
def FunDecl.Placed : FunDecl → Scopes → Prop
  | ⟨_, params, body⟩, scopes => Stmt.PlacedList body (Scope.ofParams params :: scopes)

/-- The names of the functions' bodies are in their places. -/
def FunDecl.PlacedList : List FunDecl → Scopes → Prop
  | [], _ => True
  | f :: fs, scopes => f.Placed scopes ∧ FunDecl.PlacedList fs scopes

end

/-- The tables have the distances of the names that the expression uses. -/
def Expr.Located (scopes : Scopes) (e : Expr) : Prop :=
  ∀ node ∈ e.names, (node.use = .write → strict = true) →
    ∀ D, T D → D.get? node.id = scopes.distance? node.name.lexeme

variable {strict T}

/-- Names in their places are located. -/
theorem Expr.Placed.located {scopes : Scopes} {e : Expr} (h : e.Placed strict T scopes) :
    e.Located strict T scopes := fun node hn _ => (h node hn).distance

/-- In its own initializer a variable is not used, so that the scopes are those from before it was
declared. -/
theorem Expr.Placed.located_initializer {scopes : Scopes} {name : String} {e : Expr}
    (h : e.Placed strict T (scopes.put name .declared)) : e.Located strict T scopes := by
  intro node hn hu D hD
  rw [(h node hn).distance D hD]
  have ready := (h node hn).ready hu
  cases scopes with
  | nil => rfl
  | cons scope outer =>
    have hne : name ≠ node.name.lexeme := by
      rintro rfl
      exact ready (by simp [Scopes.put, Scopes.Pending])
    simp [Scopes.distance?, Scopes.put, List.findIdx?_cons, hne]

/-- The methods of a class are in their places if each of them is. -/
theorem FunDecl.placedList_iff {scopes : Scopes} {fs : List FunDecl} :
    FunDecl.PlacedList strict T fs scopes ↔ ∀ f ∈ fs, f.Placed strict T scopes := by
  induction fs with
  | nil => simp [FunDecl.PlacedList]
  | cons f fs ih => simp [FunDecl.PlacedList, ih]

variable {T' : Distances → Prop}

/-- An expression in its place by some tables is so by fewer of them. -/
theorem Expr.Placed.mono (hT : ∀ D, T' D → T D) {scopes : Scopes} {e : Expr}
    (h : e.Placed strict T scopes) : e.Placed strict T' scopes := fun node hn =>
  ⟨fun D hD => (h node hn).distance D (hT D hD), (h node hn).ready⟩

mutual

/-- A statement in its place by some tables is so by fewer of them. -/
theorem Stmt.Placed.mono (hT : ∀ D, T' D → T D) : ∀ {s : Stmt} {scopes : Scopes},
    s.Placed strict T scopes → s.Placed strict T' scopes
  | .expression _, _, h | .print _, _, h => by
    rw [Stmt.Placed] at h ⊢
    exact Expr.Placed.mono hT h
  | .var _ _, _, h => by
    rw [Stmt.Placed] at h ⊢
    exact ⟨h.1, fun e he => (h.2 e he).mono hT⟩
  | .block _, _, h => by
    rw [Stmt.Placed] at h ⊢
    exact Stmt.PlacedList.mono hT h
  | .branch _ _ none, _, h => by
    rw [Stmt.Placed] at h ⊢
    exact ⟨h.1.mono hT, h.2.1, Stmt.Placed.mono hT h.2.2⟩
  | .branch _ _ (some _), _, h => by
    rw [Stmt.Placed] at h ⊢
    exact ⟨h.1.mono hT, ⟨h.2.1.1, Stmt.Placed.mono hT h.2.1.2⟩, h.2.2.1,
      Stmt.Placed.mono hT h.2.2.2⟩
  | .loop _ _, _, h => by
    rw [Stmt.Placed] at h ⊢
    exact ⟨h.1.mono hT, h.2.1, Stmt.Placed.mono hT h.2.2⟩
  | .function _, _, h => by
    rw [Stmt.Placed] at h ⊢
    exact ⟨h.1, FunDecl.Placed.mono hT h.2⟩
  | .ret _ _, _, h => by
    rw [Stmt.Placed] at h ⊢
    exact fun e he => (h e he).mono hT
  | .classDecl _ _, _, h => by
    rw [Stmt.Placed] at h ⊢
    exact ⟨h.1, FunDecl.PlacedList.mono hT h.2⟩

/-- The same of a list of statements. -/
theorem Stmt.PlacedList.mono (hT : ∀ D, T' D → T D) : ∀ {ss : List Stmt} {scopes : Scopes},
    Stmt.PlacedList strict T ss scopes → Stmt.PlacedList strict T' ss scopes
  | [], _, _ => by rw [Stmt.PlacedList]; trivial
  | _ :: _, _, h => by
    rw [Stmt.PlacedList] at h ⊢
    exact ⟨Stmt.Placed.mono hT h.1, Stmt.PlacedList.mono hT h.2⟩

/-- The same of a function. -/
theorem FunDecl.Placed.mono (hT : ∀ D, T' D → T D) : ∀ {f : FunDecl} {scopes : Scopes},
    f.Placed strict T scopes → f.Placed strict T' scopes
  | ⟨_, _, _⟩, _, h => by
    rw [FunDecl.Placed] at h ⊢
    exact Stmt.PlacedList.mono hT h

/-- The same of methods. -/
theorem FunDecl.PlacedList.mono (hT : ∀ D, T' D → T D) : ∀ {fs : List FunDecl} {scopes : Scopes},
    FunDecl.PlacedList strict T fs scopes → FunDecl.PlacedList strict T' fs scopes
  | [], _, _ => by rw [FunDecl.PlacedList]; trivial
  | _ :: _, _, h => by
    rw [FunDecl.PlacedList] at h ⊢
    exact ⟨FunDecl.Placed.mono hT h.1, FunDecl.PlacedList.mono hT h.2⟩

end

end Placed

end Lox
