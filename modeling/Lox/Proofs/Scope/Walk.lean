/-
# The walk over scopes

What one walk does to another's findings: it adds violations and never takes one back, and it writes
only the entries of its own nodes (`Scope.Walk.Extends`). Over an expression it leaves the scopes as
they are and finds the distance of every name (`Expr.resolve_locates`).
-/

import Lox.Proofs.Scope.Placed
import Lox.Proofs.Tree.Ids

namespace Lox

open Scope (Scopes Walk)

/-- An entry is found under its number, and the others are as before. -/
theorem Distances.get?_insert (D : Distances) (id n : NodeId) (d : Nat) :
    (D.insert id d).get? n = if id = n then some d else D.get? n := by
  simp [Std.TreeMap.get?_eq_getElem?, Std.TreeMap.getElem?_insert]

namespace Scope.Walk

/-- `w'` comes from `w` by a walk over nodes with the given numbers. -/
structure Extends (ids : List NodeId) (w w' : Walk) : Prop where
  violations : w.violations.length ≤ w'.violations.length
  distances : ∀ id, id ∉ ids → w'.distances.get? id = w.distances.get? id

/-- The numbers are all different, and the walk has not met them yet. -/
structure New (ids : List NodeId) (w : Walk) : Prop where
  nodup : ids.Nodup
  absent : ∀ id ∈ ids, w.distances.get? id = none

section

variable {ids ids' : List NodeId} {w w' w'' : Walk}

/-- A walk over nothing changes nothing. -/
theorem Extends.refl (w : Walk) : w.Extends ids w := ⟨Nat.le_refl _, fun _ _ => rfl⟩

/-- Walks one behind the other are one over the nodes of both. -/
theorem Extends.trans (h : w.Extends ids w') (h' : w'.Extends ids' w'') :
    w.Extends (ids ++ ids') w'' := by
  refine ⟨Nat.le_trans h.violations h'.violations, fun id hid => ?_⟩
  rw [List.mem_append, not_or] at hid
  rw [h'.distances id hid.2, h.distances id hid.1]

/-- The order of the nodes does not matter. -/
theorem Extends.perm (h : w.Extends ids w') (hp : ids.Perm ids') : w.Extends ids' w' :=
  ⟨h.violations, fun id hid => h.distances id fun hm => hid (hp.subset hm)⟩

/-- To enter a scope and leave it changes nothing besides. -/
theorem Extends.inside {scope : Bindings Status} (h : (w.enter scope).Extends ids w') :
    w.Extends ids w'.leave := ⟨h.violations, h.distances⟩

/-- The order of new numbers does not matter. -/
theorem New.perm (h : w.New ids) (hp : ids.Perm ids') : w.New ids' :=
  ⟨hp.nodup_iff.1 h.nodup, fun id hid => h.absent id (hp.symm.subset hid)⟩

/-- The first of new numbers are new. -/
theorem New.left (h : w.New (ids ++ ids')) : w.New ids :=
  ⟨(List.nodup_append.1 h.nodup).1, fun id hid => h.absent id (List.mem_append_left _ hid)⟩

/-- New numbers in two parts are in one of them only. -/
theorem New.disjoint (h : w.New (ids ++ ids')) {id : NodeId} (hid : id ∈ ids) : id ∉ ids' :=
  fun hid' => (List.nodup_append.1 h.nodup).2.2 id hid id hid' rfl

/-- Behind a walk over the first of new numbers the others are new. -/
theorem New.right (h : w.New (ids ++ ids')) (he : w.Extends ids w') : w'.New ids' := by
  refine ⟨(List.nodup_append.1 h.nodup).2.1, fun id hid => ?_⟩
  rw [he.distances id fun hm => h.disjoint hm hid]
  exact h.absent id (List.mem_append_right _ hid)

end

/-- `w'` comes from `w` by a walk that met no violation, over nodes with new numbers, and the tables
have what it found. -/
structure Settles (T : Distances → Prop) (ids : List NodeId) (w w' : Walk) : Prop where
  quiet : w'.violations.length = w.violations.length
  new : w.New ids
  known : ∀ D, T D → ∀ id ∈ ids, D.get? id = w'.distances.get? id

namespace Settles

variable {T : Distances → Prop} {ids ids' : List NodeId} {w w' w'' : Walk}

/-- The first of two walks met no violation if both met none. -/
theorem left (h : w.Settles T (ids ++ ids') w'') (e : w.Extends ids w')
    (e' : w'.Extends ids' w'') : w.Settles T ids w' := by
  refine ⟨?_, h.new.left, fun D hD id hid => ?_⟩
  · have := h.quiet
    have := e.violations
    have := e'.violations
    omega
  · rw [h.known D hD id (List.mem_append_left _ hid), e'.distances id (h.new.disjoint hid)]

/-- So did the second. -/
theorem right (h : w.Settles T (ids ++ ids') w'') (e : w.Extends ids w')
    (e' : w'.Extends ids' w'') : w'.Settles T ids' w'' := by
  refine ⟨?_, h.new.right e, fun D hD id hid => h.known D hD id (List.mem_append_right _ hid)⟩
  have := h.quiet
  have := e.violations
  have := e'.violations
  omega

/-- So did the walk inside a scope that was entered and left. -/
theorem inside {scope : Bindings Status} (h : w.Settles T ids w'.leave) :
    (w.enter scope).Settles T ids w' := ⟨h.quiet, ⟨h.new.nodup, h.new.absent⟩, h.known⟩

end Settles

variable {w : Walk}

/-- To note a violation meets no nodes. -/
theorem blame_extends (cause : Cause) (token : Token) : w.Extends [] (w.blame cause token) :=
  ⟨by simp [blame], fun _ _ => rfl⟩

/-- To locate a name meets its node. -/
theorem locate_extends (id : NodeId) (name : Token) : w.Extends [id] (w.locate id name) := by
  unfold locate
  split
  · refine ⟨Nat.le_refl _, fun n hn => ?_⟩
    rw [List.mem_singleton] at hn
    rw [Distances.get?_insert, if_neg (Ne.symm hn)]
  · exact .refl w

/-- To locate a name leaves the scopes. -/
theorem locate_scopes (id : NodeId) (name : Token) : (w.locate id name).scopes = w.scopes := by
  unfold locate
  split <;> rfl

/-- The node of a name is given the distance of the name. -/
theorem locate_distance {id : NodeId} (name : Token) (h : w.distances.get? id = none) :
    (w.locate id name).distances.get? id = Scopes.distance? w.scopes name.lexeme := by
  unfold locate
  split
  · rename_i d hd
    rw [Distances.get?_insert, if_pos rfl]
    exact hd.symm
  · rename_i hd
    rw [h]
    exact hd.symm

/-- A name is pending if the innermost scope has it declared only. -/
theorem isPending_iff (name : String) :
    w.isPending name = true ↔ Scopes.Pending w.scopes name := by
  unfold isPending Scopes.Pending
  split <;> simp_all

/-- A declaration meets no nodes. -/
theorem declare_extends (name : Token) : w.Extends [] (w.declare name) := by
  unfold declare
  split
  · exact .refl w
  · split
    · exact blame_extends ..
    · exact ⟨Nat.le_refl _, fun _ _ => rfl⟩

/-- A declaration that is no violation puts a new name into the innermost scope. -/
theorem declare_ok {name : Token}
    (h : (w.declare name).violations.length = w.violations.length) :
    Scopes.Lacks w.scopes name.lexeme ∧
      (w.declare name).scopes = Scopes.put name.lexeme .declared w.scopes := by
  unfold declare at h ⊢
  split at h
  · rename_i hs
    simp [hs, Scopes.Lacks, Scopes.put]
  · rename_i scope outer hs
    split at h
    · simp [blame] at h
    · rename_i hc
      simp [hs, hc, Scopes.Lacks, Scopes.put]

/-- The end of a declaration meets no nodes. -/
theorem define_extends (name : Token) : w.Extends [] (w.define name) := by
  unfold define
  split
  · exact .refl w
  · exact ⟨Nat.le_refl _, fun _ _ => rfl⟩

/-- The end of a declaration is no violation. -/
theorem define_violations (name : Token) : (w.define name).violations = w.violations := by
  unfold define
  split <;> rfl

/-- The end of a declaration makes no entry. -/
theorem define_distances (name : Token) : (w.define name).distances = w.distances := by
  unfold define
  split <;> rfl

/-- The end of a declaration defines the name in the innermost scope. -/
theorem define_scopes (name : Token) :
    (w.define name).scopes = Scopes.put name.lexeme .defined w.scopes := by
  unfold define
  split <;> simp_all [Scopes.put]

/-- The end of a declaration has nothing to do with what a walk settles. -/
theorem Settles.of_define {T : Distances → Prop} {ids : List NodeId} {w' : Walk} {name : Token}
    (h : w.Settles T ids (w'.define name)) : w.Settles T ids w' :=
  ⟨define_violations (w := w') name ▸ h.quiet, h.new, define_distances (w := w') name ▸ h.known⟩

/-- A whole declaration meets no nodes. -/
theorem define_declare_extends (name : Token) : w.Extends [] ((w.declare name).define name) :=
  (declare_extends name).trans (define_extends name)

/-- A name that is declared and defined at once never waits in its scope. -/
theorem define_declare_ok {name : Token}
    (h : ((w.declare name).define name).violations.length = w.violations.length) :
    Scopes.Lacks w.scopes name.lexeme ∧
      ((w.declare name).define name).scopes = Scopes.put name.lexeme .defined w.scopes := by
  rw [define_violations] at h
  obtain ⟨hlacks, hscopes⟩ := declare_ok h
  exact ⟨hlacks, by rw [define_scopes, hscopes, Scopes.put_put]⟩

/-- To introduce parameters meets no nodes. -/
theorem introduce_extends : ∀ (names : List Token) {w : Walk}, w.Extends [] (w.introduce names)
  | [], w => .refl w
  | name :: names, _ => (define_declare_extends name).trans (introduce_extends names)

/-- Parameters that are no violation are put into the innermost scope, all of them defined. -/
theorem introduce_ok : ∀ (names : List Token) {w : Walk} {scope : Bindings Status}
    {outer : Scopes}, w.scopes = scope :: outer →
    (w.introduce names).violations.length = w.violations.length →
    (w.introduce names).scopes =
      scope.insertMany (names.map fun p => (p.lexeme, .defined)) :: outer
  | [], _, _, _, hs, _ => hs
  | name :: names, w, scope, outer, hs, h => by
    have h₁ := (define_declare_extends (w := w) name).violations
    have h₂ := (introduce_extends names (w := (w.declare name).define name)).violations
    rw [introduce] at h
    have hq : ((w.declare name).define name).violations.length = w.violations.length := by omega
    have hs' : ((w.declare name).define name).scopes =
        scope.insert name.lexeme .defined :: outer := by
      rw [(define_declare_ok hq).2, hs, Scopes.put]
    rw [introduce, introduce_ok names hs' (h.trans hq.symm)]
    rfl

/-- `w'` comes from `w` by a walk over nodes that stand in its scopes. -/
structure Locates (nodes : List NameNode) (w w' : Walk) : Prop where
  scopes : w'.scopes = w.scopes
  past : w.Extends (nodes.map NameNode.id) w'
  located : w'.violations.length = w.violations.length → w.New (nodes.map NameNode.id) →
    ∀ node ∈ nodes, w'.distances.get? node.id = Scopes.distance? w.scopes node.name.lexeme ∧
      (node.use = .read → ¬ Scopes.Pending w.scopes node.name.lexeme)

namespace Locates

variable {nodes nodes' : List NameNode} {w w' w'' : Walk}

/-- A walk over nothing locates nothing. -/
theorem refl (w : Walk) : w.Locates [] w := ⟨rfl, .refl w, fun _ _ _ h => by cases h⟩

/-- Walks one behind the other locate the nodes of both. -/
theorem trans (h : w.Locates nodes w') (h' : w'.Locates nodes' w'') :
    w.Locates (nodes ++ nodes') w'' := by
  refine ⟨h'.scopes.trans h.scopes, ?_, fun hv hn node hm => ?_⟩
  · rw [List.map_append]
    exact h.past.trans h'.past
  · rw [List.map_append] at hn
    have hv₁ := h.past.violations
    have hv₂ := h'.past.violations
    rcases List.mem_append.1 hm with hm | hm
    · rw [h'.past.distances _ (hn.disjoint (List.mem_map_of_mem hm))]
      exact h.located (by omega) hn.left node hm
    · rw [← h.scopes]
      exact h'.located (by omega) (hn.right h.past) node hm

/-- The order of the nodes does not matter. -/
theorem perm (h : w.Locates nodes w') (hp : nodes.Perm nodes') : w.Locates nodes' w' :=
  ⟨h.scopes, h.past.perm (hp.map _), fun hv hn node hm =>
    h.located hv (hn.perm (hp.map _).symm) node (hp.symm.subset hm)⟩

end Locates

/-- To locate a name that is not pending, or is not read, puts its node in its place. -/
theorem locate_locates (use : NameUse) (id : NodeId) (name : Token)
    (h : use = .read → ¬ Scopes.Pending w.scopes name.lexeme) :
    w.Locates [⟨use, id, name⟩] (w.locate id name) := by
  refine ⟨locate_scopes .., locate_extends .., fun _ hn node hm => ?_⟩
  rw [List.mem_singleton.1 hm]
  exact ⟨locate_distance name (hn.absent id (by simp)), h⟩

/-- A step that notes a violation locates whatever it likes. -/
theorem Locates.of_blame {nodes : List NameNode} {w' : Walk} {cause : Cause} {token : Token}
    (hs : w'.scopes = w.scopes) (h : (w.blame cause token).Extends (nodes.map NameNode.id) w') :
    w.Locates nodes w' := by
  have hv := h.violations
  simp only [blame, List.length_append, List.length_singleton] at hv
  exact ⟨hs, ⟨by omega, h.distances⟩, fun hv' => by omega⟩

end Scope.Walk

/-! ## Expressions -/

namespace Expr

open Scope.Walk

mutual

/-- The walk over an expression locates its names. -/
theorem resolve_locates (inClass : Bool) : ∀ (e : Expr) (w : Walk),
    w.Locates e.names (e.resolve inClass w)
  | .literal _, w => by
    rw [names, resolve]
    exact .refl w
  | .grouping inner, w => by
    rw [names, resolve]
    exact inner.resolve_locates inClass w
  | .unary _ operand, w => by
    rw [names, resolve]
    exact operand.resolve_locates inClass w
  | .binary left _ right, w | .logical left _ right, w => by
    rw [names, resolve]
    exact (left.resolve_locates inClass w).trans (right.resolve_locates inClass _)
  | .ident id name, w => by
    rw [names, resolve]
    by_cases hp : w.isPending name.lexeme = true
    · simp only [hp, if_true]
      exact .of_blame (locate_scopes ..) (locate_extends ..)
    · simp only [hp]
      exact locate_locates .read id name fun _ h => hp ((isPending_iff _).2 h)
  | .assign id name value, w => by
    rw [names, resolve]
    have h := (value.resolve_locates inClass w).trans (locate_locates .write id name (by simp))
    exact h.perm List.perm_append_comm
  | .call callee _ args, w => by
    rw [names, resolve]
    exact (callee.resolve_locates inClass w).trans (resolveList_locates inClass args _)
  | .get object _, w => by
    rw [names, resolve]
    exact object.resolve_locates inClass w
  | .set object _ value, w => by
    rw [names, resolve]
    have h := (value.resolve_locates inClass w).trans (object.resolve_locates inClass _)
    exact h.perm List.perm_append_comm
  | .receiver id keyword, w => by
    rw [names, resolve]
    cases inClass with
    | true => exact locate_locates .receiver id keyword (by simp)
    | false => exact .of_blame rfl (.refl _)

/-- The same of a list of expressions. -/
theorem resolveList_locates (inClass : Bool) : ∀ (es : List Expr) (w : Walk),
    w.Locates (namesList es) (resolveList inClass es w)
  | [], w => by
    rw [namesList, resolveList]
    exact .refl w
  | e :: es, w => by
    rw [namesList, resolveList]
    exact (e.resolve_locates inClass w).trans (resolveList_locates inClass es _)

end

/-- The same of an expression that may be missing. -/
theorem resolveOption_locates (inClass : Bool) : ∀ (e : Option Expr) (w : Walk),
    w.Locates (namesOption e) (resolveOption inClass e w)
  | none, w => .refl w
  | some e, w => e.resolve_locates inClass w

end Expr

/-! ## Statements -/

open Scope.Walk

mutual

/-- The walk over a statement meets its nodes. -/
theorem Stmt.resolve_extends : ∀ (s : Stmt) (inFunction inClass : Bool) (w : Walk),
    w.Extends s.ids (s.resolve inFunction inClass w)
  | .expression e, _, inClass, w | .print e, _, inClass, w => by
    rw [Stmt.ids, Stmt.names, Stmt.resolve]
    exact (e.resolve_locates inClass w).past
  | .var name init, _, inClass, w => by
    rw [Stmt.ids, Stmt.names, Stmt.resolve]
    have h := (declare_extends (w := w) name).trans
      (Expr.resolveOption_locates inClass init _).past
    simpa using h.trans (define_extends name)
  | .block body, inFunction, inClass, w => by
    rw [Stmt.ids, Stmt.names, Stmt.resolve]
    exact (Stmt.resolveList_extends body inFunction inClass (w.enter ∅)).inside
  | .branch cond thenB none, inFunction, inClass, w => by
    rw [Stmt.ids, Stmt.names, Stmt.resolve, List.map_append]
    exact (cond.resolve_locates inClass w).past.trans (thenB.resolve_extends inFunction inClass _)
  | .branch cond thenB (some elseB), inFunction, inClass, w => by
    rw [Stmt.ids, Stmt.names, Stmt.resolve, List.map_append, List.map_append]
    exact ((cond.resolve_locates inClass w).past.trans
      (thenB.resolve_extends inFunction inClass _)).trans
        (elseB.resolve_extends inFunction inClass _)
  | .loop cond body, inFunction, inClass, w => by
    rw [Stmt.ids, Stmt.names, Stmt.resolve, List.map_append]
    exact (cond.resolve_locates inClass w).past.trans (body.resolve_extends inFunction inClass _)
  | .function decl, _, inClass, w => by
    rw [Stmt.ids, Stmt.names, Stmt.resolve]
    exact (define_declare_extends decl.name).trans
      (decl.resolve_extends inClass _)
  | .ret keyword value, inFunction, inClass, w => by
    rw [Stmt.ids, Stmt.names, Stmt.resolve]
    have h := (Expr.resolveOption_locates inClass value
      (if inFunction then w else w.blame .topLevelReturn keyword)).past
    cases inFunction with
    | true => exact h
    | false => exact (blame_extends ..).trans h
  | .classDecl name methods, _, _, w => by
    rw [Stmt.ids, Stmt.names, Stmt.resolve]
    exact (define_declare_extends name).trans
      (FunDecl.resolveList_extends methods true (Walk.enter _ Scope.ofClass)).inside

/-- The same of a list of statements. -/
theorem Stmt.resolveList_extends : ∀ (ss : List Stmt) (inFunction inClass : Bool) (w : Walk),
    w.Extends ((Stmt.namesList ss).map NameNode.id) (Stmt.resolveList inFunction inClass ss w)
  | [], _, _, w => by
    rw [Stmt.namesList, Stmt.resolveList]
    exact .refl w
  | s :: ss, inFunction, inClass, w => by
    rw [Stmt.namesList, Stmt.resolveList, List.map_append]
    exact (s.resolve_extends inFunction inClass w).trans
      (Stmt.resolveList_extends ss inFunction inClass _)

/-- The same of a function. -/
theorem FunDecl.resolve_extends : ∀ (f : FunDecl) (inClass : Bool) (w : Walk),
    w.Extends f.ids (f.resolve inClass w)
  | ⟨_, params, body⟩, inClass, w => by
    rw [FunDecl.ids, FunDecl.names, FunDecl.resolve]
    exact ((introduce_extends (w := w.enter ∅) params).trans
      (Stmt.resolveList_extends body true inClass _)).inside

/-- The same of methods. -/
theorem FunDecl.resolveList_extends : ∀ (fs : List FunDecl) (inClass : Bool) (w : Walk),
    w.Extends ((FunDecl.namesList fs).map NameNode.id) (FunDecl.resolveList inClass fs w)
  | [], _, w => by
    rw [FunDecl.namesList, FunDecl.resolveList]
    exact .refl w
  | f :: fs, inClass, w => by
    rw [FunDecl.namesList, FunDecl.resolveList, List.map_append]
    exact (f.resolve_extends inClass w).trans (FunDecl.resolveList_extends fs inClass _)

end

end Lox
