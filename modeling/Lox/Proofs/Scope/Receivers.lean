/-
# Receivers in trees

Each use of the receiver belongs to one method, the innermost one around it (`FunDecl.receivers`).
What a tree has to be like for its uses of the receiver to find it (`TreeRules.receivers`): each
stands in a method, and the tables of distances lead from it to the scope of that method's class;
nothing else goes by the name of the receiver. A tree in which the walk met no violation is like
that (`Stmt.PlacedList.obeys`).
-/

import Lox.Heap
import Lox.Proofs.Scope.Resolved
import Lox.Proofs.Tree.Obeys

namespace Lox

open Scope (Scopes Walk)

/-- The numbers of the nodes that are uses of the receiver. -/
def receiverIds (nodes : List NameNode) : List NodeId :=
  (nodes.filter fun node => node.use = .receiver).map NameNode.id

/-- The numbers of receivers are those of the nodes that are uses of it. -/
theorem mem_receiverIds {nodes : List NameNode} {id : NodeId} :
    id ∈ receiverIds nodes ↔ ∃ node ∈ nodes, node.use = .receiver ∧ node.id = id := by
  simp [receiverIds, and_assoc]

mutual

/-- The uses of the receiver in the statement, except those inside classes that it declares. -/
def Stmt.receivers : Stmt → List NodeId
  | .expression e => receiverIds e.names
  | .print e => receiverIds e.names
  | .var _ init => receiverIds (Expr.namesOption init)
  | .block body => Stmt.receiversList body
  | .branch cond thenB none => receiverIds cond.names ++ thenB.receivers
  | .branch cond thenB (some elseB) =>
    receiverIds cond.names ++ thenB.receivers ++ elseB.receivers
  | .loop cond body => receiverIds cond.names ++ body.receivers
  | .function decl => decl.receivers
  | .ret _ value => receiverIds (Expr.namesOption value)
  | .classDecl _ _ => []

/-- The uses of the receiver in the statements, except those inside classes. -/
def Stmt.receiversList : List Stmt → List NodeId
  | [] => []
  | s :: ss => s.receivers ++ Stmt.receiversList ss

/-- The uses of the receiver that belong to the function if it is a method. -/
def FunDecl.receivers : FunDecl → List NodeId
  | ⟨_, _, body⟩ => Stmt.receiversList body

end

/-- Where a tree stands: in the given method, so many scopes inside the scope of its class. -/
abbrev MethodPlace := Option (Nat × FunDecl)

/-- Uses of the receiver find it, and nothing else has its name. -/
def TreeRules.receivers (T : Distances → Prop) : TreeRules MethodPlace where
  node k node :=
    (node.use = .receiver → node.name.lexeme = Heap.receiverName ∧ ∃ d method,
      k = some (d, method) ∧ node.id ∈ method.receivers ∧ ∀ D, T D → D.get? node.id = some d) ∧
    (node.use = .write → node.name.lexeme ≠ Heap.receiverName)
  name name := name ≠ Heap.receiverName
  function _ := True
  loops := True
  inner := Option.map fun place => (place.1 + 1, place.2)
  method _ f := some (0, f)

/-- With fewer tables less is asked of receivers. -/
theorem TreeRules.receivers_weakens {T T' : Distances → Prop} (hT : ∀ D, T' D → T D) :
    (TreeRules.receivers T).Weakens (.receivers T') where
  node k node h := by
    refine ⟨fun hu => ?_, h.2⟩
    obtain ⟨hn, d, method, hk, hm, hd⟩ := h.1 hu
    exact ⟨hn, d, method, hk, hm, fun D hD => hd D (hT D hD)⟩
  name _ h := h
  function _ _ := trivial
  loops _ := trivial
  inner := rfl
  method := rfl

/-! ## Outside of classes there is no receiver -/

section Sheltered

open Scope.Walk

namespace Expr

mutual

/-- A walk outside of all classes that met no violation met no use of the receiver. -/
theorem resolve_sheltered : ∀ {e : Expr} {w : Walk},
    (e.resolve false w).violations.length = w.violations.length →
      ∀ node ∈ e.names, node.use ≠ .receiver
  | .literal _, _, _, node, hn => by simp [names] at hn
  | .grouping _, _, h, node, hn | .unary _ _, _, h, node, hn => by
    rw [resolve] at h
    rw [names] at hn
    exact resolve_sheltered h node hn
  | .binary left _ right, w, h, node, hn | .logical left _ right, w, h, node, hn => by
    rw [resolve] at h
    rw [names] at hn
    have hl := (left.resolve_locates false w).past.violations
    have hr := (right.resolve_locates false (left.resolve false w)).past.violations
    rcases List.mem_append.1 hn with hn | hn
    · exact resolve_sheltered (w := w) (by omega) node hn
    · exact resolve_sheltered (w := left.resolve false w) (by omega) node hn
  | .ident _ _, _, _, node, hn => by
    rw [names, List.mem_singleton] at hn
    subst hn
    simp
  | .assign id name value, w, h, node, hn => by
    rw [resolve] at h
    rw [names] at hn
    have hv := (value.resolve_locates false w).past.violations
    have hl := (locate_extends (w := value.resolve false w) id name).violations
    rcases List.mem_cons.1 hn with rfl | hn
    · simp
    · exact resolve_sheltered (w := w) (by omega) node hn
  | .call callee _ args, w, h, node, hn => by
    rw [resolve] at h
    rw [names] at hn
    have hc := (callee.resolve_locates false w).past.violations
    have ha := (resolveList_locates false args (callee.resolve false w)).past.violations
    rcases List.mem_append.1 hn with hn | hn
    · exact resolve_sheltered (w := w) (by omega) node hn
    · exact resolveList_sheltered (w := callee.resolve false w) (by omega) node hn
  | .get _ _, _, h, node, hn => by
    rw [resolve] at h
    rw [names] at hn
    exact resolve_sheltered h node hn
  | .set object _ value, w, h, node, hn => by
    rw [resolve] at h
    rw [names] at hn
    have hv := (value.resolve_locates false w).past.violations
    have ho := (object.resolve_locates false (value.resolve false w)).past.violations
    rcases List.mem_append.1 hn with hn | hn
    · exact resolve_sheltered (w := value.resolve false w) (by omega) node hn
    · exact resolve_sheltered (w := w) (by omega) node hn
  | .receiver _ _, _, h, _, _ => by simp [resolve, blame] at h

/-- In expressions outside of classes that meet no violation there is no receiver. -/
theorem resolveList_sheltered : ∀ {es : List Expr} {w : Walk},
    (resolveList false es w).violations.length = w.violations.length →
      ∀ node ∈ namesList es, node.use ≠ .receiver
  | [], _, _, node, hn => by simp [namesList] at hn
  | e :: es, w, h, node, hn => by
    rw [resolveList] at h
    rw [namesList] at hn
    have he := (e.resolve_locates false w).past.violations
    have hs := (resolveList_locates false es (e.resolve false w)).past.violations
    rcases List.mem_append.1 hn with hn | hn
    · exact resolve_sheltered (w := w) (by omega) node hn
    · exact resolveList_sheltered (w := e.resolve false w) (by omega) node hn

end

/-- In an expression of that kind there is none, either. -/
theorem receiverIds_sheltered {e : Expr} {w : Walk}
    (h : (e.resolve false w).violations.length = w.violations.length) :
    receiverIds e.names = [] :=
  List.eq_nil_iff_forall_not_mem.2 fun _ hid => by
    obtain ⟨node, hn, hu, -⟩ := mem_receiverIds.1 hid
    exact resolve_sheltered h node hn hu

theorem receiverIds_option_sheltered : ∀ {e : Option Expr} {w : Walk},
    (resolveOption false e w).violations.length = w.violations.length →
      receiverIds (namesOption e) = []
  | none, _, _ => rfl
  | some _, _, h => receiverIds_sheltered h

end Expr

mutual

/-- In a statement outside of classes that meets no violation there is no receiver but in classes
that it declares. -/
theorem Stmt.resolve_sheltered : ∀ (s : Stmt) (inFunction : Bool) (w : Walk),
    (s.resolve inFunction false w).violations.length = w.violations.length → s.receivers = []
  | .expression _, _, _, h | .print _, _, _, h => by
    rw [Stmt.resolve] at h
    rw [Stmt.receivers]
    exact Expr.receiverIds_sheltered h
  | .var name init, _, w, h => by
    rw [Stmt.resolve, define_violations] at h
    rw [Stmt.receivers]
    have hd := (declare_extends (w := w) name).violations
    have hi := (Expr.resolveOption_locates false init (w.declare name)).past.violations
    exact Expr.receiverIds_option_sheltered (w := w.declare name) (by omega)
  | .block body, inFunction, w, h => by
    rw [Stmt.resolve] at h
    rw [Stmt.receivers]
    exact Stmt.resolveList_sheltered body inFunction (w.enter ∅) h
  | .branch cond thenB none, inFunction, w, h => by
    rw [Stmt.resolve] at h
    rw [Stmt.receivers]
    have hc := (cond.resolve_locates false w).past.violations
    have ht := (thenB.resolve_extends inFunction false (cond.resolve false w)).violations
    rw [Expr.receiverIds_sheltered (e := cond) (w := w) (by omega),
      Stmt.resolve_sheltered thenB inFunction (cond.resolve false w) (by omega)]
    rfl
  | .branch cond thenB (some elseB), inFunction, w, h => by
    rw [Stmt.resolve] at h
    rw [Stmt.receivers]
    have hc := (cond.resolve_locates false w).past.violations
    have ht := (thenB.resolve_extends inFunction false (cond.resolve false w)).violations
    have he := (elseB.resolve_extends inFunction false
      (thenB.resolve inFunction false (cond.resolve false w))).violations
    rw [Expr.receiverIds_sheltered (e := cond) (w := w) (by omega),
      Stmt.resolve_sheltered thenB inFunction (cond.resolve false w) (by omega),
      Stmt.resolve_sheltered elseB inFunction
        (thenB.resolve inFunction false (cond.resolve false w)) (by omega)]
    rfl
  | .loop cond body, inFunction, w, h => by
    rw [Stmt.resolve] at h
    rw [Stmt.receivers]
    have hc := (cond.resolve_locates false w).past.violations
    have hb := (body.resolve_extends inFunction false (cond.resolve false w)).violations
    rw [Expr.receiverIds_sheltered (e := cond) (w := w) (by omega),
      Stmt.resolve_sheltered body inFunction (cond.resolve false w) (by omega)]
    rfl
  | .function decl, _, w, h => by
    rw [Stmt.resolve] at h
    rw [Stmt.receivers]
    have hd := (define_declare_extends (w := w) decl.name).violations
    have hf := (decl.resolve_extends false ((w.declare decl.name).define decl.name)).violations
    exact decl.resolve_sheltered ((w.declare decl.name).define decl.name) (by omega)
  | .ret keyword value, inFunction, w, h => by
    rw [Stmt.resolve] at h
    rw [Stmt.receivers]
    have hv := (Expr.resolveOption_locates false value
      (if inFunction then w else w.blame .topLevelReturn keyword)).past.violations
    cases inFunction with
    | true => exact Expr.receiverIds_option_sheltered h
    | false =>
      have hb := (blame_extends (w := w) .topLevelReturn keyword).violations
      exact Expr.receiverIds_option_sheltered (w := w.blame .topLevelReturn keyword)
        (Nat.le_antisymm (Nat.le_trans (Nat.le_of_eq h) hb) hv)
  | .classDecl _ _, _, _, _ => by rw [Stmt.receivers]

/-- The same of a list of statements. -/
theorem Stmt.resolveList_sheltered : ∀ (ss : List Stmt) (inFunction : Bool) (w : Walk),
    (Stmt.resolveList inFunction false ss w).violations.length = w.violations.length →
      Stmt.receiversList ss = []
  | [], _, _, _ => by rw [Stmt.receiversList]
  | s :: ss, inFunction, w, h => by
    rw [Stmt.resolveList] at h
    rw [Stmt.receiversList]
    have hs := (s.resolve_extends inFunction false w).violations
    have hss := (Stmt.resolveList_extends ss inFunction false
      (s.resolve inFunction false w)).violations
    rw [s.resolve_sheltered inFunction w (by omega),
      Stmt.resolveList_sheltered ss inFunction (s.resolve inFunction false w) (by omega)]
    rfl

/-- The same of a function. -/
theorem FunDecl.resolve_sheltered : ∀ (f : FunDecl) (w : Walk),
    (f.resolve false w).violations.length = w.violations.length → f.receivers = []
  | ⟨_, params, body⟩, w, h => by
    rw [FunDecl.resolve] at h
    rw [FunDecl.receivers]
    have hp := (introduce_extends (w := w.enter ∅) params).violations
    have hb := (Stmt.resolveList_extends body true false
      ((w.enter ∅).introduce params)).violations
    exact Stmt.resolveList_sheltered body true ((w.enter ∅).introduce params)
      (Nat.le_antisymm (Nat.le_trans (Nat.le_of_eq h) hp) hb)

end

end Sheltered

/-! ## Placed trees obey the rules -/

section Placed

variable {T : Distances → Prop} {scopes : Scopes} {k : MethodPlace}

/-- No name is spelled as the receiver is. -/
theorem Token.IsName.ne_receiver {t : Token} (h : t.IsName Token.Spelled) :
    t.lexeme ≠ Heap.receiverName := h.2.identifier h.1 .this_

/-- The scope of the class is as far away as the position says. -/
def Matches (k : MethodPlace) (scopes : Scopes) : Prop :=
  k.map Prod.fst = scopes.distance? Heap.receiverName

/-- Another name does not move the scope of the class. -/
theorem Matches.put (h : Matches k scopes) {name : String} (hn : name ≠ Heap.receiverName)
    (status : Scope.Status) : Matches k (scopes.put name status) := by
  rw [Matches, h]
  cases scopes with
  | nil => rfl
  | cons scope outer =>
    simp [Scopes.put, Scopes.distance?, List.findIdx?_cons, hn]

/-- Inside one more scope it is one further away. -/
theorem Matches.inner (h : Matches k scopes) {scope : Bindings Scope.Status}
    (hs : scope.contains Heap.receiverName = false) :
    Matches ((TreeRules.receivers T).inner k) (scope :: scopes) := by
  have outside : scopes.distance? Heap.receiverName = k.map Prod.fst := h.symm
  unfold Scopes.distance? at outside
  rw [Matches, Scopes.distance?, List.findIdx?_cons, hs, outside]
  cases k <;> rfl

/-- A well-formed statement does not move it. -/
theorem Matches.scopesAfter (h : Matches k scopes) {s : Stmt} (hf : s.Formed Token.Spelled) :
    Matches k (s.scopesAfter scopes) := by
  cases s with
  | var name init =>
    rw [Stmt.Formed] at hf
    exact h.put hf.1.ne_receiver _
  | function decl =>
    rw [Stmt.Formed] at hf
    obtain ⟨_, _, _⟩ := decl
    rw [FunDecl.Formed] at hf
    exact h.put hf.1.ne_receiver _
  | classDecl name methods =>
    rw [Stmt.Formed] at hf
    exact h.put hf.1.ne_receiver _
  | _ => exact h

/-- No parameter goes by the name of the receiver. -/
theorem contains_ofParams_receiver {params : List Token}
    (h : ∀ p ∈ params, p.IsName Token.Spelled) :
    (Scope.ofParams params).contains Heap.receiverName = false := by
  rw [Bool.eq_false_iff, Ne, Scope.ofParams, Bindings.contains_insertMany]
  rintro (hc | ⟨status, hm⟩)
  · cases hc
  · obtain ⟨p, hp, he⟩ := List.mem_map.1 hm
    exact (h p hp).ne_receiver (congrArg Prod.fst he)

/-- The uses of the receiver belong to the method of the position. -/
def Owned (k : MethodPlace) (ids : List NodeId) : Prop :=
  ∀ id ∈ ids, ∃ d method, k = some (d, method) ∧ id ∈ method.receivers

/-- What belongs to a method does so in part. -/
theorem Owned.left {ids ids' : List NodeId} (h : Owned k (ids ++ ids')) : Owned k ids :=
  fun id hid => h id (List.mem_append_left _ hid)

/-- The same of the second part. -/
theorem Owned.right {ids ids' : List NodeId} (h : Owned k (ids ++ ids')) : Owned k ids' :=
  fun id hid => h id (List.mem_append_right _ hid)

/-- What belongs to a method does so inside a block or a function in it. -/
theorem Owned.inner {ids : List NodeId} (h : Owned k ids) :
    Owned ((TreeRules.receivers T).inner k) ids := fun id hid => by
  obtain ⟨d, method, rfl, hm⟩ := h id hid
  exact ⟨d + 1, method, rfl, hm⟩

/-- The receivers in a well-formed expression with its names in their places find it. -/
theorem Expr.Placed.obeys {e : Expr} (hp : e.Placed false T scopes) (hf : e.Formed Token.Spelled)
    (hm : Matches k scopes) (ho : Owned k (receiverIds e.names)) : e.Obeys (.receivers T) k := by
  intro node hn
  constructor
  · intro hu
    have spelled : node.name.lexeme = Heap.receiverName := Expr.receiver_spelled hf hn hu
    obtain ⟨d, method, rfl, hid⟩ := ho node.id (mem_receiverIds.2 ⟨node, hn, hu, rfl⟩)
    refine ⟨spelled, d, method, rfl, hid, fun D hD => ?_⟩
    rw [(hp node hn).distance D hD, spelled]
    exact hm.symm
  · intro hu
    have name := (hf.named node hn).name (by rw [hu]; simp)
    exact name.ne_receiver

theorem Expr.Placed.obeysOption {e : Option Expr} (hp : ∀ e' ∈ e, e'.Placed false T scopes)
    (hf : ∀ e' ∈ e, e'.Formed Token.Spelled) (hm : Matches k scopes)
    (ho : Owned k (receiverIds (Expr.namesOption e))) :
    ∀ e' ∈ e, e'.Obeys (.receivers T) k := by
  rintro e' rfl
  exact (hp e' rfl).obeys (hf e' rfl) hm ho

mutual

/-- The receivers in a well-formed statement with its names in their places find it. -/
theorem Stmt.Placed.obeys : ∀ {s : Stmt} {scopes : Scopes} {k : MethodPlace},
    s.Placed false T scopes → s.Formed Token.Spelled → Matches k scopes → Owned k s.receivers →
      s.Obeys (.receivers T) k
  | .expression _, _, _, hp, hf, hm, ho | .print _, _, _, hp, hf, hm, ho => by
    rw [Stmt.Placed] at hp
    rw [Stmt.Formed] at hf
    rw [Stmt.receivers] at ho
    rw [Stmt.Obeys]
    exact Expr.Placed.obeys hp hf hm ho
  | .var _ _, _, _, hp, hf, hm, ho => by
    rw [Stmt.Placed] at hp
    rw [Stmt.Formed] at hf
    rw [Stmt.receivers] at ho
    rw [Stmt.Obeys]
    have hn := hf.1.ne_receiver
    exact ⟨hn, Expr.Placed.obeysOption hp.2 hf.2 (hm.put hn _) ho⟩
  | .block _, _, _, hp, hf, hm, ho => by
    rw [Stmt.Placed] at hp
    rw [Stmt.Formed] at hf
    rw [Stmt.receivers] at ho
    rw [Stmt.Obeys]
    exact Stmt.PlacedList.obeys hp hf (hm.inner rfl) ho.inner
  | .branch _ _ none, _, _, hp, hf, hm, ho => by
    rw [Stmt.Placed] at hp
    rw [Stmt.Formed] at hf
    rw [Stmt.receivers] at ho
    rw [Stmt.Obeys]
    exact ⟨hp.1.obeys hf.1 hm ho.left, Stmt.Placed.obeys hp.2.2 hf.2.2 hm ho.right⟩
  | .branch _ _ (some _), _, _, hp, hf, hm, ho => by
    rw [Stmt.Placed] at hp
    rw [Stmt.Formed] at hf
    rw [Stmt.receivers] at ho
    rw [Stmt.Obeys]
    exact ⟨hp.1.obeys hf.1 hm ho.left.left,
      Stmt.Placed.obeys hp.2.1.2 hf.2.1.2 hm ho.left.right,
      Stmt.Placed.obeys hp.2.2.2 hf.2.2.2 hm ho.right⟩
  | .loop _ _, _, _, hp, hf, hm, ho => by
    rw [Stmt.Placed] at hp
    rw [Stmt.Formed] at hf
    rw [Stmt.receivers] at ho
    rw [Stmt.Obeys]
    exact ⟨trivial, hp.1.obeys hf.1 hm ho.left, Stmt.Placed.obeys hp.2.2 hf.2.2 hm ho.right⟩
  | .function ⟨name, params, body⟩, _, _, hp, hf, hm, ho => by
    rw [Stmt.Placed] at hp
    rw [Stmt.Formed] at hf
    rw [Stmt.receivers] at ho
    rw [Stmt.Obeys]
    have formed := hf
    rw [FunDecl.Formed] at formed
    have hn := formed.1.ne_receiver
    exact ⟨hn, FunDecl.Placed.obeys hp.2 hf (hm.put hn _) ho⟩
  | .ret _ _, _, _, hp, hf, hm, ho => by
    rw [Stmt.Placed] at hp
    rw [Stmt.Formed] at hf
    rw [Stmt.receivers] at ho
    rw [Stmt.Obeys]
    exact Expr.Placed.obeysOption hp hf hm ho
  | .classDecl _ _, _, _, hp, hf, hm, _ => by
    rw [Stmt.Placed] at hp
    rw [Stmt.Formed] at hf
    rw [Stmt.Obeys]
    exact ⟨hf.1.ne_receiver, FunDecl.PlacedList.obeys hp.2 hf.2⟩

/-- The same of a list of statements. -/
theorem Stmt.PlacedList.obeys : ∀ {ss : List Stmt} {scopes : Scopes} {k : MethodPlace},
    Stmt.PlacedList false T ss scopes → Stmt.FormedList Token.Spelled ss → Matches k scopes →
      Owned k (Stmt.receiversList ss) → Stmt.ObeysList (.receivers T) k ss
  | [], _, _, _, _, _, _ => by rw [Stmt.ObeysList]; trivial
  | _ :: _, _, _, hp, hf, hm, ho => by
    rw [Stmt.PlacedList] at hp
    rw [Stmt.FormedList] at hf
    rw [Stmt.receiversList] at ho
    rw [Stmt.ObeysList]
    exact ⟨Stmt.Placed.obeys hp.1 hf.1 hm ho.left,
      Stmt.PlacedList.obeys hp.2 hf.2 (hm.scopesAfter hf.1) ho.right⟩

/-- The same of a function. -/
theorem FunDecl.Placed.obeys : ∀ {f : FunDecl} {scopes : Scopes} {k : MethodPlace},
    f.Placed false T scopes → f.Formed Token.Spelled → Matches k scopes → Owned k f.receivers →
      f.Obeys (.receivers T) k
  | ⟨_, _, _⟩, _, _, hp, hf, hm, ho => by
    rw [FunDecl.Placed] at hp
    rw [FunDecl.Formed] at hf
    rw [FunDecl.receivers] at ho
    rw [FunDecl.Obeys]
    refine ⟨trivial, fun t ht => (hf.2.1 t ht).ne_receiver, ?_⟩
    exact Stmt.PlacedList.obeys hp hf.2.2 (hm.inner (contains_ofParams_receiver hf.2.1)) ho.inner

/-- The uses of the receiver in a method belong to that method, whatever is around the class. -/
theorem FunDecl.PlacedList.obeys : ∀ {fs : List FunDecl} {scopes : Scopes} {k : MethodPlace},
    FunDecl.PlacedList false T fs (Scope.ofClass :: scopes) →
      FunDecl.FormedList Token.Spelled fs → FunDecl.ObeysList (.receivers T) k fs
  | [], _, _, _, _ => by rw [FunDecl.ObeysList]; trivial
  | f :: _, _, _, hp, hf => by
    rw [FunDecl.PlacedList] at hp
    rw [FunDecl.FormedList] at hf
    rw [FunDecl.ObeysList]
    refine ⟨FunDecl.Placed.obeys hp.1 hf.1 rfl fun id hid => ⟨0, f, rfl, hid⟩, ?_⟩
    exact FunDecl.PlacedList.obeys hp.2 hf.2

end

end Placed

/-- Whatever a program without violations uses the receiver for, it finds it. -/
theorem Scope.obeys_receivers {statements : List Stmt} {known : Distances} {T : Distances → Prop}
    (hp : Stmt.PlacedList false T statements [])
    (hf : ∀ s ∈ statements, s.Formed Token.Spelled)
    (hv : (resolve statements known).violations = []) :
    ∀ s ∈ statements, s.Obeys (.receivers T) none := by
  have sheltered : Stmt.receiversList statements = [] :=
    Stmt.resolveList_sheltered statements false ⟨[], known, []⟩ (congrArg List.length hv)
  refine Stmt.obeysList_iff.1 (hp.obeys (Stmt.formedList_iff.2 hf) rfl fun id hid => ?_)
  rw [sheltered] at hid
  cases hid

end Lox
