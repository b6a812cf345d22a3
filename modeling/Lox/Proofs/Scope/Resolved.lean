/-
# What the walk finds

A walk over a well-formed tree that meets no violation fills the table of distances so that every
name of the tree is in its place (`Scope.resolve_placed`).
-/

import Lox.Proofs.Scope.Walk
import Lox.Proofs.Token.Spelled
import Lox.Proofs.Tree.OwnInitializer

namespace Lox

open Scope (Scopes Walk)
open Scope.Walk

section Placed

variable {strict : Bool} {T : Distances → Prop}

/-- In a walk without violations a name may wait for its definition only where it is assigned to or
where the receiver is used. -/
theorem Scope.Walk.Locates.placed {nodes : List NameNode} {w w' : Walk} (h : w.Locates nodes w')
    (hw : w.Settles T (nodes.map NameNode.id) w')
    (hr : ∀ node ∈ nodes, node.use ≠ .read → (node.use = .write → strict = true) →
      ¬ Scopes.Pending w.scopes node.name.lexeme) :
    ∀ node ∈ nodes, node.Placed strict T w.scopes := by
  intro node hn
  obtain ⟨hd, hp⟩ := h.located hw.quiet hw.new node hn
  refine ⟨fun D hD => (hw.known D hD _ (List.mem_map_of_mem hn)).trans hd, fun hu => ?_⟩
  by_cases hread : node.use = .read
  · exact hp hread
  · exact hr node hn hread hu

/-- A walk over an expression that meets no violation finds the places of its names. -/
theorem Expr.resolve_placed {inClass : Bool} {e : Expr} {w : Walk}
    (hs : Scopes.Settled w.scopes) (h : w.Settles T e.ids (e.resolve inClass w)) :
    e.Placed strict T w.scopes :=
  (e.resolve_locates inClass w).placed h fun _ _ _ _ => hs _

/-- The same of an expression that may be missing. -/
theorem Expr.resolveOption_placed {inClass : Bool} {e : Option Expr} {w : Walk}
    (hs : Scopes.Settled w.scopes)
    (h : w.Settles T ((namesOption e).map NameNode.id) (resolveOption inClass e w)) :
    ∀ e' ∈ e, e'.Placed strict T w.scopes := by
  rintro e' rfl
  exact Expr.resolve_placed hs h

/-- The receiver in a well-formed expression is spelled as the word is. -/
theorem Expr.receiver_spelled {e : Expr} (hf : e.Formed Token.Spelled) {node : NameNode}
    (hn : node ∈ e.names) (hu : node.use = .receiver) :
    node.name.lexeme = Keyword.this_.spelling := by
  obtain ⟨hk, hs⟩ := (hf.named node hn).receiver hu
  exact hs.keyword .this_ hk

/-- The initializer of a variable, in which the variable waits for its definition. -/
theorem Expr.initializer_placed {inClass : Bool} {name : Token} {e : Expr} {w : Walk}
    {scopes : Scopes} (hw : w.scopes = scopes.put name.lexeme .declared)
    (hs : scopes.Settled) (hn : name.IsName Token.Spelled) (hf : e.Formed Token.Spelled)
    (ha : strict = true → scopes ≠ [] → e.assigns name.lexeme = false)
    (h : w.Settles T e.ids (e.resolve inClass w)) : e.Placed strict T w.scopes := by
  refine (e.resolve_locates inClass w).placed h fun node hnode hread hwrite hp => ?_
  rw [hw] at hp
  obtain ⟨hname, hne⟩ := hs.pending_put hp
  cases hu : node.use with
  | read => exact hread hu
  | write =>
    have : e.assigns name.lexeme = true :=
      List.any_eq_true.2 ⟨node, hnode, by simp [hu, hname]⟩
    rw [ha (hwrite hu) hne] at this
    cases this
  | receiver =>
    have := Expr.receiver_spelled hf hnode hu
    exact hn.2.identifier hn.1 .this_ (hname.symm.trans this)

variable (strict T) in
/-- A walk over the statement that met no violation found the places of its names. -/
def Stmt.Finds (s : Stmt) (isLocal : Bool) (w w' : Walk) : Prop :=
  s.Formed Token.Spelled → Scopes.Settled w.scopes → (w.scopes ≠ [] → isLocal = true) →
    (strict = true → s.assignsOwn isLocal = false) → w.Settles T s.ids w' →
      w'.scopes = s.scopesAfter w.scopes ∧ s.Placed strict T w.scopes

/-- A branch or a body declares nothing, and is walked in the scopes of the statement it is in. -/
theorem Stmt.Finds.plain {s : Stmt} {isLocal : Bool} {w w' : Walk} {scopes : Scopes}
    (find : s.Finds strict T isLocal w w') (hw : w.scopes = scopes)
    (hf : s.declares = false ∧ s.Formed Token.Spelled) (hs : scopes.Settled)
    (hl : scopes ≠ [] → isLocal = true) (ha : strict = true → s.assignsOwn isLocal = false)
    (h : w.Settles T s.ids w') : w'.scopes = scopes ∧ s.Placed strict T scopes := by
  subst hw
  obtain ⟨hscopes, placed⟩ := find hf.2 hs hl ha h
  rw [Stmt.scopesAfter_plain hf.1] at hscopes
  exact ⟨hscopes, placed⟩

mutual

/-- A walk over a well-formed statement that meets no violation finds the places of its names. -/
theorem Stmt.resolve_placed : ∀ (s : Stmt) (inFunction inClass isLocal : Bool) (w : Walk),
    s.Finds strict T isLocal w (s.resolve inFunction inClass w)
  | .expression e, _, inClass, _, w | .print e, _, inClass, _, w => by
    intro _ hs _ _ h
    rw [Stmt.ids, Stmt.names, Stmt.resolve] at h
    rw [Stmt.resolve, Stmt.Placed]
    exact ⟨(e.resolve_locates inClass w).scopes, Expr.resolve_placed hs h⟩
  | .var name init, _, inClass, isLocal, w => by
    intro hf hs hl ha h
    rw [Stmt.ids, Stmt.names, Stmt.resolve] at h
    rw [Stmt.Formed] at hf
    rw [Stmt.resolve, Stmt.Placed]
    have hi := Expr.resolveOption_locates inClass init (w.declare name)
    have h₁ := h.of_define
    obtain ⟨hlacks, hd⟩ := declare_ok (h₁.left (declare_extends name) hi.past).quiet
    refine ⟨?_, hlacks, fun e he => ?_⟩
    · rw [define_scopes, hi.scopes, hd, Scopes.put_put, Stmt.scopesAfter]
    · cases he
      rw [← hd]
      refine Expr.initializer_placed hd hs hf.1 (hf.2 e rfl) (fun hst hne => ?_)
        (h₁.right (declare_extends name) hi.past)
      have := ha hst
      rw [Stmt.assignsOwn, hl hne] at this
      simpa using this
  | .block body, inFunction, inClass, _, w => by
    intro hf hs _ ha h
    rw [Stmt.ids, Stmt.names, Stmt.resolve] at h
    rw [Stmt.Formed] at hf
    rw [Stmt.assignsOwn] at ha
    rw [Stmt.resolve, Stmt.Placed]
    obtain ⟨hb, hp⟩ := Stmt.resolveList_placed body inFunction inClass true (w.enter ∅)
      hf (.empty _) (fun _ => rfl) ha h.inside
    exact ⟨hb, hp⟩
  | .branch cond thenB none, inFunction, inClass, isLocal, w => by
    intro hf hs hl ha h
    rw [Stmt.ids, Stmt.names, Stmt.resolve, List.map_append] at h
    rw [Stmt.Formed] at hf
    rw [Stmt.assignsOwn] at ha
    rw [Stmt.resolve, Stmt.Placed]
    have hc := cond.resolve_locates inClass w
    have ht := thenB.resolve_extends inFunction inClass (cond.resolve inClass w)
    obtain ⟨hts, htp⟩ := (thenB.resolve_placed inFunction inClass isLocal _).plain hc.scopes
      hf.2 hs hl ha (h.right hc.past ht)
    exact ⟨hts, Expr.resolve_placed hs (h.left hc.past ht), hf.2.1, htp⟩
  | .branch cond thenB (some elseB), inFunction, inClass, isLocal, w => by
    intro hf hs hl ha h
    rw [Stmt.ids, Stmt.names, Stmt.resolve, List.map_append, List.map_append] at h
    rw [Stmt.Formed] at hf
    rw [Stmt.assignsOwn] at ha
    simp only [Bool.or_eq_false_iff] at ha
    rw [Stmt.resolve, Stmt.Placed]
    have hc := cond.resolve_locates inClass w
    have ht := thenB.resolve_extends inFunction inClass (cond.resolve inClass w)
    have he := elseB.resolve_extends inFunction inClass
      (thenB.resolve inFunction inClass (cond.resolve inClass w))
    have h₁ := h.left (hc.past.trans ht) he
    obtain ⟨hts, htp⟩ := (thenB.resolve_placed inFunction inClass isLocal _).plain hc.scopes
      hf.2.1 hs hl (fun hst => (ha hst).1) (h₁.right hc.past ht)
    obtain ⟨hes, hep⟩ := (elseB.resolve_placed inFunction inClass isLocal _).plain hts
      hf.2.2 hs hl (fun hst => (ha hst).2) (h.right (hc.past.trans ht) he)
    exact ⟨hes, Expr.resolve_placed hs (h₁.left hc.past ht), ⟨hf.2.1.1, htp⟩, hf.2.2.1, hep⟩
  | .loop cond body, inFunction, inClass, isLocal, w => by
    intro hf hs hl ha h
    rw [Stmt.ids, Stmt.names, Stmt.resolve, List.map_append] at h
    rw [Stmt.Formed] at hf
    rw [Stmt.assignsOwn] at ha
    rw [Stmt.resolve, Stmt.Placed]
    have hc := cond.resolve_locates inClass w
    have hb := body.resolve_extends inFunction inClass (cond.resolve inClass w)
    obtain ⟨hbs, hbp⟩ := (body.resolve_placed inFunction inClass isLocal _).plain hc.scopes
      hf.2 hs hl ha (h.right hc.past hb)
    exact ⟨hbs, Expr.resolve_placed hs (h.left hc.past hb), hf.2.1, hbp⟩
  | .function decl, _, inClass, _, w => by
    intro hf hs _ ha h
    rw [Stmt.ids, Stmt.names, Stmt.resolve] at h
    rw [Stmt.Formed] at hf
    rw [Stmt.assignsOwn] at ha
    rw [Stmt.resolve, Stmt.Placed]
    have he := define_declare_extends (w := w) decl.name
    have hd := decl.resolve_extends inClass ((w.declare decl.name).define decl.name)
    obtain ⟨hlacks, hscopes⟩ := define_declare_ok (h.left he hd).quiet
    obtain ⟨hds, hdp⟩ := decl.resolve_placed inClass _ hf ha (h.right he hd)
    rw [hscopes] at hds hdp
    exact ⟨hds, hlacks, hdp⟩
  | .ret keyword value, inFunction, inClass, _, w => by
    intro _ hs _ _ h
    rw [Stmt.ids, Stmt.names, Stmt.resolve] at h
    rw [Stmt.resolve, Stmt.Placed]
    cases inFunction with
    | true =>
      exact ⟨(Expr.resolveOption_locates inClass value w).scopes, Expr.resolveOption_placed hs h⟩
    | false =>
      have := (Expr.resolveOption_locates inClass value
        (w.blame .topLevelReturn keyword)).past.violations
      have hq : (Expr.resolveOption inClass value
        (w.blame .topLevelReturn keyword)).violations.length = _ := h.quiet
      simp only [blame, List.length_append, List.length_singleton] at this hq
      omega
  | .classDecl name methods, _, _, _, w => by
    intro hf hs _ ha h
    rw [Stmt.ids, Stmt.names, Stmt.resolve] at h
    rw [Stmt.Formed] at hf
    rw [Stmt.assignsOwn] at ha
    rw [Stmt.resolve, Stmt.Placed]
    have he := define_declare_extends (w := w) name
    have hm := (FunDecl.resolveList_extends methods true
      (((w.declare name).define name).enter Scope.ofClass)).inside
    obtain ⟨hlacks, hscopes⟩ := define_declare_ok (h.left he hm).quiet
    have hclass : (((w.declare name).define name).enter Scope.ofClass).scopes =
        Scope.ofClass :: Scopes.put name.lexeme .defined w.scopes := congrArg _ hscopes
    obtain ⟨hms, hmp⟩ := FunDecl.resolveList_placed methods true _ hf.2 ha (h.right he hm).inside
    rw [hclass] at hms hmp
    exact ⟨congrArg List.tail hms, hlacks, hmp⟩

/-- Statements in a scope leave the scopes outside of it alone. -/
theorem Stmt.resolveList_placed : ∀ (ss : List Stmt) (inFunction inClass isLocal : Bool) (w : Walk),
    Stmt.FormedList Token.Spelled ss → Scopes.Settled w.scopes →
      (w.scopes ≠ [] → isLocal = true) →
      (strict = true → Stmt.assignsOwnList isLocal ss = false) →
      w.Settles T ((Stmt.namesList ss).map NameNode.id)
        (Stmt.resolveList inFunction inClass ss w) →
      (Stmt.resolveList inFunction inClass ss w).scopes.tail = w.scopes.tail ∧
        Stmt.PlacedList strict T ss w.scopes
  | [], _, _, _, w => by
    intro _ _ _ _ _
    rw [Stmt.resolveList, Stmt.PlacedList]
    exact ⟨rfl, trivial⟩
  | s :: ss, inFunction, inClass, isLocal, w => by
    intro hf hs hl ha h
    rw [Stmt.namesList, Stmt.resolveList, List.map_append] at h
    rw [Stmt.FormedList] at hf
    simp only [Stmt.assignsOwnList, Bool.or_eq_false_iff] at ha
    rw [Stmt.resolveList, Stmt.PlacedList]
    have h₁ := s.resolve_extends inFunction inClass w
    have h₂ := Stmt.resolveList_extends ss inFunction inClass (s.resolve inFunction inClass w)
    obtain ⟨hss, hsp⟩ := s.resolve_placed inFunction inClass isLocal w hf.1 hs hl
      (fun hst => (ha hst).1) (h.left h₁ h₂)
    have hne : (s.scopesAfter w.scopes ≠ [] → isLocal = true) :=
      fun hne => hl fun he => hne (by rw [he]; exact s.scopesAfter_nil)
    obtain ⟨hrs, hrp⟩ := Stmt.resolveList_placed ss inFunction inClass isLocal _ hf.2
      (hss ▸ hs.scopesAfter s) (hss ▸ hne) (fun hst => (ha hst).2) (h.right h₁ h₂)
    rw [hss] at hrs hrp
    exact ⟨hrs.trans (s.tail_scopesAfter _), hsp, hrp⟩

/-- The same of a function. -/
theorem FunDecl.resolve_placed : ∀ (f : FunDecl) (inClass : Bool) (w : Walk),
    f.Formed Token.Spelled → (strict = true → f.assignsOwn = false) →
      w.Settles T f.ids (f.resolve inClass w) →
      (f.resolve inClass w).scopes = w.scopes ∧ f.Placed strict T w.scopes
  | ⟨_, params, body⟩, inClass, w => by
    intro hf ha h
    rw [FunDecl.ids, FunDecl.names, FunDecl.resolve] at h
    rw [FunDecl.Formed] at hf
    rw [FunDecl.assignsOwn] at ha
    rw [FunDecl.resolve, FunDecl.Placed]
    have hi := introduce_extends (w := w.enter ∅) params
    have hb := Stmt.resolveList_extends body true inClass ((w.enter ∅).introduce params)
    have hsc : ((w.enter ∅).introduce params).scopes = Scope.ofParams params :: w.scopes :=
      introduce_ok params rfl (h.inside.left hi hb).quiet
    obtain ⟨hbs, hbp⟩ := Stmt.resolveList_placed body true inClass true _ hf.2.2
      (hsc ▸ .ofParams params w.scopes) (fun _ => rfl) ha (h.inside.right hi hb)
    rw [hsc] at hbs hbp
    exact ⟨hbs, hbp⟩

/-- The same of methods. -/
theorem FunDecl.resolveList_placed : ∀ (fs : List FunDecl) (inClass : Bool) (w : Walk),
    FunDecl.FormedList Token.Spelled fs → (strict = true → FunDecl.assignsOwnList fs = false) →
      w.Settles T ((FunDecl.namesList fs).map NameNode.id) (FunDecl.resolveList inClass fs w) →
      (FunDecl.resolveList inClass fs w).scopes = w.scopes ∧
        FunDecl.PlacedList strict T fs w.scopes
  | [], _, w => by
    intro _ _ _
    rw [FunDecl.resolveList, FunDecl.PlacedList]
    exact ⟨rfl, trivial⟩
  | f :: fs, inClass, w => by
    intro hf ha h
    rw [FunDecl.namesList, FunDecl.resolveList, List.map_append] at h
    rw [FunDecl.FormedList] at hf
    simp only [FunDecl.assignsOwnList, Bool.or_eq_false_iff] at ha
    rw [FunDecl.resolveList, FunDecl.PlacedList]
    have h₁ := f.resolve_extends inClass w
    have h₂ := FunDecl.resolveList_extends fs inClass (f.resolve inClass w)
    obtain ⟨hfs, hfp⟩ := f.resolve_placed inClass w hf.1 (fun hst => (ha hst).1) (h.left h₁ h₂)
    obtain ⟨hrs, hrp⟩ := FunDecl.resolveList_placed fs inClass _ hf.2 (fun hst => (ha hst).2)
      (h.right h₁ h₂)
    rw [hfs] at hrs hrp
    exact ⟨hrs, hfp, hrp⟩

end

end Placed

namespace Scope

/-- The walk over a program writes only the entries of the program's own nodes. -/
theorem resolve_frame (statements : List Stmt) (known : Distances) {id : NodeId}
    (hid : id ∉ statements.flatMap Stmt.ids) :
    (resolve statements known).distances.get? id = known.get? id :=
  (Stmt.resolveList_extends statements false false ⟨[], known, []⟩).distances id
    (Stmt.map_namesList statements ▸ hid)

/-- **A program without violations has its names in their places**, in every table that has what
the walk found. -/
theorem resolve_placed {statements : List Stmt} {known : Distances} {strict : Bool}
    {T : Distances → Prop} (hf : ∀ s ∈ statements, s.Formed Token.Spelled)
    (hn : (statements.flatMap Stmt.ids).Nodup)
    (hk : ∀ id ∈ statements.flatMap Stmt.ids, known.get? id = none)
    (hv : (resolve statements known).violations = [])
    (ha : strict = true → Stmt.assignsOwnList false statements = false)
    (hT : ∀ D, T D → ∀ id ∈ statements.flatMap Stmt.ids,
      D.get? id = (resolve statements known).distances.get? id) :
    Stmt.PlacedList strict T statements [] := by
  refine (Stmt.resolveList_placed statements false false false ⟨[], known, []⟩
    (Stmt.formedList_iff.2 hf) .nil (fun h => absurd rfl h) ha ⟨?_, ⟨?_, ?_⟩, ?_⟩).2
  · exact congrArg List.length hv
  · rwa [Stmt.map_namesList]
  · rwa [Stmt.map_namesList]
  · rwa [Stmt.map_namesList]

/-- Outside of all scopes, a program without violations ends outside of all scopes. -/
theorem resolveList_top {T : Distances → Prop} : ∀ (ss : List Stmt) (w : Walk),
    Stmt.FormedList Token.Spelled ss → w.scopes = [] →
      w.Settles T ((Stmt.namesList ss).map NameNode.id) (Stmt.resolveList false false ss w) →
      (Stmt.resolveList false false ss w).scopes = []
  | [], w => by
    intro _ hw _
    rwa [Stmt.resolveList]
  | s :: ss, w => by
    intro hf hw h
    rw [Stmt.namesList, Stmt.resolveList, List.map_append] at h
    rw [Stmt.FormedList] at hf
    rw [Stmt.resolveList]
    have h₁ := s.resolve_extends false false w
    have h₂ := Stmt.resolveList_extends ss false false (s.resolve false false w)
    obtain ⟨hs, -⟩ := Stmt.resolve_placed s false false false w hf.1 (hw ▸ .nil)
      (fun hne => absurd hw hne) (fun h : false = true => by cases h) (h.left h₁ h₂)
    rw [hw, Stmt.scopesAfter_nil] at hs
    exact resolveList_top ss _ hf.2 hs (h.right h₁ h₂)

/-- The walk over statements put together goes over the first ones and then over the others. -/
theorem resolveList_append (inFunction inClass : Bool) (ts : List Stmt) :
    ∀ (ss : List Stmt) (w : Walk), Stmt.resolveList inFunction inClass (ss ++ ts) w =
      Stmt.resolveList inFunction inClass ts (Stmt.resolveList inFunction inClass ss w)
  | [], w => by rw [List.nil_append, Stmt.resolveList]
  | s :: ss, w => by
    rw [List.cons_append, Stmt.resolveList, Stmt.resolveList, resolveList_append]

/-- **Programs can be walked one after the other**, the second with what the first found, if the
first has no violations. -/
theorem resolve_append {ss : List Stmt} {known : Distances}
    (hf : ∀ s ∈ ss, s.Formed Token.Spelled) (hn : (ss.flatMap Stmt.ids).Nodup)
    (hk : ∀ id ∈ ss.flatMap Stmt.ids, known.get? id = none)
    (hv : (resolve ss known).violations = []) (ts : List Stmt) :
    resolve (ss ++ ts) known = resolve ts (resolve ss known).distances := by
  have settles : Walk.Settles (fun _ => False) ((Stmt.namesList ss).map NameNode.id)
      ⟨[], known, []⟩ (Stmt.resolveList false false ss ⟨[], known, []⟩) := by
    rw [← Stmt.map_namesList] at hn hk
    exact ⟨congrArg List.length hv, ⟨hn, hk⟩, fun _ h => h.elim⟩
  have scopes := resolveList_top ss ⟨[], known, []⟩ (Stmt.formedList_iff.2 hf) rfl settles
  unfold resolve at hv ⊢
  rw [resolveList_append]
  revert scopes hv
  generalize Stmt.resolveList false false ss ⟨[], known, []⟩ = w
  intro hv scopes
  obtain ⟨_, distances, _⟩ := w
  cases scopes
  cases hv
  rfl

end Scope

end Lox
