/-
# Scopes of trees that are alike

Names are resolved by their lexemes, so trees that are alike break the same rules at related tokens,
whatever is in the table (`Scope.resolve_alike`). If both trees have their names in their places,
each by the tables that serve it, then the tables have the same distances for related nodes
(`Stmt.AlikeList.placed`).
-/

import Lox.Proofs.Scope.Placed
import Lox.Proofs.Tree.Alike

namespace Lox

open Scope (Walk Scopes)

namespace Scope

section

variable (R : Token → Token → Prop)

/-- Violations with one cause at related tokens. -/
structure Violation.Alike (v v' : Violation) : Prop where
  cause : v'.cause = v.cause
  token : R v.token v'.token

/-- Walks in the same scopes that met the same violations. -/
structure Walk.Alike (w w' : Walk) : Prop where
  scopes : w'.scopes = w.scopes
  violations : List.Forall₂ (Violation.Alike R) w.violations w'.violations

end

namespace Walk.Alike

variable {R : Token → Token → Prop} (hR : Faithful R) {w w' : Walk}
  {t t' : Token}

/-- Walks that are alike and meet one more violation each, at related tokens, are alike. -/
theorem blame (h : w.Alike R w') (cause : Cause) (ht : R t t') :
    (w.blame cause t).Alike R (w'.blame cause t') :=
  ⟨h.scopes, List.rel_append h.violations (.cons ⟨rfl, ht⟩ .nil)⟩

/-- They are alike inside one more scope. -/
theorem enter (h : w.Alike R w') (scope : Bindings Status) :
    (w.enter scope).Alike R (w'.enter scope) :=
  ⟨congrArg (scope :: ·) h.scopes, h.violations⟩

/-- They are alike when it is left. -/
theorem leave (h : w.Alike R w') : w.leave.Alike R w'.leave :=
  ⟨congrArg List.tail h.scopes, h.violations⟩

include hR

/-- A declaration of related names is alike. -/
theorem declare (h : w.Alike R w') (ht : R t t') : (w.declare t).Alike R (w'.declare t') := by
  unfold Walk.declare
  rw [h.scopes, (hR _ _ ht).lexeme]
  split
  · exact h
  · split
    · exact h.blame _ ht
    · exact ⟨rfl, h.violations⟩

/-- So is its end. -/
theorem define (h : w.Alike R w') (ht : R t t') : (w.define t).Alike R (w'.define t') := by
  unfold Walk.define
  rw [h.scopes, (hR _ _ ht).lexeme]
  split
  · exact h
  · exact ⟨rfl, h.violations⟩

/-- Related names are located alike, whatever the numbers of their nodes. -/
theorem locate (h : w.Alike R w') (ht : R t t') (id id' : NodeId) :
    (w.locate id t).Alike R (w'.locate id' t') := by
  unfold Walk.locate Walk.distance?
  rw [h.scopes, (hR _ _ ht).lexeme]
  split
  · exact ⟨rfl, h.violations⟩
  · exact h

/-- Related parameters are introduced alike. -/
theorem introduce (h : w.Alike R w') {ts ts' : List Token} (ht : List.Forall₂ R ts ts') :
    (w.introduce ts).Alike R (w'.introduce ts') := by
  induction ht generalizing w w' with
  | nil => exact h
  | cons ht _ ih => exact ih ((h.declare hR ht).define hR ht)

/-- A name is pending in both walks or in neither. -/
theorem isPending (h : w.Alike R w') (ht : R t t') :
    w'.isPending t'.lexeme = w.isPending t.lexeme := by
  rw [Walk.isPending, Walk.isPending, h.scopes, (hR _ _ ht).lexeme]

end Walk.Alike

end Scope

section Resolve

variable {R : Token → Token → Prop} {J : NodeId → NodeId → Prop}

mutual

/-- Walks over alike expressions stay alike. -/
theorem Expr.Alike.resolve (hR : Faithful R) (inClass : Bool) : ∀ {e e' : Expr} {w w' : Walk},
    e.Alike R J e' → w.Alike R w' → (e.resolve inClass w).Alike R (e'.resolve inClass w')
  | _, _, _, _, .literal _, hw => by
    rw [Expr.resolve, Expr.resolve]
    exact hw
  | _, _, _, _, .grouping he, hw | _, _, _, _, .unary _ he, hw => by
    rw [Expr.resolve, Expr.resolve]
    exact he.resolve hR inClass hw
  | _, _, _, _, .binary hl _ hr, hw | _, _, _, _, .logical hl _ hr, hw => by
    rw [Expr.resolve, Expr.resolve]
    exact hr.resolve hR inClass (hl.resolve hR inClass hw)
  | _, _, _, _, .ident _ hn, hw => by
    rw [Expr.resolve, Expr.resolve, hw.isPending hR hn]
    split
    · exact (hw.blame _ hn).locate hR hn _ _
    · exact hw.locate hR hn _ _
  | _, _, _, _, .assign _ hn he, hw => by
    rw [Expr.resolve, Expr.resolve]
    exact (he.resolve hR inClass hw).locate hR hn _ _
  | _, _, _, _, .call hf _ ha, hw => by
    rw [Expr.resolve, Expr.resolve]
    exact ha.resolve hR inClass (hf.resolve hR inClass hw)
  | _, _, _, _, .get ho _, hw => by
    rw [Expr.resolve, Expr.resolve]
    exact ho.resolve hR inClass hw
  | _, _, _, _, .set ho _ he, hw => by
    rw [Expr.resolve, Expr.resolve]
    exact ho.resolve hR inClass (he.resolve hR inClass hw)
  | _, _, _, _, .receiver _ hk, hw => by
    rw [Expr.resolve, Expr.resolve]
    split
    · exact hw.locate hR hk _ _
    · exact hw.blame _ hk

/-- The same of lists of expressions. -/
theorem Expr.AlikeList.resolve (hR : Faithful R) (inClass : Bool) :
    ∀ {es es' : List Expr} {w w' : Walk}, Expr.AlikeList R J es es' → w.Alike R w' →
      (Expr.resolveList inClass es w).Alike R (Expr.resolveList inClass es' w')
  | _, _, _, _, .nil, hw => by
    rw [Expr.resolveList, Expr.resolveList]
    exact hw
  | _, _, _, _, .cons he hs, hw => by
    rw [Expr.resolveList, Expr.resolveList]
    exact hs.resolve hR inClass (he.resolve hR inClass hw)

end

theorem Expr.resolveOption_alike (hR : Faithful R) (inClass : Bool) {e e' : Option Expr}
    {w w' : Walk} (he : Option.Rel (Expr.Alike R J) e e') (hw : w.Alike R w') :
    (Expr.resolveOption inClass e w).Alike R (Expr.resolveOption inClass e' w') := by
  cases he with
  | none => exact hw
  | some he => exact he.resolve hR inClass hw

mutual

/-- Walks over alike statements stay alike. -/
theorem Stmt.Alike.resolve (hR : Faithful R) (inFunction inClass : Bool) :
    ∀ {s s' : Stmt} {w w' : Walk}, s.Alike R J s' → w.Alike R w' →
      (s.resolve inFunction inClass w).Alike R (s'.resolve inFunction inClass w')
  | _, _, _, _, .expression he, hw | _, _, _, _, .print he, hw => by
    rw [Stmt.resolve, Stmt.resolve]
    exact he.resolve hR inClass hw
  | _, _, _, _, .var hn hi, hw => by
    rw [Stmt.resolve, Stmt.resolve]
    exact (Expr.resolveOption_alike hR inClass hi (hw.declare hR hn)).define hR hn
  | _, _, _, _, .block hs, hw => by
    rw [Stmt.resolve, Stmt.resolve]
    exact (hs.resolve hR inFunction inClass (hw.enter ∅)).leave
  | _, _, _, _, .ifThen he hs, hw => by
    rw [Stmt.resolve, Stmt.resolve]
    exact hs.resolve hR inFunction inClass (he.resolve hR inClass hw)
  | _, _, _, _, .ifElse he hs ht, hw => by
    rw [Stmt.resolve, Stmt.resolve]
    exact ht.resolve hR inFunction inClass
      (hs.resolve hR inFunction inClass (he.resolve hR inClass hw))
  | _, _, _, _, .loop he hs, hw => by
    rw [Stmt.resolve, Stmt.resolve]
    exact hs.resolve hR inFunction inClass (he.resolve hR inClass hw)
  | _, _, _, _, .function (.intro hn hp hb), hw => by
    rw [Stmt.resolve, Stmt.resolve, FunDecl.resolve, FunDecl.resolve]
    have opened := ((hw.declare hR hn).define hR hn).enter ∅
    exact (hb.resolve hR true inClass (opened.introduce hR hp)).leave
  | _, _, _, _, .ret hk hv, hw => by
    rw [Stmt.resolve, Stmt.resolve]
    refine Expr.resolveOption_alike hR inClass hv ?_
    split
    · exact hw
    · exact hw.blame _ hk
  | _, _, _, _, .classDecl hn hf, hw => by
    rw [Stmt.resolve, Stmt.resolve]
    exact (hf.resolve hR true (((hw.declare hR hn).define hR hn).enter _)).leave

/-- The same of lists of statements. -/
theorem Stmt.AlikeList.resolve (hR : Faithful R) (inFunction inClass : Bool) :
    ∀ {ss ss' : List Stmt} {w w' : Walk}, Stmt.AlikeList R J ss ss' → w.Alike R w' →
      (Stmt.resolveList inFunction inClass ss w).Alike R
        (Stmt.resolveList inFunction inClass ss' w')
  | _, _, _, _, .nil, hw => by
    rw [Stmt.resolveList, Stmt.resolveList]
    exact hw
  | _, _, _, _, .cons hs hss, hw => by
    rw [Stmt.resolveList, Stmt.resolveList]
    exact hss.resolve hR inFunction inClass (hs.resolve hR inFunction inClass hw)

/-- The same of methods. -/
theorem FunDecl.AlikeList.resolve (hR : Faithful R) (inClass : Bool) :
    ∀ {fs fs' : List FunDecl} {w w' : Walk}, FunDecl.AlikeList R J fs fs' → w.Alike R w' →
      (FunDecl.resolveList inClass fs w).Alike R (FunDecl.resolveList inClass fs' w')
  | _, _, _, _, .nil, hw => by
    rw [FunDecl.resolveList, FunDecl.resolveList]
    exact hw
  | _, _, _, _, .cons (.intro _ hp hb) hs, hw => by
    rw [FunDecl.resolveList, FunDecl.resolveList, FunDecl.resolve, FunDecl.resolve]
    exact hs.resolve hR inClass (hb.resolve hR true inClass ((hw.enter ∅).introduce hR hp)).leave

end

/-- Trees that are alike break the same rules, whatever is known already. -/
theorem Scope.resolve_alike (hR : Faithful R) {ss ss' : List Stmt}
    (h : Stmt.AlikeList R J ss ss') (known known' : Distances) : List.Forall₂ (Violation.Alike R)
      (Scope.resolve ss known).violations (Scope.resolve ss' known').violations := by
  have start : Walk.Alike R ⟨[], known, []⟩ ⟨[], known', []⟩ := ⟨rfl, .nil⟩
  exact (h.resolve hR false false start).violations

end Resolve

section Placed

variable (T T' : Distances → Prop) in
/-- The tables on either side have the same entries for the numbers. -/
def SameEntry (id id' : NodeId) : Prop := ∀ D D', T D → T' D' → D.get? id = D'.get? id'

variable {R : Token → Token → Prop} {strict strict' : Bool} {T T' : Distances → Prop}
  {scopes : Scopes}

/-- The nodes that use names have the distances of the names. -/
theorem SameEntry.of_placed (hR : Faithful R) {use use' : NameUse} {id id' : NodeId}
    {name name' : Token} (hn : R name name') (h : NameNode.Placed strict T scopes ⟨use, id, name⟩)
    (h' : NameNode.Placed strict' T' scopes ⟨use', id', name'⟩) : SameEntry T T' id id' := by
  intro D D' hD hD'
  have same : scopes.distance? name'.lexeme = scopes.distance? name.lexeme := by
    rw [(hR _ _ hn).lexeme]
  exact (h.distance D hD).trans (same.symm.trans (h'.distance D' hD').symm)

mutual

/-- Alike expressions with their names in their places have the same entries for related nodes. -/
theorem Expr.Alike.placed (hR : Faithful R) : ∀ {e e' : Expr}, e.Alike R AnyNumber e' →
    e.Placed strict T scopes → e'.Placed strict' T' scopes → e.Alike R (SameEntry T T') e'
  | _, _, .literal value, _, _ => .literal value
  | _, _, .grouping he, h, h' => by
    simp only [Expr.Placed, Expr.names] at h h'
    exact .grouping (he.placed hR h h')
  | _, _, .unary ho he, h, h' => by
    simp only [Expr.Placed, Expr.names] at h h'
    exact .unary ho (he.placed hR h h')
  | _, _, .binary hl ho hr, h, h' => by
    simp only [Expr.Placed, Expr.names, List.forall_mem_append] at h h'
    exact .binary (hl.placed hR h.1 h'.1) ho (hr.placed hR h.2 h'.2)
  | _, _, .logical hl ho hr, h, h' => by
    simp only [Expr.Placed, Expr.names, List.forall_mem_append] at h h'
    exact .logical (hl.placed hR h.1 h'.1) ho (hr.placed hR h.2 h'.2)
  | _, _, .ident _ hn, h, h' => by
    simp only [Expr.Placed, Expr.names, List.forall_mem_singleton] at h h'
    exact .ident (.of_placed hR hn h h') hn
  | _, _, .assign _ hn he, h, h' => by
    simp only [Expr.Placed, Expr.names, List.forall_mem_cons] at h h'
    exact .assign (.of_placed hR hn h.1 h'.1) hn (he.placed hR h.2 h'.2)
  | _, _, .call hf hp ha, h, h' => by
    simp only [Expr.Placed, Expr.names, List.forall_mem_append] at h h'
    exact .call (hf.placed hR h.1 h'.1) hp (ha.placed hR h.2 h'.2)
  | _, _, .get ho hn, h, h' => by
    simp only [Expr.Placed, Expr.names] at h h'
    exact .get (ho.placed hR h h') hn
  | _, _, .set ho hn he, h, h' => by
    simp only [Expr.Placed, Expr.names, List.forall_mem_append] at h h'
    exact .set (ho.placed hR h.1 h'.1) hn (he.placed hR h.2 h'.2)
  | _, _, .receiver _ hk, h, h' => by
    simp only [Expr.Placed, Expr.names, List.forall_mem_singleton] at h h'
    exact .receiver (.of_placed hR hk h h') hk

/-- The same of lists of expressions. -/
theorem Expr.AlikeList.placed (hR : Faithful R) : ∀ {es es' : List Expr},
    Expr.AlikeList R AnyNumber es es' →
    (∀ node ∈ Expr.namesList es, node.Placed strict T scopes) →
    (∀ node ∈ Expr.namesList es', node.Placed strict' T' scopes) →
      Expr.AlikeList R (SameEntry T T') es es'
  | _, _, .nil, _, _ => .nil
  | _, _, .cons he hs, h, h' => by
    simp only [Expr.namesList, List.forall_mem_append] at h h'
    exact .cons (he.placed hR h.1 h'.1) (hs.placed hR h.2 h'.2)

end

theorem Expr.option_placed (hR : Faithful R) {e e' : Option Expr}
    (he : Option.Rel (Expr.Alike R AnyNumber) e e') (h : ∀ x ∈ e, x.Placed strict T scopes)
    (h' : ∀ x ∈ e', x.Placed strict' T' scopes) :
    Option.Rel (Expr.Alike R (SameEntry T T')) e e' := by
  cases he with
  | none => exact .none
  | some he => exact .some (he.placed hR (h _ rfl) (h' _ rfl))

/-- Behind alike statements the scopes are the same. -/
theorem Stmt.Alike.scopesAfter (hR : Faithful R) {J : NodeId → NodeId → Prop} {s s' : Stmt}
    (h : s.Alike R J s') (scopes : Scopes) : s'.scopesAfter scopes = s.scopesAfter scopes := by
  cases h with
  | var hn _ => simp only [Stmt.scopesAfter, (hR _ _ hn).lexeme]
  | function hf => simp only [Stmt.scopesAfter, (hR _ _ hf.name).lexeme]
  | classDecl hn _ => simp only [Stmt.scopesAfter, (hR _ _ hn).lexeme]
  | _ => rfl

/-- Related parameters make the same scope. -/
theorem Scope.ofParams_alike (hR : Faithful R) {ps ps' : List Token}
    (h : List.Forall₂ R ps ps') : Scope.ofParams ps' = Scope.ofParams ps := by
  have same : ps'.map (fun p => (p.lexeme, Scope.Status.defined))
      = ps.map fun p => (p.lexeme, .defined) := by
    induction h with
    | nil => rfl
    | cons hp _ ih => rw [List.map_cons, List.map_cons, ih, (hR _ _ hp).lexeme]
  rw [Scope.ofParams, Scope.ofParams, same]

mutual

/-- Alike statements with their names in their places have the same entries for related nodes. -/
theorem Stmt.Alike.placed (hR : Faithful R) : ∀ {s s' : Stmt} {scopes : Scopes},
    s.Alike R AnyNumber s' → s.Placed strict T scopes → s'.Placed strict' T' scopes →
      s.Alike R (SameEntry T T') s'
  | _, _, _, .expression he, h, h' => by
    rw [Stmt.Placed] at h h'
    exact .expression (he.placed hR h h')
  | _, _, _, .print he, h, h' => by
    rw [Stmt.Placed] at h h'
    exact .print (he.placed hR h h')
  | _, _, _, .var hn hi, h, h' => by
    rw [Stmt.Placed] at h h'
    rw [(hR _ _ hn).lexeme] at h'
    exact .var hn (Expr.option_placed hR hi h.2 h'.2)
  | _, _, _, .block hs, h, h' => by
    rw [Stmt.Placed] at h h'
    exact .block (hs.placed hR h h')
  | _, _, _, .ifThen he hs, h, h' => by
    rw [Stmt.Placed] at h h'
    exact .ifThen (he.placed hR h.1 h'.1) (hs.placed hR h.2.2 h'.2.2)
  | _, _, _, .ifElse he hs ht, h, h' => by
    rw [Stmt.Placed] at h h'
    exact .ifElse (he.placed hR h.1 h'.1) (hs.placed hR h.2.1.2 h'.2.1.2)
      (ht.placed hR h.2.2.2 h'.2.2.2)
  | _, _, _, .loop he hs, h, h' => by
    rw [Stmt.Placed] at h h'
    exact .loop (he.placed hR h.1 h'.1) (hs.placed hR h.2.2 h'.2.2)
  | _, _, _, .function hf, h, h' => by
    rw [Stmt.Placed] at h h'
    rw [(hR _ _ hf.name).lexeme] at h'
    exact .function (hf.placed hR h.2 h'.2)
  | _, _, _, .ret hk hv, h, h' => by
    rw [Stmt.Placed] at h h'
    exact .ret hk (Expr.option_placed hR hv h h')
  | _, _, _, .classDecl hn hf, h, h' => by
    rw [Stmt.Placed] at h h'
    rw [(hR _ _ hn).lexeme] at h'
    exact .classDecl hn (hf.placed hR h.2 h'.2)

/-- The same of lists of statements. -/
theorem Stmt.AlikeList.placed (hR : Faithful R) : ∀ {ss ss' : List Stmt} {scopes : Scopes},
    Stmt.AlikeList R AnyNumber ss ss' → Stmt.PlacedList strict T ss scopes →
      Stmt.PlacedList strict' T' ss' scopes → Stmt.AlikeList R (SameEntry T T') ss ss'
  | _, _, _, .nil, _, _ => .nil
  | _, _, _, .cons hs hss, h, h' => by
    rw [Stmt.PlacedList] at h h'
    rw [hs.scopesAfter hR] at h'
    exact .cons (hs.placed hR h.1 h'.1) (hss.placed hR h.2 h'.2)

/-- The same of functions. -/
theorem FunDecl.Alike.placed (hR : Faithful R) : ∀ {f f' : FunDecl} {scopes : Scopes},
    f.Alike R AnyNumber f' → f.Placed strict T scopes → f'.Placed strict' T' scopes →
      f.Alike R (SameEntry T T') f'
  | _, _, _, .intro hn hp hb, h, h' => by
    rw [FunDecl.Placed] at h h'
    rw [Scope.ofParams_alike hR hp] at h'
    exact .intro hn hp (hb.placed hR h h')

/-- The same of methods. -/
theorem FunDecl.AlikeList.placed (hR : Faithful R) : ∀ {fs fs' : List FunDecl} {scopes : Scopes},
    FunDecl.AlikeList R AnyNumber fs fs' → FunDecl.PlacedList strict T fs scopes →
      FunDecl.PlacedList strict' T' fs' scopes → FunDecl.AlikeList R (SameEntry T T') fs fs'
  | _, _, _, .nil, _, _ => .nil
  | _, _, _, .cons hf hs, h, h' => by
    rw [FunDecl.PlacedList] at h h'
    exact .cons (hf.placed hR h.1 h'.1) (hs.placed hR h.2 h'.2)

end

end Placed

end Lox
