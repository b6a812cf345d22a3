/-
# The walk and the occurrences

The walk over a tree does to its violations and to its table what the rules say of the occurrences
in the tree, one after the other (`Walk.Judged`), and it comes back to the regions it started in
(`Walk.Comes`). This is shown of one use of a name (`Walk.visit_judged`), of the names that are
declared, and from there of statements (`Stmt.resolve_comes`).
-/

import Lox.Proofs.Scope.Notes
import Lox.Proofs.Scope.Regions

namespace Lox
namespace Scope

open Occurrence (findings)

namespace Occurrence

/-- The entry in the table that is made for the occurrence. There is none for a receiver that is not
inside a class. -/
def note? (before : List Occurrence) (o : Occurrence) : Option Note :=
  match o.role with
  | .uses use id =>
    if use = .receiver ∧ ¬ o.Inside .ofClass then none
    else (o.distance? before).map fun d => (id, d)
  | _ => none

/-- What is found at occurrences put together is found at either part, the second one behind the
first. -/
theorem findings_append {α : Type} (find : List Occurrence → Occurrence → Option α) :
    ∀ os os' before : List Occurrence, findings find before (os ++ os') =
      findings find before os ++ findings find (before ++ os) os'
  | [], os', before => by rw [List.nil_append, List.append_nil, findings, List.nil_append]
  | o :: os, os', before => by
    rw [List.cons_append, findings, findings, findings_append find os os', List.append_assoc,
      List.append_assoc, List.singleton_append]

end Occurrence

/-! ## One occurrence after the other -/

/-- Whether a region of the kind is among the regions. -/
def encloses (kind : RegionKind) (regions : List Region) : Bool :=
  regions.any fun r => r.kind = kind

/-- A region of the kind is around an occurrence if the occurrence is inside one. -/
theorem encloses_iff {kind : RegionKind} {o : Occurrence} :
    encloses kind o.regions = true ↔ o.Inside kind := by
  simp [encloses, Occurrence.Inside]

namespace Walk

/-- The walk from `w` to `w'` finds the violations and makes the entries of the occurrences, which
come behind those before them. -/
structure Judged (before os : List Occurrence) (w w' : Walk) : Prop where
  violations : w'.violations = w.violations ++ findings Occurrence.violation? before os
  distances : w'.distances = w.distances.noting (findings Occurrence.note? before os)

/-- One step of the walk over an expression. -/
def visit (inClass : Bool) (w : Walk) (node : NameNode) : Walk :=
  match node.use with
  | .read =>
    let w := if w.isPending node.name.lexeme then w.blame .ownInitializer node.name else w
    w.locate node.id node.name
  | .write => w.locate node.id node.name
  | .receiver =>
    if inClass then w.locate node.id node.name else w.blame .strayReceiver node.name

variable {before os os' : List Occurrence} {pos : Position} {regions : List Region}
  {w w' w'' : Walk}

/-- Without occurrences nothing is found. -/
theorem Judged.refl (before : List Occurrence) (w : Walk) : Judged before [] w w :=
  ⟨(List.append_nil _).symm, rfl⟩

/-- A walk over some occurrences and then over others finds what both find. -/
theorem Judged.trans (h : Judged before os w w') (h' : Judged (before ++ os) os' w' w'') :
    Judged before (os ++ os') w w'' where
  violations := by
    rw [h'.violations, h.violations, List.append_assoc, Occurrence.findings_append]
  distances := by
    rw [h'.distances, h.distances, Occurrence.findings_append, Distances.noting,
      Distances.noting, Distances.noting, List.foldl_append]

/-- What one occurrence comes to. -/
theorem Judged.of_one {o : Occurrence}
    (hv : w'.violations = w.violations ++ (o.violation? before).toList)
    (hd : w'.distances = w.distances.noting (o.note? before).toList) :
    Judged before [o] w w' := by
  refine ⟨?_, ?_⟩
  · rw [hv, findings, findings, List.append_nil]
  · rw [hd, findings, findings, List.append_nil]

/-- Locating a name is no violation. -/
theorem locate_violations (id : NodeId) (name : Token) :
    (w.locate id name).violations = w.violations := by
  unfold locate
  split <;> rfl

/-- Locating a name makes an entry if it has a distance. -/
theorem locate_noting (id : NodeId) (name : Token) :
    (w.locate id name).distances =
      w.distances.noting ((w.distance? name.lexeme).map fun d => (id, d)).toList := by
  unfold locate
  cases w.distance? name.lexeme <;> rfl

/-- A step over an expression leaves the scopes. -/
theorem visit_scopes (inClass : Bool) (node : NameNode) :
    (w.visit inClass node).scopes = w.scopes := by
  unfold visit
  split
  · dsimp only
    rw [locate_scopes]
    split <;> rfl
  · exact locate_scopes ..
  · split
    · exact locate_scopes ..
    · rfl

/-- **One step** finds what the rules say of the use of the name. -/
theorem visit_judged (h : Sees before pos regions w) (node : NameNode) :
    Judged before [.ofNode pos regions node] w (w.visit (encloses .ofClass regions) node) := by
  obtain ⟨use, id, name⟩ := node
  generalize ho : Occurrence.ofNode pos regions ⟨use, id, name⟩ = o
  have role : o.role = .uses use id := ho ▸ rfl
  have token : o.token = name := ho ▸ rfl
  have distance : w.distance? name.lexeme = o.distance? before := ho ▸ h.distance? name.lexeme
  have located : o.note? before = (w.distance? name.lexeme).map (fun d => (id, d)) ∨
      use = .receiver ∧ ¬ o.Inside .ofClass := by
    by_cases hr : use = .receiver ∧ ¬ o.Inside .ofClass
    · exact .inr hr
    · simp only [Occurrence.note?, role, if_neg hr, distance, true_or]
  cases use with
  | read =>
    have noted := located.resolve_right (by simp)
    have pending : w.isPending name.lexeme = true ↔ o.ReadsOwn before :=
      ho ▸ h.pending name.lexeme
    by_cases hp : o.ReadsOwn before
    · have step : w.visit (encloses .ofClass regions) ⟨.read, id, name⟩ =
          (w.blame .ownInitializer name).locate id name := by simp [visit, pending.2 hp]
      rw [step]
      refine .of_one ?_ ?_
      · simp [locate_violations, blame, Occurrence.violation?, Occurrence.cause?, role, token, hp]
      · rw [locate_noting, noted]
        rfl
    · have step : w.visit (encloses .ofClass regions) ⟨.read, id, name⟩ = w.locate id name := by
        simp [visit, mt pending.1 hp]
      rw [step]
      refine .of_one ?_ ?_
      · simp [locate_violations, Occurrence.violation?, Occurrence.cause?, role, hp]
      · rw [locate_noting, noted]
  | write =>
    refine .of_one ?_ ?_
    · simp [visit, locate_violations, Occurrence.violation?, Occurrence.cause?, role]
    · rw [located.resolve_right (by simp)]
      exact locate_noting ..
  | receiver =>
    have inside : encloses .ofClass regions = true ↔ o.Inside .ofClass :=
      ho ▸ encloses_iff (o := .ofNode pos regions ⟨.receiver, id, name⟩)
    by_cases hi : o.Inside .ofClass
    · refine .of_one ?_ ?_
      · simp [visit, inside.2 hi, locate_violations, Occurrence.violation?, Occurrence.cause?, role,
          hi]
      · rw [located.resolve_right (by simp [hi])]
        simpa [visit, inside.2 hi] using locate_noting ..
    · refine .of_one ?_ ?_
      · simp [visit, mt inside.1 hi, blame, Occurrence.violation?, Occurrence.cause?, role, token,
          hi]
      · simp [visit, mt inside.1 hi, blame, Occurrence.note?, role, hi, Distances.noting]

/-- The steps over the uses of an expression find what the rules say of them. -/
theorem visitAll_judged : ∀ (nodes : List NameNode) {before : List Occurrence} {w : Walk},
    Sees before pos regions w → Judged before (nodes.map (.ofNode pos regions)) w
      (nodes.foldl (visit (encloses .ofClass regions)) w)
  | [], _, _, _ => .refl _ _
  | node :: nodes, before, w, h => by
    have next : Sees (before ++ [.ofNode pos regions node]) pos regions
        (w.visit (encloses .ofClass regions) node) :=
      h.past (visit_scopes ..) (by simp [Occurrence.ofNode])
    exact (visit_judged h node).trans (visitAll_judged nodes next)

/-- They leave the scopes. -/
theorem visitAll_scopes (inClass : Bool) : ∀ (nodes : List NameNode) (w : Walk),
    (nodes.foldl (visit inClass) w).scopes = w.scopes
  | [], _ => rfl
  | node :: nodes, _ => (visitAll_scopes inClass nodes _).trans (visit_scopes inClass node)

end Walk

end Scope

open Scope

/-! ## Expressions -/

namespace Expr

mutual

/-- The walk over an expression goes from node to node. -/
theorem resolve_eq_foldl (inClass : Bool) : ∀ (e : Expr) (w : Walk),
    e.resolve inClass w = e.met.foldl (Walk.visit inClass) w
  | literal _, _ => by
    rw [resolve, met]
    rfl
  | grouping inner, w => by
    rw [resolve, met]
    exact inner.resolve_eq_foldl inClass w
  | unary _ operand, w => by
    rw [resolve, met]
    exact operand.resolve_eq_foldl inClass w
  | binary left _ right, w => by
    rw [resolve, met, List.foldl_append, left.resolve_eq_foldl, right.resolve_eq_foldl]
  | logical left _ right, w => by
    rw [resolve, met, List.foldl_append, left.resolve_eq_foldl, right.resolve_eq_foldl]
  | ident _ _, _ => by
    rw [resolve, met]
    rfl
  | assign _ _ value, _ => by
    rw [resolve, met, List.foldl_append, value.resolve_eq_foldl]
    rfl
  | call callee _ args, _ => by
    rw [resolve, met, List.foldl_append, callee.resolve_eq_foldl, resolveList_eq_foldl]
  | get object _, w => by
    rw [resolve, met]
    exact object.resolve_eq_foldl inClass w
  | set object _ value, _ => by
    rw [resolve, met, List.foldl_append, value.resolve_eq_foldl, object.resolve_eq_foldl]
  | receiver _ _, _ => by
    rw [resolve, met]
    rfl

/-- The walk over expressions goes from use to use. -/
theorem resolveList_eq_foldl (inClass : Bool) : ∀ (es : List Expr) (w : Walk),
    resolveList inClass es w = (metList es).foldl (Walk.visit inClass) w
  | [], _ => by
    rw [resolveList, metList]
    rfl
  | e :: es, _ => by
    rw [resolveList, metList, List.foldl_append, e.resolve_eq_foldl, resolveList_eq_foldl]

end

/-- So does the walk over an expression that may be missing. -/
theorem resolveOption_eq_foldl (inClass : Bool) : ∀ (e : Option Expr) (w : Walk),
    resolveOption inClass e w = (metOption e).foldl (Walk.visit inClass) w
  | none, _ => rfl
  | some e, w => e.resolve_eq_foldl inClass w

end Expr

/-! ## Statements -/

namespace Scope.Walk

/-- The walk from `w` to `w'` over the occurrences ends inside the regions where it started. -/
structure Comes (before os : List Occurrence) (regions : List Region) (w w' : Walk) : Prop where
  judged : Judged before os w w'
  shows : Shows (before ++ os) regions w'.scopes

section

variable {before os os' : List Occurrence} {pos : Position} {i : Nat} {regions : List Region}
  {w w' w'' : Walk} {name : Token}

/-- A walk over nothing stays inside its regions. -/
theorem Comes.refl (h : Shows before regions w.scopes) : Comes before [] regions w w :=
  ⟨.refl before w, (List.append_nil before).symm ▸ h⟩

/-- Walks one behind the other come back if both do. -/
theorem Comes.trans (h : Comes before os regions w w')
    (h' : Comes (before ++ os) os' regions w' w'') : Comes before (os ++ os') regions w w'' :=
  ⟨h.judged.trans h'.judged, List.append_assoc .. ▸ h'.shows⟩

/-- A scope that is closed again leaves those around it. -/
theorem Comes.inside {scope : Bindings Status} {r : Region}
    (h : Comes before os (r :: regions) (w.enter scope) w') :
    Comes before os regions w w'.leave := by
  refine ⟨⟨h.judged.violations, h.judged.distances⟩, ?_⟩
  have shows := h.shows
  unfold leave
  generalize w'.scopes = scopes at shows
  cases shows with
  | cons _ outer => exact outer

/-- Expressions of the statement at the position. -/
theorem Comes.of_nodes (nodes : List NameNode) (h : Shows before regions w.scopes)
    (ho : ∀ o ∈ before, o.role = .declares → o.statement ≠ pos) :
    Comes before (nodes.map (.ofNode pos regions)) regions w
      (nodes.foldl (visit (encloses .ofClass regions)) w) := by
  refine ⟨visitAll_judged nodes (h.sees ho), ?_⟩
  rw [visitAll_scopes]
  exact h.past (by simp [Occurrence.ofNode])

/-- A name that is declared breaks the rule if its scope has it. -/
theorem declare_judged (h : Shows before regions w.scopes)
    (hk : Declaring regions) :
    Judged before [⟨.declares, name, pos, regions⟩] w (w.declare name) := by
  refine .of_one ?_ (declare_distances name)
  obtain ⟨scopes, distances, violations⟩ := w
  cases h with
  | nil => simp [declare, Occurrence.violation?, Occurrence.cause?, Occurrence.Redeclares]
  | @cons scope r scopes rs hm hs =>
    have contains : scope.contains name.lexeme = true ↔
        Occurrence.Redeclares before ⟨.declares, name, pos, r :: rs⟩ := by
      rw [hm.contains_iff, Occurrence.holds_iff_of_ne (hk r rfl)]
      simp [Occurrence.Redeclares]
    by_cases hc : scope.contains name.lexeme = true
    · simp [declare, hc, blame, Occurrence.violation?, Occurrence.cause?, contains.1 hc]
    · simp [declare, hc, Occurrence.violation?, Occurrence.cause?, mt contains.2 hc]

/-- The end of a declaration finds nothing. -/
theorem Judged.define (h : Judged before os w w') (name : Token) :
    Judged before os w (w'.define name) :=
  ⟨(define_violations name).trans h.violations, (define_distances name).trans h.distances⟩

/-- Defining a name makes up for what declaring it did to its scope. -/
theorem put_declare (name : Token) :
    Scopes.put name.lexeme .defined (w.declare name).scopes =
      Scopes.put name.lexeme .defined w.scopes := by
  obtain ⟨scopes, distances, violations⟩ := w
  cases scopes with
  | nil => rfl
  | cons scope outer =>
    unfold declare
    dsimp only
    split
    · rfl
    · exact Scopes.put_put (scope :: outer) name.lexeme .declared .defined

/-- The declaration of a name finds what the rules say, and the region holds the name. -/
theorem Comes.of_declare (name : Token) (pos : Position) (h : Shows before regions w.scopes)
    (hn : regions.Nodup) (hk : Declaring regions) :
    Comes before [⟨.declares, name, pos, regions⟩] regions w
      ((w.declare name).define name) := by
  refine ⟨(declare_judged h hk).define name, ?_⟩
  rw [define_scopes, put_declare]
  exact h.put hn

/-- Parameters are declared one after the other. -/
theorem Comes.of_introduce (pos : Position) (hn : regions.Nodup) (hk : Declaring regions) :
    ∀ (params : List Token) {before : List Occurrence} {w : Walk}, Shows before regions w.scopes →
      Comes before (params.map (⟨.declares, ·, pos, regions⟩)) regions w (w.introduce params)
  | [], _, _, h => .refl h
  | name :: params, _, _, h => by
    have first := Comes.of_declare name pos h hn hk
    exact first.trans (Comes.of_introduce pos hn hk params first.shows)

/-- The name of a variable, then its initializer. -/
theorem Comes.of_variable (nodes : List NameNode) (h : Shows before regions w.scopes)
    (hn : regions.Nodup) (hk : Declaring regions)
    (ho : ∀ o ∈ before, o.statement ≠ pos) :
    Comes before (⟨.declares, name, pos, regions⟩ :: nodes.map (.ofNode pos regions)) regions w
      ((nodes.foldl (visit (encloses .ofClass regions)) (w.declare name)).define name) := by
  have inside := visitAll_judged nodes (h.sees_declared name hk hn ho)
  refine ⟨((declare_judged h hk).trans inside).define name, ?_⟩
  rw [define_scopes, visitAll_scopes, put_declare, List.append_cons]
  exact (h.put hn).past (by simp [Occurrence.ofNode])

/-- A `return`, then its value. -/
theorem Comes.of_return (nodes : List NameNode) (h : Shows before regions w.scopes)
    (ho : ∀ o ∈ before, o.statement ≠ pos) (keyword : Token) :
    Comes before (⟨.returns, keyword, pos, regions⟩ :: nodes.map (.ofNode pos regions)) regions w
      (nodes.foldl (visit (encloses .ofClass regions))
        (if encloses .function regions then w else w.blame .topLevelReturn keyword)) := by
  have inside : encloses .function regions = true ↔
      Occurrence.Inside .function ⟨.returns, keyword, pos, regions⟩ :=
    encloses_iff (o := ⟨.returns, keyword, pos, regions⟩)
  have first : Comes before [⟨.returns, keyword, pos, regions⟩] regions w
      (if encloses .function regions then w else w.blame .topLevelReturn keyword) := by
    by_cases hf : encloses .function regions = true
    · rw [if_pos hf]
      refine ⟨.of_one ?_ rfl, h.past (by simp)⟩
      simp [Occurrence.violation?, Occurrence.cause?, inside.1 hf]
    · rw [if_neg hf]
      refine ⟨.of_one ?_ rfl, h.past (by simp)⟩
      simp [blame, Occurrence.violation?, Occurrence.cause?, mt inside.2 hf]
  refine first.trans (Comes.of_nodes nodes first.shows ?_)
  refine List.forall_mem_append.2 ⟨fun o hm _ => ho o hm, ?_⟩
  simp

end

end Scope.Walk

open Scope.Walk

/-- Occurrences of the statement itself are at its position and in its regions. -/
theorem Scope.Occurrence.own_nodes (pos : Position) (regions : List Region)
    (nodes : List NameNode) : ∀ o ∈ nodes.map (ofNode pos regions),
      o.statement = pos ∧ o.regions = regions := by
  intro o ho
  obtain ⟨node, -, rfl⟩ := List.mem_map.1 ho
  exact ⟨rfl, rfl⟩

mutual

/-- **The walk over a statement** finds what the rules say of the occurrences in it. -/
theorem Stmt.resolve_comes : ∀ (s : Stmt) {before : List Occurrence} {pos : Position} {i : Nat}
    {regions : List Region} {w : Walk}, Ahead before pos i regions →
    Declaring regions → Shows before regions w.scopes →
      Comes before (s.occurrences (i :: pos) regions) regions w
        (s.resolve (encloses .function regions) (encloses .ofClass regions) w)
  | .expression e, _, _, _, _, _, ha, _, h | .print e, _, _, _, _, _, ha, _, h => by
    rw [Stmt.occurrences, Stmt.resolve, Expr.resolve_eq_foldl]
    exact .of_nodes e.met h fun o hm _ => ha.fresh o hm
  | .var name init, _, _, _, _, _, ha, hk, h => by
    rw [Stmt.occurrences, Stmt.resolve, Expr.resolveOption_eq_foldl]
    exact .of_variable (Expr.metOption init) h ha.nodup hk ha.fresh
  | .block body, _, _, _, _, _, ha, _, h => by
    rw [Stmt.occurrences, Stmt.resolve]
    have opened : Shows _ (⟨_, .block⟩ :: _) (∅ :: _) := h.enter (by simp) ha.apart
    exact (Stmt.resolveList_comes body (w := Walk.enter _ ∅) (ha.down.enter ha.position_ne .block)
      (by simp [Declaring]) opened).inside
  | .branch cond thenB none, _, _, _, _, _, ha, hk, h => by
    rw [Stmt.occurrences, Stmt.resolve, Expr.resolve_eq_foldl]
    have first := Comes.of_nodes cond.met h fun o hm _ => ha.fresh o hm
    have inside := ha.down.stay (Occurrence.own_nodes _ _ cond.met)
    exact first.trans (thenB.resolve_comes inside hk first.shows)
  | .branch cond thenB (some elseB), _, _, _, _, _, ha, hk, h => by
    rw [Stmt.occurrences, Stmt.resolve, Expr.resolve_eq_foldl]
    have first := Comes.of_nodes cond.met h fun o hm _ => ha.fresh o hm
    have inside := ha.down.stay (Occurrence.own_nodes _ _ cond.met)
    have second := first.trans (thenB.resolve_comes inside hk first.shows)
    have within := thenB.occurrences_within (Region.position_suffix_cons inside.within 0)
    have rest := inside.next within
    rw [List.append_assoc] at rest
    exact second.trans (elseB.resolve_comes rest hk second.shows)
  | .loop cond body, _, _, _, _, _, ha, hk, h => by
    rw [Stmt.occurrences, Stmt.resolve, Expr.resolve_eq_foldl]
    have first := Comes.of_nodes cond.met h fun o hm _ => ha.fresh o hm
    have inside := ha.down.stay (Occurrence.own_nodes _ _ cond.met)
    exact first.trans (body.resolve_comes inside hk first.shows)
  | .function decl, before, pos, i, regions, _, ha, hk, h => by
    rw [Stmt.occurrences, Stmt.resolve]
    have first := Comes.of_declare decl.name (i :: pos) h ha.nodup hk
    have inside : Ahead (before ++ [⟨.declares, decl.name, i :: pos, regions⟩]) (i :: pos) 0
        regions := ha.down.stay (by simp)
    refine first.trans (decl.resolve_comes inside ha.position_ne ?_ first.shows)
    -- The name stands at the position too, but in the regions around the function.
    exact List.forall_mem_append.2 ⟨ha.apart, by simpa using ha.position_ne⟩
  | .ret keyword value, _, _, _, _, _, ha, _, h => by
    rw [Stmt.occurrences, Stmt.resolve, Expr.resolveOption_eq_foldl]
    exact .of_return (Expr.metOption value) h ha.fresh keyword
  | .classDecl name methods, before, pos, i, regions, _, ha, hk, h => by
    rw [Stmt.occurrences, Stmt.resolve]
    have first := Comes.of_declare name (i :: pos) h ha.nodup hk
    have inside : Ahead (before ++ [⟨.declares, name, i :: pos, regions⟩]) (i :: pos) 0
        regions := ha.down.stay (by simp)
    have apart : ∀ o ∈ before ++ [⟨.declares, name, i :: pos, regions⟩], ∀ r ∈ o.regions,
        r.position ≠ i :: pos :=
      List.forall_mem_append.2 ⟨ha.apart, by simpa using ha.position_ne⟩
    have opened : Shows _ (⟨_, .ofClass⟩ :: _) (Scope.ofClass :: _) :=
      first.shows.enter (by simp [Scope.ofClass, eq_comm]) apart
    exact first.trans (FunDecl.resolveList_comes methods (w := Walk.enter _ Scope.ofClass)
      (inside.enter ha.position_ne .ofClass) opened).inside

/-- The walk over statements finds what the rules say of their occurrences, and comes back. -/
theorem Stmt.resolveList_comes : ∀ (ss : List Stmt) {before : List Occurrence} {pos : Position}
    {i : Nat} {regions : List Region} {w : Walk}, Ahead before pos i regions →
    Declaring regions → Shows before regions w.scopes →
      Comes before (Stmt.occurrencesList pos i regions ss) regions w
        (Stmt.resolveList (encloses .function regions) (encloses .ofClass regions) ss w)
  | [], _, _, _, _, _, _, _, h => by
    rw [Stmt.occurrencesList, Stmt.resolveList]
    exact .refl h
  | s :: ss, _, _, i, _, _, ha, hk, h => by
    rw [Stmt.occurrencesList, Stmt.resolveList]
    have first := s.resolve_comes ha hk h
    have rest := ha.next (s.occurrences_within (Region.position_suffix_cons ha.within i))
    exact first.trans (Stmt.resolveList_comes ss rest hk first.shows)

/-- The same of a function, inside a region of its own. -/
theorem FunDecl.resolve_comes : ∀ (f : FunDecl) {before : List Occurrence} {pos : Position}
    {regions : List Region} {w : Walk}, Ahead before pos 0 regions →
    (∀ r ∈ regions, r.position ≠ pos) →
    (∀ o ∈ before, ∀ r ∈ o.regions, r.position ≠ pos) → Shows before regions w.scopes →
      Comes before (f.occurrences pos regions) regions w
        (f.resolve (encloses .ofClass regions) w)
  | ⟨_, params, body⟩, before, pos, regions, w, ha, hp, ho, h => by
    rw [FunDecl.occurrences, FunDecl.resolve]
    have opened : Shows _ (⟨pos, .function⟩ :: regions) (∅ :: w.scopes) := h.enter (by simp) ho
    have inside := ha.enter hp .function
    have first := Comes.of_introduce pos inside.nodup (by simp [Declaring]) params
      (w := w.enter ∅) opened
    have rest : Ahead (before ++ params.map (⟨.declares, ·, pos, ⟨pos, .function⟩ :: regions⟩))
        pos 0 (⟨pos, .function⟩ :: regions) := inside.stay (by simp)
    have body := Stmt.resolveList_comes body rest (by simp [Declaring]) first.shows
    exact (first.trans body).inside

/-- The same of the methods of a class. -/
theorem FunDecl.resolveList_comes : ∀ (fs : List FunDecl) {before : List Occurrence}
    {pos : Position} {i : Nat} {regions : List Region} {w : Walk}, Ahead before pos i regions →
    Shows before regions w.scopes →
      Comes before (FunDecl.occurrencesList pos i regions fs) regions w
        (FunDecl.resolveList (encloses .ofClass regions) fs w)
  | [], _, _, _, _, _, _, h => by
    rw [FunDecl.occurrencesList, FunDecl.resolveList]
    exact .refl h
  | f :: fs, _, _, i, _, _, ha, h => by
    rw [FunDecl.occurrencesList, FunDecl.resolveList]
    have first := f.resolve_comes ha.down ha.position_ne ha.apart h
    have rest := ha.next (f.occurrences_within (Region.position_suffix_cons ha.within i))
    exact first.trans (FunDecl.resolveList_comes fs rest first.shows)

end

end Lox
