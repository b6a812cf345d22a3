/-
# The entries that a walk makes

A walk over a tree makes entries in the table of distances, one after the other: `Stmt.notes` lists
them. The table that the walk leaves is the one it was given with these entries made, and there are
no more entries of a number than nodes that have it (`Stmt.resolve_records`).
-/

import Lox.Proofs.Scope.Walk

namespace Lox

open Scope (Walk)

/-- An entry in the table of distances: the number of a node, and its distance. -/
abbrev Note := NodeId × Nat

/-- Makes entries one after the other. -/
def Distances.noting (D : Distances) (notes : List Note) : Distances :=
  notes.foldl (fun D note => D.insert note.1 note.2) D

/-- The entry that is made for a node, unless its name is global. -/
def Scope.Walk.note (w : Walk) (id : NodeId) (name : Token) : List Note :=
  match w.distance? name.lexeme with
  | some d => [(id, d)]
  | none => []

namespace Expr

mutual

/-- The entries that the walk over an expression makes. -/
def notes (inClass : Bool) : Expr → Walk → List Note
  | literal _, _ => []
  | grouping inner, w => inner.notes inClass w
  | unary _ operand, w => operand.notes inClass w
  | binary left _ right, w =>
    left.notes inClass w ++ right.notes inClass (left.resolve inClass w)
  | logical left _ right, w =>
    left.notes inClass w ++ right.notes inClass (left.resolve inClass w)
  | ident id name, w => w.note id name
  | assign id name value, w =>
    value.notes inClass w ++ (value.resolve inClass w).note id name
  | call callee _ args, w =>
    callee.notes inClass w ++ notesList inClass args (callee.resolve inClass w)
  | get object _, w => object.notes inClass w
  | set object _ value, w =>
    value.notes inClass w ++ object.notes inClass (value.resolve inClass w)
  | receiver id keyword, w => if inClass then w.note id keyword else []

/-- The entries that the walk over expressions makes. -/
def notesList (inClass : Bool) : List Expr → Walk → List Note
  | [], _ => []
  | e :: es, w => e.notes inClass w ++ notesList inClass es (e.resolve inClass w)

end

/-- The entries that the walk over an optional expression makes. -/
def notesOption (inClass : Bool) : Option Expr → Walk → List Note
  | none, _ => []
  | some e, w => e.notes inClass w

end Expr

mutual

/-- The entries that the walk over a statement makes. -/
def Stmt.notes (inFunction inClass : Bool) : Stmt → Walk → List Note
  | .expression e, w => e.notes inClass w
  | .print e, w => e.notes inClass w
  | .var name init, w => Expr.notesOption inClass init (w.declare name)
  | .block body, w => Stmt.notesList inFunction inClass body (w.enter ∅)
  | .branch cond thenB none, w =>
    cond.notes inClass w ++ thenB.notes inFunction inClass (cond.resolve inClass w)
  | .branch cond thenB (some elseB), w =>
    cond.notes inClass w ++ thenB.notes inFunction inClass (cond.resolve inClass w) ++
      elseB.notes inFunction inClass (thenB.resolve inFunction inClass (cond.resolve inClass w))
  | .loop cond body, w =>
    cond.notes inClass w ++ body.notes inFunction inClass (cond.resolve inClass w)
  | .function decl, w => decl.notes inClass ((w.declare decl.name).define decl.name)
  | .ret keyword value, w =>
    Expr.notesOption inClass value (if inFunction then w else w.blame .topLevelReturn keyword)
  | .classDecl name methods, w =>
    FunDecl.notesList true methods (((w.declare name).define name).enter Scope.ofClass)

/-- The entries that the walk over statements makes. -/
def Stmt.notesList (inFunction inClass : Bool) : List Stmt → Walk → List Note
  | [], _ => []
  | s :: ss, w =>
    s.notes inFunction inClass w ++
      Stmt.notesList inFunction inClass ss (s.resolve inFunction inClass w)

/-- The entries that the walk over a function makes. -/
def FunDecl.notes (inClass : Bool) : FunDecl → Walk → List Note
  | ⟨_, params, body⟩, w => Stmt.notesList true inClass body ((w.enter ∅).introduce params)

/-- The entries that the walk over functions makes. -/
def FunDecl.notesList (inClass : Bool) : List FunDecl → Walk → List Note
  | [], _ => []
  | f :: fs, w => f.notes inClass w ++ FunDecl.notesList inClass fs (f.resolve inClass w)

end

namespace Scope.Walk

/-- `w'` comes from `w` by a walk over the nodes that makes the entries, none of them more often
than there are nodes for it. -/
structure Records (nodes : List NameNode) (notes : List Note) (w w' : Walk) : Prop where
  table : w'.distances = w.distances.noting notes
  count : ∀ id, (notes.map Prod.fst).count id ≤ (nodes.map NameNode.id).count id

namespace Records

variable {nodes nodes' : List NameNode} {notes notes' : List Note} {w w' w'' : Walk}

/-- A walk over nothing makes no entries. -/
theorem refl (w : Walk) : Records [] [] w w := ⟨rfl, fun _ => Nat.le_refl _⟩

/-- A walk over some nodes and then over others makes the entries of both. -/
theorem trans (h : Records nodes notes w w') (h' : Records nodes' notes' w' w'') :
    Records (nodes ++ nodes') (notes ++ notes') w w'' := by
  refine ⟨?_, fun id => ?_⟩
  · rw [h'.table, h.table, Distances.noting, Distances.noting, Distances.noting, List.foldl_append]
  · have := h.count id
    have := h'.count id
    simp only [List.map_append, List.count_append]
    omega

/-- The order of the nodes does not matter. -/
theorem perm (h : Records nodes notes w w') (hp : nodes.Perm nodes') :
    Records nodes' notes w w' :=
  ⟨h.table, fun id => by rw [← (hp.map NameNode.id).count_eq]; exact h.count id⟩

/-- Steps that leave the table alone may come before. -/
theorem of_table (h : Records nodes notes w w') (ht : w.distances = w''.distances) :
    Records nodes notes w'' w' := ⟨ht ▸ h.table, h.count⟩

/-- They may also come behind. -/
theorem then_table (h : Records nodes notes w w') (ht : w''.distances = w'.distances) :
    Records nodes notes w w'' := ⟨ht.trans h.table, h.count⟩

/-- To enter a scope and leave it makes no entries. -/
theorem inside {scope : Bindings Status} (h : Records nodes notes (w.enter scope) w') :
    Records nodes notes w w'.leave := ⟨h.table, h.count⟩

end Records

variable {w : Walk}

/-- Outside of all scopes no entry is made. -/
theorem note_outside {id : NodeId} {name : Token} (h : w.scopes = []) : w.note id name = [] := by
  rw [note, distance?, h]
  rfl

/-- Locating a name makes the entry of its node. -/
theorem locate_records (use : NameUse) (id : NodeId) (name : Token) :
    Records [⟨use, id, name⟩] (w.note id name) w (w.locate id name) := by
  unfold note locate
  cases w.distance? name.lexeme with
  | none => exact ⟨rfl, fun _ => Nat.zero_le _⟩
  | some d => exact ⟨rfl, fun _ => Nat.le_refl _⟩

/-- A declaration makes no entries. -/
theorem declare_distances (name : Token) : (w.declare name).distances = w.distances := by
  unfold declare
  split
  · rfl
  · split <;> rfl

/-- Introducing parameters makes no entries. -/
theorem introduce_distances : ∀ (names : List Token) {w : Walk},
    (w.introduce names).distances = w.distances
  | [], _ => rfl
  | name :: names, w => by
    rw [introduce, introduce_distances names, define_distances, declare_distances]

end Scope.Walk

open Scope.Walk

namespace Expr

mutual

/-- The walk over an expression makes its entries. -/
theorem resolve_records (inClass : Bool) : ∀ (e : Expr) (w : Walk),
    Records e.names (e.notes inClass w) w (e.resolve inClass w)
  | .literal _, w => by
    rw [names, notes, resolve]
    exact .refl w
  | .grouping inner, w => by
    rw [names, notes, resolve]
    exact inner.resolve_records inClass w
  | .unary _ operand, w => by
    rw [names, notes, resolve]
    exact operand.resolve_records inClass w
  | .binary left _ right, w | .logical left _ right, w => by
    rw [names, notes, resolve]
    exact (left.resolve_records inClass w).trans (right.resolve_records inClass _)
  | .ident id name, w => by
    rw [names, notes, resolve]
    by_cases hp : w.isPending name.lexeme = true
    · simp only [hp, if_true]
      exact (locate_records (w := w.blame .ownInitializer name) .read id name).of_table rfl
    · simp only [hp]
      exact locate_records .read id name
  | .assign id name value, w => by
    rw [names, notes, resolve]
    exact ((value.resolve_records inClass w).trans (locate_records .write id name)).perm
      List.perm_append_comm
  | .call callee _ args, w => by
    rw [names, notes, resolve]
    exact (callee.resolve_records inClass w).trans (resolveList_records inClass args _)
  | .get object _, w => by
    rw [names, notes, resolve]
    exact object.resolve_records inClass w
  | .set object _ value, w => by
    rw [names, notes, resolve]
    exact ((value.resolve_records inClass w).trans (object.resolve_records inClass _)).perm
      List.perm_append_comm
  | .receiver id keyword, w => by
    rw [names, notes, resolve]
    cases inClass with
    | true => exact locate_records .receiver id keyword
    | false => exact ⟨rfl, fun _ => Nat.zero_le _⟩

/-- The same of a list of expressions. -/
theorem resolveList_records (inClass : Bool) : ∀ (es : List Expr) (w : Walk),
    Records (namesList es) (notesList inClass es w) w (resolveList inClass es w)
  | [], w => by
    rw [namesList, notesList, resolveList]
    exact .refl w
  | e :: es, w => by
    rw [namesList, notesList, resolveList]
    exact (e.resolve_records inClass w).trans (resolveList_records inClass es _)

end

/-- The same of an expression that may be missing. -/
theorem resolveOption_records (inClass : Bool) : ∀ (e : Option Expr) (w : Walk),
    Records (namesOption e) (notesOption inClass e w) w (resolveOption inClass e w)
  | none, w => .refl w
  | some e, w => e.resolve_records inClass w

end Expr

mutual

/-- The walk over a statement makes its entries. -/
theorem Stmt.resolve_records : ∀ (s : Stmt) (inFunction inClass : Bool) (w : Walk),
    Records s.names (s.notes inFunction inClass w) w (s.resolve inFunction inClass w)
  | .expression e, _, inClass, w | .print e, _, inClass, w => by
    rw [Stmt.names, Stmt.notes, Stmt.resolve]
    exact e.resolve_records inClass w
  | .var name init, _, inClass, w => by
    rw [Stmt.names, Stmt.notes, Stmt.resolve]
    have inside := Expr.resolveOption_records inClass init (w.declare name)
    exact (inside.of_table (declare_distances name)).then_table (define_distances name)
  | .block body, inFunction, inClass, w => by
    rw [Stmt.names, Stmt.notes, Stmt.resolve]
    exact (Stmt.resolveList_records body inFunction inClass (w.enter ∅)).inside
  | .branch cond thenB none, inFunction, inClass, w => by
    rw [Stmt.names, Stmt.notes, Stmt.resolve]
    exact (cond.resolve_records inClass w).trans (thenB.resolve_records inFunction inClass _)
  | .branch cond thenB (some elseB), inFunction, inClass, w => by
    rw [Stmt.names, Stmt.notes, Stmt.resolve]
    exact ((cond.resolve_records inClass w).trans
      (thenB.resolve_records inFunction inClass _)).trans
        (elseB.resolve_records inFunction inClass _)
  | .loop cond body, inFunction, inClass, w => by
    rw [Stmt.names, Stmt.notes, Stmt.resolve]
    exact (cond.resolve_records inClass w).trans (body.resolve_records inFunction inClass _)
  | .function decl, _, inClass, w => by
    rw [Stmt.names, Stmt.notes, Stmt.resolve]
    refine (decl.resolve_records inClass _).of_table ?_
    rw [define_distances, declare_distances]
  | .ret keyword value, inFunction, inClass, w => by
    rw [Stmt.names, Stmt.notes, Stmt.resolve]
    refine (Expr.resolveOption_records inClass value _).of_table ?_
    cases inFunction <;> rfl
  | .classDecl name methods, _, _, w => by
    rw [Stmt.names, Stmt.notes, Stmt.resolve]
    have inside := FunDecl.resolveList_records methods true
      (((w.declare name).define name).enter Scope.ofClass)
    refine inside.inside.of_table ?_
    rw [define_distances, declare_distances]

/-- The same of a list of statements. -/
theorem Stmt.resolveList_records : ∀ (ss : List Stmt) (inFunction inClass : Bool) (w : Walk),
    Records (Stmt.namesList ss) (Stmt.notesList inFunction inClass ss w) w
      (Stmt.resolveList inFunction inClass ss w)
  | [], _, _, w => by
    rw [Stmt.namesList, Stmt.notesList, Stmt.resolveList]
    exact .refl w
  | s :: ss, inFunction, inClass, w => by
    rw [Stmt.namesList, Stmt.notesList, Stmt.resolveList]
    exact (s.resolve_records inFunction inClass w).trans
      (Stmt.resolveList_records ss inFunction inClass _)

/-- The same of a function. -/
theorem FunDecl.resolve_records : ∀ (f : FunDecl) (inClass : Bool) (w : Walk),
    Records f.names (f.notes inClass w) w (f.resolve inClass w)
  | ⟨_, params, body⟩, inClass, w => by
    rw [FunDecl.names, FunDecl.notes, FunDecl.resolve]
    have inside := Stmt.resolveList_records body true inClass ((w.enter ∅).introduce params)
    exact (inside.of_table (introduce_distances params)).inside

/-- The same of the methods of a class. -/
theorem FunDecl.resolveList_records : ∀ (fs : List FunDecl) (inClass : Bool) (w : Walk),
    Records (FunDecl.namesList fs) (FunDecl.notesList inClass fs w) w
      (FunDecl.resolveList inClass fs w)
  | [], _, w => by
    rw [FunDecl.namesList, FunDecl.notesList, FunDecl.resolveList]
    exact .refl w
  | f :: fs, inClass, w => by
    rw [FunDecl.namesList, FunDecl.notesList, FunDecl.resolveList]
    exact (f.resolve_records inClass w).trans (FunDecl.resolveList_records fs inClass _)

end

namespace Expr

mutual

/-- Outside of all scopes an expression makes no entries. -/
theorem notes_outside (inClass : Bool) : ∀ (e : Expr) {w : Walk}, w.scopes = [] →
    e.notes inClass w = []
  | .literal _, _, _ => by rw [notes]
  | .grouping inner, _, h => by rw [notes, inner.notes_outside inClass h]
  | .unary _ operand, _, h => by rw [notes, operand.notes_outside inClass h]
  | .binary left _ right, w, h | .logical left _ right, w, h => by
    have h' := (left.resolve_locates inClass w).scopes.trans h
    rw [notes, left.notes_outside inClass h, right.notes_outside inClass h', List.append_nil]
  | .ident _ _, _, h => by rw [notes, Scope.Walk.note_outside h]
  | .assign _ _ value, w, h => by
    have h' := (value.resolve_locates inClass w).scopes.trans h
    rw [notes, value.notes_outside inClass h, Scope.Walk.note_outside h', List.append_nil]
  | .call callee _ args, w, h => by
    have h' := (callee.resolve_locates inClass w).scopes.trans h
    rw [notes, callee.notes_outside inClass h, notesList_outside inClass args h', List.append_nil]
  | .get object _, _, h => by rw [notes, object.notes_outside inClass h]
  | .set object _ value, w, h => by
    have h' := (value.resolve_locates inClass w).scopes.trans h
    rw [notes, value.notes_outside inClass h, object.notes_outside inClass h', List.append_nil]
  | .receiver _ _, _, h => by
    rw [notes, Scope.Walk.note_outside h]
    exact ite_self _

/-- Outside of all scopes the walk over expressions makes no entries. -/
theorem notesList_outside (inClass : Bool) : ∀ (es : List Expr) {w : Walk}, w.scopes = [] →
    notesList inClass es w = []
  | [], _, _ => by rw [notesList]
  | e :: es, w, h => by
    have h' := (e.resolve_locates inClass w).scopes.trans h
    rw [notesList, e.notes_outside inClass h, notesList_outside inClass es h', List.append_nil]

end

end Expr

namespace Scope

/-- The entries that the walk over a program makes. -/
def notes (statements : List Stmt) (known : Distances) : List Note :=
  Stmt.notesList false false statements ⟨[], known, []⟩

/-- The walk over a program makes its entries, none more often than there are nodes for it. -/
theorem resolve_records (statements : List Stmt) (known : Distances) :
    (resolve statements known).distances = known.noting (notes statements known) ∧
      ∀ id, ((notes statements known).map Prod.fst).count id ≤
        ((Stmt.namesList statements).map NameNode.id).count id := by
  obtain ⟨table, count⟩ := Stmt.resolveList_records statements false false ⟨[], known, []⟩
  exact ⟨table, count⟩

/-- An expression that is printed at the top level is not located anywhere. -/
theorem resolve_print (e : Expr) (known : Distances) :
    (resolve [.print e] known).distances = known := by
  have none : notes [.print e] known = [] := by
    rw [notes, Stmt.notesList, Stmt.notes, e.notes_outside false rfl]
    rfl
  rw [(resolve_records _ known).1, none]
  rfl

end Scope

/-- If no number is noted twice, or was known before, then the table has what it had and what was
noted. -/
theorem Distances.get?_noting (id : NodeId) (d : Nat) : ∀ {notes : List Note} {D : Distances},
    (notes.map Prod.fst).Nodup → (∀ note ∈ notes, D.get? note.1 = none) →
      ((D.noting notes).get? id = some d ↔ D.get? id = some d ∨ (id, d) ∈ notes)
  | [], D, _, _ => by simp [Distances.noting]
  | (i, e) :: notes, D, hn, hd => by
    rw [List.map_cons, List.nodup_cons] at hn
    have new : D.get? i = none := hd (i, e) (by simp)
    have rest : ∀ note ∈ notes, (D.insert i e).get? note.1 = none := by
      intro note hm
      have hne : i ≠ note.1 := by
        rintro rfl
        exact hn.1 (List.mem_map.2 ⟨note, hm, rfl⟩)
      rw [Distances.get?_insert, if_neg hne]
      exact hd note (by simp [hm])
    have ih := Distances.get?_noting id d hn.2 rest
    rw [show D.noting ((i, e) :: notes) = Distances.noting (D.insert i e) notes from rfl, ih,
      Distances.get?_insert, List.mem_cons, Prod.mk.injEq]
    by_cases h : i = id
    · subst h
      rw [if_pos rfl, new]
      constructor
      · rintro (h | h)
        · cases h
          exact .inr (.inl ⟨rfl, rfl⟩)
        · exact .inr (.inr h)
      · rintro (h | ⟨-, rfl⟩ | h)
        · cases h
        · exact .inl rfl
        · exact .inr h
    · rw [if_neg h]
      constructor
      · rintro (h' | h')
        · exact .inl h'
        · exact .inr (.inr h')
      · rintro (h' | ⟨rfl, -⟩ | h')
        · exact .inl h'
        · exact absurd rfl h
        · exact .inr h'

end Lox
