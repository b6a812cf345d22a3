/-
# Occurrences of names

Where the names of a program stand, told by the shape of its tree alone: an occurrence has the path
to its statement and the blocks, functions and classes around it, which are the regions with a scope
of their own (`Stmt.occurrences`). The rules about names are said of an occurrence and of those
before it, with no scopes that are opened and closed on the way: which declaration of a name in a
region is the first (`Occurrence.first?`), what a name refers to (`Occurrence.distance?`), and which
rule is broken (`Occurrence.cause?`).

A program, a block, a function or a class has its statements or methods as parts `0`, `1` and so on.
The branches of an `if` and the body of a loop are parts of that statement, and open no region.
-/

import Lox.Proofs.Tree.Ids
import Lox.Scope

namespace Lox
namespace Scope

/-- The path to a part of a program, the last step first. -/
abbrev Position := List Nat

/-- What has a scope of its own. -/
inductive RegionKind where
  | block
  | function
  | ofClass
deriving DecidableEq, Repr

/-- A part of a program with a scope of its own. The parameters of a function are in the region of
its body. -/
structure Region where
  position : Position
  kind : RegionKind
deriving DecidableEq, Repr

/-- What happens where a name or a `return` stands. -/
inductive Role where
  | declares
  | uses (use : NameUse) (id : NodeId)
  | returns
deriving DecidableEq, Repr

/-- A name or a `return` in a program, with the statement that it belongs to and the regions around
it, innermost first. -/
structure Occurrence where
  role : Role
  token : Token
  statement : Position
  regions : List Region
deriving DecidableEq, Repr

/-! ## Rules -/

namespace Occurrence

/-- The occurrence declares the name in the region. -/
def Declares (r : Region) (name : String) (o : Occurrence) : Prop :=
  o.role = .declares ∧ o.token.lexeme = name ∧ o.regions.head? = some r

instance (r : Region) (name : String) : DecidablePred (Declares r name) :=
  fun _ => inferInstanceAs (Decidable (_ ∧ _ ∧ _))

/-- The first of the occurrences that declares the name in the region. -/
def first? (before : List Occurrence) (r : Region) (name : String) : Option Occurrence :=
  before.find? fun o => o.Declares r name

/-- The name is declared in the region, by one of the occurrences, or because the region is a class
and the name is that of the receiver. -/
def Holds (before : List Occurrence) (r : Region) (name : String) : Prop :=
  (r.kind = .ofClass ∧ name = "this") ∨ (first? before r name).isSome = true

instance (before : List Occurrence) (r : Region) (name : String) :
    Decidable (Holds before r name) := inferInstanceAs (Decidable (_ ∨ _))

/-- The region around the declaration has an earlier declaration of the name. -/
def Redeclares (before : List Occurrence) (o : Occurrence) : Prop :=
  ∃ r ∈ o.regions.head?, (first? before r o.token.lexeme).isSome = true

instance (before : List Occurrence) : DecidablePred (Redeclares before) :=
  fun _ => inferInstanceAs (Decidable (∃ r ∈ _, _))

/-- The first declaration of the name in the region around the use belongs to the same statement:
the use stands in the initializer of that variable. -/
def ReadsOwn (before : List Occurrence) (o : Occurrence) : Prop :=
  ∃ r ∈ o.regions.head?, ∃ d ∈ first? before r o.token.lexeme, d.statement = o.statement

instance (before : List Occurrence) : DecidablePred (ReadsOwn before) :=
  fun _ => inferInstanceAs (Decidable (∃ r ∈ _, ∃ d ∈ _, _))

/-- Some region around the occurrence is of the kind. -/
def Inside (kind : RegionKind) (o : Occurrence) : Prop := ∃ r ∈ o.regions, r.kind = kind

instance (kind : RegionKind) : DecidablePred (Inside kind) :=
  fun _ => inferInstanceAs (Decidable (∃ r ∈ _, _))

/-- The rule that the occurrence breaks, behind those before it. -/
def cause? (before : List Occurrence) (o : Occurrence) : Option Cause :=
  match o.role with
  | .declares => if o.Redeclares before then some .redeclared else none
  | .uses .read _ => if o.ReadsOwn before then some .ownInitializer else none
  | .uses .write _ => none
  | .uses .receiver _ => if o.Inside .ofClass then none else some .strayReceiver
  | .returns => if o.Inside .function then none else some .topLevelReturn

/-- The violation at the occurrence. -/
def violation? (before : List Occurrence) (o : Occurrence) : Option Violation :=
  (o.cause? before).map fun cause => ⟨cause, o.token⟩

/-- How many regions out the innermost one stands that holds the name. -/
def distance? (before : List Occurrence) (o : Occurrence) : Option Nat :=
  o.regions.findIdx? fun r => Holds before r o.token.lexeme

/-- The number of the node that uses the name. -/
def id? (o : Occurrence) : Option NodeId :=
  match o.role with
  | .uses _ id => some id
  | _ => none

/-- What is found at each of the occurrences in turn, which come behind those before them. -/
def findings {α : Type} (find : List Occurrence → Occurrence → Option α) :
    List Occurrence → List Occurrence → List α
  | _, [] => []
  | before, o :: os => (find before o).toList ++ findings find (before ++ [o]) os

/-- A use of a name. -/
def ofNode (statement : Position) (regions : List Region) (node : NameNode) : Occurrence :=
  ⟨.uses node.use node.id, node.name, statement, regions⟩

end Occurrence

end Scope

open Scope (Position Region Occurrence)

/-! ## Trees -/

namespace Expr

mutual

/-- The nodes of an expression that use a name, in the order of the source, except that the value of
an assignment comes before its target. -/
def met : Expr → List NameNode
  | literal _ => []
  | grouping inner => inner.met
  | unary _ operand => operand.met
  | binary left _ right => left.met ++ right.met
  | logical left _ right => left.met ++ right.met
  | ident id name => [⟨.read, id, name⟩]
  | assign id name value => value.met ++ [⟨.write, id, name⟩]
  | call callee _ args => callee.met ++ metList args
  | get object _ => object.met
  | set object _ value => value.met ++ object.met
  | receiver id keyword => [⟨.receiver, id, keyword⟩]

/-- The nodes of a list of expressions. -/
def metList : List Expr → List NameNode
  | [] => []
  | e :: es => e.met ++ metList es

end

/-- The nodes of an expression that may be missing. -/
def metOption : Option Expr → List NameNode
  | none => []
  | some e => e.met

/-- The occurrences in an expression of the statement. -/
def occurrences (statement : Position) (regions : List Region) (e : Expr) : List Occurrence :=
  e.met.map (.ofNode statement regions)

/-- The occurrences in an expression that may be missing. -/
def occurrencesOption (statement : Position) (regions : List Region) (e : Option Expr) :
    List Occurrence :=
  (metOption e).map (.ofNode statement regions)

end Expr

mutual

/-- The occurrences in the statement at the position. -/
def Stmt.occurrences (pos : Position) (regions : List Region) : Stmt → List Occurrence
  | .expression e => e.occurrences pos regions
  | .print e => e.occurrences pos regions
  | .var name init => ⟨.declares, name, pos, regions⟩ :: Expr.occurrencesOption pos regions init
  | .block body => Stmt.occurrencesList pos 0 (⟨pos, .block⟩ :: regions) body
  | .branch cond thenB none =>
    cond.occurrences pos regions ++ thenB.occurrences (0 :: pos) regions
  | .branch cond thenB (some elseB) =>
    cond.occurrences pos regions ++ thenB.occurrences (0 :: pos) regions ++
      elseB.occurrences (1 :: pos) regions
  | .loop cond body => cond.occurrences pos regions ++ body.occurrences (0 :: pos) regions
  | .function decl => ⟨.declares, decl.name, pos, regions⟩ :: decl.occurrences pos regions
  | .ret keyword value =>
    ⟨.returns, keyword, pos, regions⟩ :: Expr.occurrencesOption pos regions value
  | .classDecl name methods =>
    ⟨.declares, name, pos, regions⟩ ::
      FunDecl.occurrencesList pos 0 (⟨pos, .ofClass⟩ :: regions) methods

/-- The occurrences in the statements that are the parts `i`, `i + 1` and so on at the position. -/
def Stmt.occurrencesList (pos : Position) (i : Nat) (regions : List Region) :
    List Stmt → List Occurrence
  | [] => []
  | s :: ss => s.occurrences (i :: pos) regions ++ Stmt.occurrencesList pos (i + 1) regions ss

/-- The occurrences in the function or method at the position, its name apart. -/
def FunDecl.occurrences (pos : Position) (regions : List Region) : FunDecl → List Occurrence
  | ⟨_, params, body⟩ =>
    params.map (⟨.declares, ·, pos, ⟨pos, .function⟩ :: regions⟩) ++
      Stmt.occurrencesList pos 0 (⟨pos, .function⟩ :: regions) body

/-- The occurrences in the methods that are the parts `i`, `i + 1` and so on at the position. -/
def FunDecl.occurrencesList (pos : Position) (i : Nat) (regions : List Region) :
    List FunDecl → List Occurrence
  | [] => []
  | f :: fs => f.occurrences (i :: pos) regions ++ FunDecl.occurrencesList pos (i + 1) regions fs

end

/-- The occurrences in a program. -/
def Scope.occurrences (statements : List Stmt) : List Occurrence :=
  Stmt.occurrencesList [] 0 [] statements

/-! ## Numbers -/

section Ids

open Scope.Occurrence (id?)

namespace Expr

mutual

/-- The nodes of an expression that use a name are its names, in another order. -/
theorem met_perm : ∀ e : Expr, e.met.Perm e.names
  | literal _ => by rw [met, names]
  | grouping inner => by
    rw [met, names]
    exact inner.met_perm
  | unary _ operand => by
    rw [met, names]
    exact operand.met_perm
  | binary left _ right | logical left _ right => by
    rw [met, names]
    exact left.met_perm.append right.met_perm
  | ident _ _ => by rw [met, names]
  | assign _ _ value => by
    rw [met, names]
    exact List.perm_append_comm.trans (value.met_perm.cons _)
  | call callee _ args => by
    rw [met, names]
    exact callee.met_perm.append (metList_perm args)
  | get object _ => by
    rw [met, names]
    exact object.met_perm
  | set object _ value => by
    rw [met, names]
    exact List.perm_append_comm.trans (object.met_perm.append value.met_perm)
  | receiver _ _ => by rw [met, names]

/-- The same of a list of expressions. -/
theorem metList_perm (es : List Expr) : (metList es).Perm (namesList es) := by
  cases es with
  | nil => rw [metList, namesList]
  | cons e es =>
    rw [metList, namesList]
    exact e.met_perm.append (metList_perm es)

end

theorem metOption_perm : ∀ e : Option Expr, (metOption e).Perm (namesOption e)
  | none => .refl _
  | some e => e.met_perm

/-- The uses at nodes have the numbers of the nodes. -/
theorem filterMap_ofNode (pos : Position) (regions : List Region) (nodes : List NameNode) :
    (nodes.map (Occurrence.ofNode pos regions)).filterMap id? = nodes.map NameNode.id := by
  rw [List.filterMap_map, ← List.filterMap_eq_map]
  rfl

/-- The occurrences in an expression have the numbers of its nodes. -/
theorem occurrences_ids (pos : Position) (regions : List Region) (e : Expr) :
    ((e.occurrences pos regions).filterMap id?).Perm e.ids := by
  rw [occurrences, filterMap_ofNode]
  exact e.met_perm.map _

theorem occurrencesOption_ids (pos : Position) (regions : List Region) (e : Option Expr) :
    ((occurrencesOption pos regions e).filterMap id?).Perm ((namesOption e).map NameNode.id) := by
  rw [occurrencesOption, filterMap_ofNode]
  exact (metOption_perm e).map _

end Expr

mutual

/-- The uses among the occurrences are the nodes of the tree, each of them once. -/
theorem Stmt.occurrences_ids : ∀ (s : Stmt) (pos : Position) (regions : List Region),
    ((s.occurrences pos regions).filterMap id?).Perm s.ids
  | .expression e, pos, regions | .print e, pos, regions => by
    rw [Stmt.occurrences, Stmt.ids, Stmt.names]
    exact e.occurrences_ids pos regions
  | .var _ init, pos, regions => by
    rw [Stmt.occurrences, Stmt.ids, Stmt.names]
    exact Expr.occurrencesOption_ids pos regions init
  | .block body, pos, regions => by
    rw [Stmt.occurrences, Stmt.ids, Stmt.names]
    exact Stmt.occurrencesList_ids body pos 0 _
  | .branch cond thenB none, pos, regions => by
    rw [Stmt.occurrences, Stmt.ids, Stmt.names, List.filterMap_append, List.map_append]
    exact (cond.occurrences_ids pos regions).append (thenB.occurrences_ids _ regions)
  | .branch cond thenB (some elseB), pos, regions => by
    rw [Stmt.occurrences, Stmt.ids, Stmt.names, List.filterMap_append, List.filterMap_append,
      List.map_append, List.map_append]
    exact ((cond.occurrences_ids pos regions).append (thenB.occurrences_ids _ regions)).append
      (elseB.occurrences_ids _ regions)
  | .loop cond body, pos, regions => by
    rw [Stmt.occurrences, Stmt.ids, Stmt.names, List.filterMap_append, List.map_append]
    exact (cond.occurrences_ids pos regions).append (body.occurrences_ids _ regions)
  | .function decl, pos, regions => by
    rw [Stmt.occurrences, Stmt.ids, Stmt.names]
    exact decl.occurrences_ids pos regions
  | .ret _ value, pos, regions => by
    rw [Stmt.occurrences, Stmt.ids, Stmt.names]
    exact Expr.occurrencesOption_ids pos regions value
  | .classDecl _ methods, pos, regions => by
    rw [Stmt.occurrences, Stmt.ids, Stmt.names]
    exact FunDecl.occurrencesList_ids methods pos 0 _

/-- The occurrences in statements have the numbers of their nodes. -/
theorem Stmt.occurrencesList_ids : ∀ (ss : List Stmt) (pos : Position) (i : Nat)
    (regions : List Region), ((Stmt.occurrencesList pos i regions ss).filterMap id?).Perm
      ((Stmt.namesList ss).map NameNode.id)
  | [], _, _, _ => by rw [Stmt.occurrencesList, Stmt.namesList]; rfl
  | s :: ss, pos, i, regions => by
    rw [Stmt.occurrencesList, Stmt.namesList, List.filterMap_append, List.map_append]
    exact (s.occurrences_ids _ regions).append (Stmt.occurrencesList_ids ss pos _ regions)

/-- The same of a function. -/
theorem FunDecl.occurrences_ids : ∀ (f : FunDecl) (pos : Position) (regions : List Region),
    ((f.occurrences pos regions).filterMap id?).Perm f.ids
  | ⟨_, params, body⟩, pos, regions => by
    have parameters : (params.map (⟨.declares, ·, pos, ⟨pos, .function⟩ :: regions⟩)).filterMap id?
        = [] := by simp [id?]
    rw [FunDecl.occurrences, FunDecl.ids, FunDecl.names, List.filterMap_append, parameters]
    exact Stmt.occurrencesList_ids body pos 0 _

/-- The same of the methods of a class. -/
theorem FunDecl.occurrencesList_ids : ∀ (fs : List FunDecl) (pos : Position) (i : Nat)
    (regions : List Region), ((FunDecl.occurrencesList pos i regions fs).filterMap id?).Perm
      ((FunDecl.namesList fs).map NameNode.id)
  | [], _, _, _ => by rw [FunDecl.occurrencesList, FunDecl.namesList]; rfl
  | f :: fs, pos, i, regions => by
    rw [FunDecl.occurrencesList, FunDecl.namesList, List.filterMap_append, List.map_append]
    exact (f.occurrences_ids _ regions).append (FunDecl.occurrencesList_ids fs pos _ regions)

end

end Ids

/-! ## Positions -/

namespace Scope.Occurrence

/-- The occurrence stands in the part of the program at the position, and inside its regions. -/
structure Within (pos : Position) (o : Occurrence) : Prop where
  statement : pos <:+ o.statement
  regions : ∀ r ∈ o.regions, r.position <:+ o.statement

/-- What stands in a part stands in every part around it. -/
theorem Within.outward {pos pos' : Position} {o : Occurrence} (h : o.Within pos')
    (hp : pos <:+ pos') : o.Within pos := ⟨hp.trans h.statement, h.regions⟩

end Scope.Occurrence

section Within

variable {pos : Position} {regions : List Region}

/-- An occurrence that belongs to the statement at the position itself. -/
theorem Scope.Occurrence.Within.own {o : Occurrence} (hr : ∀ r ∈ regions, r.position <:+ pos)
    (hs : o.statement = pos) (ho : o.regions = regions) : o.Within pos :=
  ⟨hs ▸ List.suffix_rfl, fun r h => hs ▸ hr r (ho ▸ h)⟩

/-- The uses in a statement stand in the statement. -/
theorem Scope.Occurrence.within_nodes (hr : ∀ r ∈ regions, r.position <:+ pos)
    (nodes : List NameNode) : ∀ o ∈ nodes.map (ofNode pos regions), o.Within pos := by
  intro o ho
  obtain ⟨node, -, rfl⟩ := List.mem_map.1 ho
  exact .own hr rfl rfl

/-- The regions around a part are around the parts of it. -/
theorem Scope.Region.position_suffix_cons (hr : ∀ r ∈ regions, r.position <:+ pos) (i : Nat) :
    ∀ r ∈ regions, r.position <:+ i :: pos :=
  fun r h => (hr r h).trans (List.suffix_cons i pos)

/-- So are those with the part itself, if it is a region. -/
theorem Scope.Region.position_suffix_self (hr : ∀ r ∈ regions, r.position <:+ pos)
    (kind : RegionKind) : ∀ r ∈ (⟨pos, kind⟩ : Region) :: regions, r.position <:+ pos := by
  intro r h
  rcases List.mem_cons.1 h with rfl | h
  · exact List.suffix_rfl
  · exact hr r h

open Scope.Region

mutual

/-- The occurrences in a statement stand in it. -/
theorem Stmt.occurrences_within : ∀ (s : Stmt) {pos : Position} {regions : List Region},
    (∀ r ∈ regions, r.position <:+ pos) → ∀ o ∈ s.occurrences pos regions, o.Within pos
  | .expression e, _, _, hr | .print e, _, _, hr => by
    rw [Stmt.occurrences]
    exact Occurrence.within_nodes hr _
  | .var _ _, _, _, hr => by
    rw [Stmt.occurrences, List.forall_mem_cons]
    exact ⟨.own hr rfl rfl, Occurrence.within_nodes hr _⟩
  | .block body, _, _, hr => by
    rw [Stmt.occurrences]
    exact Stmt.occurrencesList_within body 0 (position_suffix_self hr _)
  | .branch _ thenB none, _, _, hr => by
    rw [Stmt.occurrences, List.forall_mem_append]
    refine ⟨Occurrence.within_nodes hr _, fun o ho => ?_⟩
    exact (thenB.occurrences_within (position_suffix_cons hr 0) o ho).outward (List.suffix_cons ..)
  | .branch _ thenB (some elseB), _, _, hr => by
    rw [Stmt.occurrences, List.forall_mem_append, List.forall_mem_append]
    refine ⟨⟨Occurrence.within_nodes hr _, fun o ho => ?_⟩, fun o ho => ?_⟩
    · exact (thenB.occurrences_within (position_suffix_cons hr 0) o ho).outward
        (List.suffix_cons ..)
    · exact (elseB.occurrences_within (position_suffix_cons hr 1) o ho).outward
        (List.suffix_cons ..)
  | .loop _ body, _, _, hr => by
    rw [Stmt.occurrences, List.forall_mem_append]
    refine ⟨Occurrence.within_nodes hr _, fun o ho => ?_⟩
    exact (body.occurrences_within (position_suffix_cons hr 0) o ho).outward (List.suffix_cons ..)
  | .function decl, _, _, hr => by
    rw [Stmt.occurrences, List.forall_mem_cons]
    exact ⟨.own hr rfl rfl, decl.occurrences_within hr⟩
  | .ret _ _, _, _, hr => by
    rw [Stmt.occurrences, List.forall_mem_cons]
    exact ⟨.own hr rfl rfl, Occurrence.within_nodes hr _⟩
  | .classDecl _ methods, _, _, hr => by
    rw [Stmt.occurrences, List.forall_mem_cons]
    exact ⟨.own hr rfl rfl, FunDecl.occurrencesList_within methods 0 (position_suffix_self hr _)⟩

/-- The same of a list of statements. -/
theorem Stmt.occurrencesList_within : ∀ (ss : List Stmt) (i : Nat) {pos : Position}
    {regions : List Region}, (∀ r ∈ regions, r.position <:+ pos) →
      ∀ o ∈ Stmt.occurrencesList pos i regions ss, o.Within pos
  | [], _, _, _, _ => by rw [Stmt.occurrencesList]; exact List.forall_mem_nil _
  | s :: ss, i, _, _, hr => by
    rw [Stmt.occurrencesList, List.forall_mem_append]
    refine ⟨fun o ho => ?_, Stmt.occurrencesList_within ss _ hr⟩
    exact (s.occurrences_within (position_suffix_cons hr i) o ho).outward (List.suffix_cons ..)

/-- The same of a function. -/
theorem FunDecl.occurrences_within : ∀ (f : FunDecl) {pos : Position} {regions : List Region},
    (∀ r ∈ regions, r.position <:+ pos) → ∀ o ∈ f.occurrences pos regions, o.Within pos
  | ⟨_, params, body⟩, pos, regions, hr => by
    have inside := position_suffix_self hr .function
    rw [FunDecl.occurrences, List.forall_mem_append, List.forall_mem_map]
    exact ⟨fun _ _ => .own inside rfl rfl, Stmt.occurrencesList_within body 0 inside⟩

/-- The same of the methods of a class. -/
theorem FunDecl.occurrencesList_within : ∀ (fs : List FunDecl) (i : Nat) {pos : Position}
    {regions : List Region}, (∀ r ∈ regions, r.position <:+ pos) →
      ∀ o ∈ FunDecl.occurrencesList pos i regions fs, o.Within pos
  | [], _, _, _, _ => by rw [FunDecl.occurrencesList]; exact List.forall_mem_nil _
  | f :: fs, i, _, _, hr => by
    rw [FunDecl.occurrencesList, List.forall_mem_append]
    refine ⟨fun o ho => ?_, FunDecl.occurrencesList_within fs _ hr⟩
    exact (f.occurrences_within (position_suffix_cons hr i) o ho).outward (List.suffix_cons ..)

end

end Within

end Lox
