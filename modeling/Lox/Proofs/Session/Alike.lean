/-
# Runs of sources that are alike

What scanning and parsing find wrong with a source does not depend on the numbers its nodes get, and
what resolving finds wrong does not depend on the table. Statements that are alike, run by sessions
whose machines are twins, end alike (`execute_twins`). A heap on which everything stands where it
was declared is its own twin, also for tables that have gained entries (`Heap.Bound.twin`).
-/

import Lox.Proofs.Eval.Alike
import Lox.Proofs.Grammar.Alike
import Lox.Proofs.Scope.Alike
import Lox.Proofs.Session.Reachable

namespace Lox

/-! ## Heaps -/

/-- The token stands in a function or in a method on the heap. -/
inductive Heap.Uses (h : Heap) (t : Token) : Prop
  | function {r : FunctionRef} {f : Function} (hf : h.function? r = some f)
    (ht : t ∈ f.decl.tokens)
  | method {r : ClassRef} {c : Class} {name : String} {f : Function} (hc : h.class? r = some c)
    (hf : c.methods.get? name = some f) (ht : t ∈ f.decl.tokens)

/-- The heap is its own twin: each node on it has the distance of its name in all tables that keep
the entries of the table it was declared by. -/
theorem Heap.Bound.twin {R : Token → Token → Prop} (hR : Faithful R)
    {T₀ T T' : Distances → Prop} {h : Heap} (hb : h.Bound T₀) (hT : ∀ D, T D → T₀ D)
    (hT' : ∀ D, T' D → T₀ D) (hu : ∀ t, h.Uses t → R t t) : h.Twin R (SameEntry T T') h := by
  refine ⟨⟨fun r => ?_, rfl, fun r => ?_, rfl, rfl⟩, rfl⟩
  · cases hf : h.function? r with
    | none => exact .none
    | some f =>
      obtain ⟨scopes, hp, -⟩ := hb.functions r f hf
      have same := FunDecl.Alike.refl f.decl fun t ht => hu t (.function hf ht)
      exact .some ⟨same.placed hR (hp.mono hT) (hp.mono hT'), rfl, rfl⟩
  · cases hc : h.class? r with
    | none => exact .none
    | some c =>
      refine .some ⟨rfl, fun name => ?_⟩
      cases hf : c.methods.get? name with
      | none => exact .none
      | some f =>
        obtain ⟨scopes, hp, -⟩ := hb.classes r c hc name f hf
        have same := FunDecl.Alike.refl f.decl fun t ht => hu t (.method hc hf ht)
        exact .some ⟨same.placed hR (hp.mono hT) (hp.mono hT'), rfl, rfl⟩

/-! ## Sources -/

/-- Errors at the same tokens are equal. -/
theorem Grammar.Error.Alike.eq {e e' : Grammar.Error} (h : e.Alike Eq e') : e = e' := by
  have token : e'.token = e.token := h.token.elim id Eq.symm
  obtain ⟨cause, -, unread⟩ := h
  cases e
  cases e'
  cases cause
  cases token
  cases unread
  rfl

/-- Violations at the same tokens are equal. -/
theorem Scope.Violation.Alike.eq {v v' : Scope.Violation} (h : v.Alike Eq v') : v = v' := by
  obtain ⟨cause, token⟩ := h
  cases v
  cases v'
  cases cause
  cases token
  rfl

namespace Program

/-- Sources with related tokens have alike statements. -/
theorem statements_alike {R : Token → Token → Prop} (hR : Faithful R) {source source' : String}
    (h : List.Forall₂ R (tokens source) (tokens source')) (n n' : NodeId) :
    Stmt.AlikeList R AnyNumber (ofSource source n).statements (ofSource source' n').statements :=
  (Grammar.parse_alike hR h n n').1

/-- The same is wrong with a source wherever its numbers start. -/
theorem diagnostics_eq (source : String) (n n' : NodeId) :
    (ofSource source n).diagnostics = (ofSource source n').diagnostics := by
  have same := (Grammar.parse_alike faithful_eq (List.forall₂_refl (tokens source)) n n').2
  have : (Grammar.parse (tokens source) n).errors = (Grammar.parse (tokens source) n').errors :=
    List.forall₂_eq_eq_eq ▸ same.imp fun _ _ => Grammar.Error.Alike.eq
  simp only [ofSource, this]

end Program

namespace Session

variable {s s' : Session} {source : String}

/-- In any two sessions a source has the same statements up to node numbers. -/
theorem statements_alike (s s' : Session) (source : String) :
    Stmt.AlikeList Eq AnyNumber (s.statements source) (s'.statements source) :=
  Program.statements_alike faithful_eq (List.forall₂_refl _) _ _

/-- The same rules are broken whatever is in the table. -/
theorem violations_eq (s s' : Session) (source : String) :
    (s.resolution source).violations = (s'.resolution source).violations := by
  have same := Scope.resolve_alike faithful_eq (statements_alike s s' source) s.distances
    s'.distances
  exact List.forall₂_eq_eq_eq ▸ same.imp fun _ _ => Scope.Violation.Alike.eq

/-- What later tables say of old numbers, earlier ones said. -/
theorem keeps_of_later {t : Session} (hn : s.nextId ≤ t.nextId) (ht : s.Keeps t.distances)
    {D : Distances} (h : t.Keeps D) : s.Keeps D := fun id hid =>
  (h id (Nat.lt_of_lt_of_le hid hn)).trans (ht id hid)

/-- A table that keeps what is found for a source keeps what was found before. -/
theorem keeps_of_prepared {D : Distances} : (s.prepared source).Keeps D → s.Keeps D :=
  keeps_of_later (Program.fresh source s.nextId).2 fun _ hid => resolution_old hid

/-- What the nodes of earlier sources have in both tables, they have later. -/
theorem sameEntry_of_keeps {t t' : Session} (h : ∀ D, t.Keeps D → s.Keeps D)
    (h' : ∀ D, t'.Keeps D → s'.Keeps D) (id id' : NodeId)
    (he : SameEntry s.Keeps s'.Keeps id id') : SameEntry t.Keeps t'.Keeps id id' :=
  fun D D' hD hD' => he D D' (h D hD) (h' D' hD')

/-- A source is accepted by all sessions or by none. -/
theorem Accepts.of_session (h : s.Accepts source) (s' : Session) : s'.Accepts source :=
  ⟨(Program.diagnostics_eq source _ _).trans h.diagnostics, (violations_eq _ _ _).trans h.violations⟩

/-- The statements of a source that is accepted have the same distances in both sessions. -/
theorem Accepts.alike (h : s.Accepts source) (hs : s.Sound) (hs' : s'.Sound) :
    Stmt.AlikeList Eq (SameEntry (s.prepared source).Keeps (s'.prepared source).Keeps)
      (s.statements source) (s'.statements source) := by
  have placed : Stmt.PlacedList false _ (s.statements source) [] := h.placed hs (by simp)
  have placed' : Stmt.PlacedList false _ (s'.statements source) [] :=
    (h.of_session s').placed hs' (by simp)
  exact (statements_alike s s' source).placed faithful_eq placed placed'

end Session

/-! ## Runs -/

/-- The outcomes are the same but for bytes that were printed before and for related tokens. -/
structure Outcome.Twin (R : Token → Token → Prop) (ahead : ByteArray) (o o' : Outcome) : Prop where
  output : o'.output = ahead ++ o.output
  diagnostics : o'.diagnostics = o.diagnostics
  fault : Option.Rel (Fault.Twin R) o.fault o'.fault

/-- With the same tokens, the faults are the same. -/
theorem Outcome.Twin.fault_eq {ahead : ByteArray} {o o' : Outcome} (h : o.Twin Eq ahead o') :
    o'.fault = o.fault := by
  have same := h.fault
  revert same
  generalize o.fault = f, o'.fault = f'
  intro same
  cases same with
  | none => rfl
  | some same =>
    cases same with
    | trouble cause ht => rw [ht]
    | output error => rfl

/-- With the same tokens and nothing printed before, the outcomes are the same. -/
theorem Outcome.Twin.eq {o o' : Outcome} (h : o.Twin Eq .empty o') : o' = o := by
  have fault := h.fault_eq
  obtain ⟨output, diagnostics, -⟩ := h
  rw [ByteArray.empty_append] at output
  cases o
  cases o'
  cases output
  cases diagnostics
  cases fault
  rfl

namespace Session

/-- Runs with twin outcomes on twins. -/
structure RunTwin (R : Token → Token → Prop) (J : NodeId → NodeId → Prop) (ahead : ByteArray)
    (x y : Outcome × Session) : Prop where
  outcome : x.1.Twin R ahead y.1
  machine : x.2.machine.Twin R J .empty y.2.machine

section

variable {R : Token → Token → Prop} {J : NodeId → NodeId → Prop} {ahead : ByteArray}
  {s s' : Session}

/-- Runs that end on twins have twin outcomes. -/
theorem finish_twins {m m' : Machine} (hm : m.Twin R J ahead m') {D D' : Distances}
    {n n' : NodeId} (diagnostics : List Diagnostic) {fault fault' : Option Fault}
    (hf : Option.Rel (Fault.Twin R) fault fault') :
    RunTwin R J ahead (finish ⟨m, D, n⟩ diagnostics fault)
      (finish ⟨m', D', n'⟩ diagnostics fault') := by
  obtain ⟨h', _, _, _, _⟩ := m'
  obtain ⟨hh, rfl, rfl, rfl, rfl⟩ := hm
  exact ⟨⟨rfl, rfl, hf⟩, ⟨hh, rfl, rfl, by simp [finish, Sink.drain], rfl⟩⟩

/-- Statements that are alike, run on twins, end alike. -/
theorem execute_twins (hR : Faithful R)
    (hJ : ∀ id id', J id id' → s.distances.get? id = s'.distances.get? id')
    (hm : s.machine.Twin R J ahead s'.machine) {ss ss' : List Stmt}
    (hss : Stmt.AlikeList R J ss ss') (clock : Nat → Float) (fuel : Nat) :
    Option.Rel (RunTwin R J ahead) (s.execute clock fuel ss) (s'.execute clock fuel ss') := by
  have twins : Eval.Twins R J ahead (Eval.interpret ⟨s.distances, clock⟩ fuel ss)
      (Eval.interpret ⟨s'.distances, clock⟩ fuel ss') Eq := by
    refine Eval.interpret_twins hR ?_ hJ fuel hss
    rfl
  have h := twins s.machine s'.machine hm
  unfold execute
  revert h
  generalize Eval.interpret ⟨s.distances, clock⟩ fuel ss s.machine = x,
    Eval.interpret ⟨s'.distances, clock⟩ fuel ss' s'.machine = y
  intro h
  cases h with
  | ok hm₁ _ => exact .some (finish_twins hm₁ [] .none)
  | error hm₁ he =>
    cases he with
    | fault hf => exact .some (finish_twins hm₁ [] (.some hf))
    | outOfFuel => exact .none

variable {x y : Outcome × Session}

/-- Behind twin runs the globals have the same values. -/
theorem RunTwin.globals (h : RunTwin R J ahead x y) (name : String) :
    y.2.global? name = x.2.global? name := h.machine.heap.getLocal? .global name

/-- They are shown in the same way. -/
theorem RunTwin.shown (hR : Faithful R) (h : RunTwin R J ahead x y) (name : String) :
    y.2.shown? name = x.2.shown? name := by
  rw [shown?, shown?, h.globals, funext (h.machine.heap.text hR)]

/-- Runs that are twins by equal tokens are the same. -/
theorem RunTwin.sameRun (h : RunTwin Eq J .empty x y) : SameRun x y := by
  refine ⟨h.outcome.eq, h.globals, h.shown faithful_eq⟩

end

end Session

end Lox
