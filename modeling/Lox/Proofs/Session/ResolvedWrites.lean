/-
# Writes to resolved names

An assignment whose node has a recorded distance finds its name bound that many frames out from the
active frame and succeeds, with one exception (`Session.Reachable.writes_resolved`): an assignment
in the initializer of the variable that it assigns to. The walk gives that node the distance of the
variable, which is in scope already, while the frame binds it only when the initializer has its
value. Reads have no such exception, because the walk reports them (`Session.ownWriteSource_fails`).
-/

import Lox.Proofs.Session.ResolvedReads

namespace Lox

namespace Eval

/-- An assignment to a name that is bound at its distance succeeds. -/
theorem assignName_bound {m : Machine} {d : Nat} {a : FrameRef} {name : Token}
    (ha : m.heap.ancestor? m.frame d = some a)
    (hb : (m.heap.getLocal? a name.lexeme).isSome = true) (v : Value) :
    assignName (.outward d) name v m
      = .ok () { m with heap := m.heap.define a name.lexeme v } := by
  simp [assignName, assignedAt, Heap.assignAt, Heap.assignLocal, ha, hb]

end Eval

namespace Session

variable {s : Session} {clock : Nat → Float} {fuel : Nat} {source : String}

/-- The assignment at the node is a part of the initializer of a variable with the name it assigns
to, and the run comes to the declaration. -/
def WritesOwn (s : Session) (clock : Nat → Float) (fuel : Nat) (source : String) (id : NodeId)
    (name : Token) : Prop :=
  ∃ x init m, s.Visits clock fuel source (.exec (.var x (some init))) m ∧
    ⟨.write, id, name⟩ ∈ init.names ∧ x.lexeme = name.lexeme

/-- **Writes to resolved names succeed, own initializers apart.** Whenever the run of a source in a
reachable session comes to an assignment, the table has a distance for the node, and the assigned
expression has a value, then the frame at that distance from the active one exists and binds the
name, and the assignment succeeds; or the assignment is to the variable in whose initializer it
stands, and the distance is zero. -/
theorem Reachable.writes_resolved (hs : s.Reachable) {id : NodeId} {name : Token} {value : Expr}
    {d : Nat} {m : Machine} (hv : s.Visits clock fuel source (.eval (.assign id name value)) m)
    (hd : (s.resolution source).distances.get? id = some d) {k : Nat} {v : Value} {m' : Machine}
    (he : Eval.eval ⟨(s.resolution source).distances, clock⟩ k value m = .ok v m') :
    (∃ a, m'.heap.ancestor? m'.frame d = some a ∧
      (m'.heap.getLocal? a name.lexeme).isSome = true ∧
      Eval.eval ⟨(s.resolution source).distances, clock⟩ (k + 1) (.assign id name value) m
        = .ok v { m' with heap := m'.heap.define a name.lexeme v }) ∨
    d = 0 ∧ s.WritesOwn clock fuel source id name := by
  obtain ⟨scopes, hp, hm⟩ := hv.fits hs.sound
  -- The value is evaluated in the frame of the assignment, so the scopes stay the same.
  have fits : (Task.eval (.assign id name value)).Fits (s.prepared source).Keeps
      (s.Visits clock fuel source) m' := ⟨scopes, hp, hm.kept ((Eval.eval_keeps _ k value).ok he)⟩
  have written : (⟨.write, id, name⟩ : NameNode) ∈ (Expr.assign id name value).names := by
    rw [Expr.names]
    exact List.mem_cons_self ..
  obtain ⟨a, ha, hb⟩ | own := Eval.writes_bound fits written (fun _ _ => rfl) hd
  · refine .inl ⟨a, ha, hb, ?_⟩
    have place : Eval.placeOf (s.resolution source).distances id = .outward d := by
      rw [Eval.placeOf, hd]
    change EStateM.bind _ _ m = _
    rw [EStateM.bind, he]
    change EStateM.bind _ _ m' = _
    rw [EStateM.bind, place, Eval.assignName_bound ha hb]
    rfl
  · exact .inr own

/-- An assignment to a variable of the block around its own. -/
def outerWriteSource : String := "{ var a; { a = nil; } }"

/-- The statements of `outerWriteSource`. -/
def outerWriteStatements : List Stmt :=
  [.block [.var ⟨.identifier, "a", 1⟩ none,
    .block [.expression (.assign 1 ⟨.identifier, "a", 1⟩ (.literal .nil))]]]

/-- The statements of the source. -/
theorem outerWriteSource_statements :
    (start .unlimited).statements outerWriteSource = outerWriteStatements := by decide +kernel

/-- The machine when `outerWriteSource` comes to the assignment. -/
def outerWriteMachine : Machine :=
  { Machine.start .unlimited with
    heap := { Machine.initialHeap with
      frames := (Machine.initialHeap.frames.push ⟨⟨[("a", .nil)]⟩, some .global⟩).push
        ⟨∅, some ⟨1⟩⟩ }
    frame := ⟨2⟩ }

open Eval in
/-- Running `outerWriteSource` comes to the assignment. -/
theorem outerWriteSource_visits : (start .unlimited).Visits (fun _ => 0) 4 outerWriteSource
    (.eval (.assign 1 ⟨.identifier, "a", 1⟩ (.literal .nil))) outerWriteMachine := by
  have accepted : (start .unlimited).Accepts outerWriteSource :=
    ⟨by decide +kernel, by decide +kernel⟩
  refine ⟨accepted, [], _, [], _, outerWriteSource_statements, rfl, ?_⟩
  refine .part (@Starts.inner _ _ _ _ _ [_] _ [] _ rfl rfl) ?_
  exact .part (@Starts.inner _ _ _ _ outerWriteMachine [] _ [] _ rfl rfl) (.part .expression .self)

/-- A case of `Reachable.writes_resolved`: the variable is bound one frame out. -/
theorem outerWriteSource_writes :
    (start .unlimited).Reachable ∧
    (start .unlimited).Visits (fun _ => 0) 4 outerWriteSource
      (.eval (.assign 1 ⟨.identifier, "a", 1⟩ (.literal .nil))) outerWriteMachine ∧
    ((start .unlimited).resolution outerWriteSource).distances.get? 1 = some 1 ∧
    ∃ a, outerWriteMachine.heap.ancestor? outerWriteMachine.frame 1 = some a ∧
      (outerWriteMachine.heap.getLocal? a "a").isSome = true := by
  have hr : (start .unlimited).Reachable := .start _
  have hd : ((start .unlimited).resolution outerWriteSource).distances.get? 1 = some 1 := by
    decide +kernel
  have he : Eval.eval ⟨((start .unlimited).resolution outerWriteSource).distances, fun _ => 0⟩ 1
    (.literal .nil) outerWriteMachine = .ok .nil outerWriteMachine := rfl
  obtain ⟨a, ha, hb, -⟩ | ⟨h, -⟩ := hr.writes_resolved outerWriteSource_visits hd he
  · exact ⟨hr, outerWriteSource_visits, hd, a, ha, hb⟩
  · cases h

/-- An assignment in the initializer of the variable it assigns to. -/
def ownWriteSource : String := "{ var a = (a = 1); print a; }"

/-- The exception of `Reachable.writes_resolved` arises: the source is accepted, and its run fails
at an assignment that has a distance. -/
theorem ownWriteSource_fails : (start .unlimited).Accepts ownWriteSource ∧
    ((start .unlimited).run (fun _ => 0) 10 ownWriteSource).map (·.1.fault) =
      some (some (.trouble (.undefined .write (.outward 0) "a") ⟨.identifier, "a", 1⟩)) :=
  ⟨⟨by decide +kernel, by decide +kernel⟩, by decide +kernel⟩

end Session

end Lox
