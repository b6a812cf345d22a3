/-
# Heaps stay well formed

Whatever is evaluated, with whatever table of distances, and however it ends, the heap has only
grown and is well formed afterwards: the links from frame to frame lead to the global frame, and
nothing refers to what is not there (`Machine.Reachable.evolves`). This holds of every machine that
running things can lead to (`Machine.Reachable`): between two runs of a session and in the middle
of them.
-/

import Lox.Proofs.Eval.Onward
import Lox.Proofs.Heap.Access
import Lox.Proofs.Heap.WellFormed
import Lox.Proofs.Session.ResolvedReads

namespace Lox

/-- Everything that is referred to is there. -/
def Invariant.references : Invariant Unit where
  rules := .any
  own := Heap.Linked
  leads h h' := h.Grows (fun _ => True) h'
  value := Heap.Has
  frame _ h r := (h.frame? r).isSome = true
  receives _ _ := True
  leads_refl := .refl
  leads_trans := .trans
  value_leads g hv := g.has hv
  frame_leads g hr := g.isSome_frame hr
  receives_leads _ _ := trivial
  plain := by
    intro h v hv
    cases v <;> trivial
  binding := by
    intro h r name v hl hv
    obtain ⟨f, hf, hv⟩ := Option.bind_eq_some_iff.1 hv
    exact hl.binding r f name v hf hv
  field hl ho hv := hl.field _ _ _ _ ho hv
  assigned _ := trivial
  define hl hv _ := ⟨hl.define hv, Heap.define_grows _ _ _ _ (.inl trivial)⟩
  openFrame hl hp hv :=
    ⟨hl.newFrame hp fun name v h => (hv name v h).2, Heap.newFrame_grows ..,
      Heap.newFrame_isSome ..⟩
  bindFrame := by
    intro k h name f o hl hp ho _
    have bound : ∀ name v, ((∅ : Bindings Value).insert Heap.receiverName (.object o)).get? name =
        some v → h.Has v := by
      intro name v hv
      rw [Bindings.get?_insert] at hv
      split at hv
      · cases hv
        exact ho
      · cases hv
    exact ⟨hl.newFrame hp bound, Heap.bind_grows .., Heap.newFrame_isSome .., trivial⟩
  newFunction := by
    intro h f hl
    have grows : h.Grows (fun _ => True) (h.newFunction f).2 := Heap.newFunction_grows h f
    exact ⟨hl.grows grows rfl rfl, grows, by simp [Heap.Has, Heap.newFunction, Heap.function?]⟩
  newClass := by
    intro h c hl
    have grows : h.Grows (fun _ => True) (h.newClass c).2 := Heap.newClass_grows h c
    exact ⟨hl.grows grows rfl rfl, grows, by simp [Heap.Has, Heap.newClass, Heap.class?]⟩
  newObject hl hc :=
    ⟨hl.newObject hc, Heap.newObject_grows .., by
      simp [Heap.Has, Heap.newObject, Heap.object?]⟩
  setField hl hv := ⟨hl.setField hv, Heap.setField_grows ..⟩

namespace Machine

/-- The heap is well formed and the active frame is on it. -/
structure WellFormed (m : Machine) : Prop where
  heap : m.heap.WellFormed
  frame : (m.heap.frame? m.frame).isSome = true

end Machine

namespace Task

/-- The task ends with the value: an expression has it, or a statement returns it. -/
def Yields (p : Setting) (fuel : Nat) (v : Value) : Task → Machine → Prop
  | .eval e, m => ∃ m', Eval.eval p fuel e m = .ok v m'
  | .exec s, m => ∃ m', Eval.exec p fuel s m = .ok (.returned v) m'

end Task

namespace Machine

/-- The machine comes from a new one by running tasks, to their ends or up to something they come to
on the way, and by changes of the sink. -/
inductive Reachable : Machine → Prop where
  | start (sink : Sink) : Reachable (.start sink)
  | run {m : Machine} (hm : Reachable m) (p : Setting) (fuel : Nat) (t : Task) :
    Reachable (t.after p fuel m)
  | visit {m m' : Machine} {p : Setting} {fuel : Nat} {t t' : Task} (hm : Reachable m)
      (h : Eval.Visits p fuel t m t' m') : Reachable m'
  | redirect {m : Machine} (hm : Reachable m) (sink : Sink) : Reachable { m with sink := sink }

/-- Everything that the machine refers to is there. -/
abbrev Refers (m : Machine) : Prop := Invariant.references.Stands () m

variable {m : Machine} {p : Setting} {fuel : Nat}

/-- What a new machine refers to is there. -/
theorem refers_start (sink : Sink) : (start sink).Refers where
  holds := by
    refine ⟨fun _ _ h => (by cases h), fun _ _ h => (by cases h), ?_⟩
    have bare : Heap.bare.Linked := by
      refine ⟨⟨⟨∅, none⟩, rfl, rfl⟩, ?_, ?_, ?_, ?_⟩
      · rintro ⟨_ | i⟩ f hf hr
        · exact absurd rfl hr
        · cases hf
      · rintro ⟨_ | i⟩ f name v hf hv
        · cases hf
          cases hv
        · cases hf
      · intro r o ho
        cases ho
      · intro r o name v ho
        cases ho
    exact bare.define trivial
  frame := rfl

/-- What a task leaves, and what it yields. -/
theorem Refers.run (hm : m.Refers) (p : Setting) (fuel : Nat) : ∀ t : Task,
    Invariant.references.Follows m (t.after p fuel m) ∧
      ∀ v, t.Yields p fuel v m → (t.after p fuel m).heap.Has v
  | .eval e => by
    obtain ⟨hf, hv⟩ := Invariant.references.eval_sustains p fuel e () m hm fun _ _ => trivial
    refine ⟨hf, fun v hy => ?_⟩
    obtain ⟨m', hy⟩ := hy
    rw [Task.after, Eval.after_ok hy]
    exact hv v m' hy
  | .exec s => by
    obtain ⟨hf, hv⟩ := Invariant.references.exec_sustains p fuel s () m hm s.obeys_any
    refine ⟨hf, fun v hy => ?_⟩
    obtain ⟨m', hy⟩ := hy
    rw [Task.after, Eval.after_ok hy]
    exact hv _ m' hy

/-- Every task can run where everything that is referred to is there. -/
theorem Refers.fits (hm : m.Refers) : ∀ t : Task, Invariant.references.Fits t m
  | .eval _ => ⟨(), hm, fun _ _ => trivial⟩
  | .exec s => ⟨(), hm, s.obeys_any⟩

/-- What a machine that running things leads to refers to is there. -/
theorem Reachable.refers (hm : m.Reachable) : m.Refers := by
  induction hm with
  | start sink => exact refers_start sink
  | run _ p fuel t ih => exact ih.follows (ih.run p fuel t).1
  | @visit m m' p fuel t t' _ h ih =>
    obtain ⟨-, ht⟩ := Invariant.visits h (ih.fits t)
    cases t' with
    | eval e =>
      obtain ⟨_, hs, -⟩ := ht
      exact hs
    | exec s =>
      obtain ⟨_, hs, -⟩ := ht
      exact hs
  | redirect _ sink ih => exact ⟨ih.holds, ih.frame⟩

/-- The frames of a machine that can be reached come from opening, binding and assigning. -/
theorem Reachable.built (hm : m.Reachable) : m.heap.Built := hm.refers.holds.own.built

/-- Such a machine is well formed. -/
theorem Refers.wellFormed (hm : m.Refers) : m.WellFormed where
  heap := by
    refine hm.holds.own.wellFormed (fun r f hf => ?_) fun r c name f hc hf => ?_
    · obtain ⟨_, -, hr, -⟩ := hm.holds.functions r f hf
      exact hr
    · obtain ⟨_, -, hr, -⟩ := hm.holds.classes r c hc name f hf
      exact hr
  frame := hm.frame

/-- **Heaps only grow, and stay well formed.** Take any machine that can be reached and run any
expression or statement on it, with any table of distances and any fuel. However that ends, the
frames from before are still there, with the same parents and at least the same names; the objects
have the same classes and at least the same fields; functions and classes are what they were. And
the heap that is left is well formed: no frame is among its own ancestors, all have the global frame
among them, and frames, functions, classes and objects that something refers to are there, also for
the value that was computed or returned. -/
theorem Reachable.evolves (hm : m.Reachable) (p : Setting) (fuel : Nat) (t : Task) :
    m.heap.Grows (fun _ => True) (t.after p fuel m).heap ∧ (t.after p fuel m).WellFormed ∧
      ∀ v, t.Yields p fuel v m → (t.after p fuel m).heap.Has v := by
  obtain ⟨hf, hv⟩ := hm.refers.run p fuel t
  have refers : (t.after p fuel m).Refers := hm.refers.follows hf
  exact ⟨hf.leads, refers.wellFormed, hv⟩

/-- Running a program leads on from a machine that running things led to. -/
theorem Reachable.execProgram (p : Setting) (fuel : Nat) : ∀ (ss : List Stmt) {m : Machine},
    m.Reachable → (Eval.after (Eval.execProgram p fuel ss) m).Reachable
  | [], _, hm => hm
  | s :: ss, m, hm => by
    have first := hm.run p fuel (.exec s)
    rw [Task.after] at first
    change (Eval.after (EStateM.bind (Eval.exec p fuel s) fun _ => Eval.execProgram p fuel ss)
      m).Reachable
    cases h : Eval.exec p fuel s m with
    | ok flow m₁ =>
      rw [Eval.after_ok h] at first
      have rest := first.execProgram p fuel ss
      simpa only [Eval.after, EStateM.bind, h] using rest
    | error e m₁ =>
      rw [Eval.after_error h] at first
      simpa only [Eval.after, EStateM.bind, h] using first

end Machine

namespace Session

variable {s : Session}

/-- The machines between the runs of a session can be reached. -/
theorem Reachable.machine (hs : s.Reachable) : s.machine.Reachable := by
  induction hs with
  | start sink => exact .start sink
  | @run s s' clock fuel source outcome _ h ih =>
    by_cases ha : s.Accepts source
    · rw [run_of_accepts ha] at h
      obtain ⟨sink, rfl⟩ := execute_session h
      exact (ih.execProgram _ fuel _).redirect sink
    · obtain ⟨ds, distances, -, -, hr⟩ := run_of_rejects ha
      rw [hr] at h
      cases h
      exact ih.redirect _

/-- So can the machines in the middle of a run. -/
theorem Visits.machine {clock : Nat → Float} {fuel : Nat} {source : String} {t : Task} {m : Machine}
    (hv : s.Visits clock fuel source t m) (hs : s.Reachable) : m.Reachable := by
  obtain ⟨pre, st, post, m₁, -, hpre, hv⟩ := hv.visits
  have before := hs.machine.execProgram ⟨(s.resolution source).distances, clock⟩ fuel pre
  rw [Eval.after_ok hpre] at before
  exact before.visit hv

/-- An object that refers to itself, and a function that sees it. -/
def selfSource : String :=
  "class A { m() { return this; } } var a = A(); a.self = a; fun f(x) { return x.self.m; }"

/-- A call of the function of `selfSource`, under numbers that no table knows. -/
def selfCall : Stmt :=
  .block [.ret ⟨.keyword .return_, "return", 1⟩ (some
    (.call (.ident 70 ⟨.identifier, "f", 1⟩) ⟨.punct .rightParen, ")", 1⟩
      [.ident 71 ⟨.identifier, "a", 1⟩]))]

/-- A case of `Machine.Reachable.evolves`: a method that was bound inside a call inside a block is
returned. -/
theorem selfCall_evolves : ∃ (m : Machine) (p : Setting) (v : Value), m.Reachable ∧
    (Task.exec selfCall).Yields p 9 v m ∧
    m.heap.Grows (fun _ => True) (Task.after p 9 (.exec selfCall) m).heap ∧
    (Task.after p 9 (.exec selfCall) m).WellFormed ∧
    (Task.after p 9 (.exec selfCall) m).heap.Has v := by
  have h : ((start .unlimited).run (fun _ => 0) 20 selfSource).map (fun x =>
      match Eval.exec ⟨x.2.distances, fun _ => 0⟩ 9 selfCall x.2.machine with
      | .ok flow _ => flow
      | .error _ _ => .normal) = some (.returned (.function ⟨1⟩)) := by decide +kernel
  obtain ⟨⟨outcome, s⟩, hr, hflow⟩ := Option.map_eq_some_iff.1 h
  have reached : s.machine.Reachable := Reachable.machine (.run (.start _) hr)
  have yields : (Task.exec selfCall).Yields ⟨s.distances, fun _ => 0⟩ 9 (.function ⟨1⟩)
      s.machine := by
    dsimp only at hflow
    split at hflow
    · rename_i hx
      exact ⟨_, hflow ▸ hx⟩
    · cases hflow
  obtain ⟨grows, wellFormed, has⟩ := reached.evolves ⟨s.distances, fun _ => 0⟩ 9 (.exec selfCall)
  exact ⟨s.machine, _, _, reached, yields, grows, wellFormed, has _ yields⟩

end Session
end Lox
