/-
# The sessions that sources lead to

A session is reachable if it comes from a new one by running sources, each to its end, whatever the
end was (`Session.Reachable`). Between two runs the global frame is active, the table has no entry
for numbers that are still free, and everything on the heap stands where it was declared
(`Session.Sound`), as far as the table goes and whatever it may still gain.
-/

import Lox.Proofs.Eval.Mirrored
import Lox.Proofs.Grammar.Formed
import Lox.Proofs.Grammar.Numbering
import Lox.Proofs.Scope.Resolved
import Lox.Session

namespace Lox

namespace Program

/-- The numbers in the statements of a source are fresh. -/
theorem fresh (source : String) (n : NodeId) :
    Grammar.Fresh n (ofSource source n).nextId ((ofSource source n).statements.flatMap Stmt.ids) ∧
      n ≤ (ofSource source n).nextId :=
  Grammar.parse_fresh (tokens source) n

/-- The statements of a source are well formed, with names that are spelled as names. -/
theorem formed (source : String) (n : NodeId) :
    ∀ s ∈ (ofSource source n).statements, s.Formed Token.Spelled := by
  refine Grammar.parse_formed (fun t ht => ?_) n
  obtain ⟨before, last, he, hp⟩ := tokens_eq source
  rw [he, List.mem_append, List.mem_singleton] at ht
  rcases ht with ht | rfl
  · exact (hp t ht).toSpelled
  · exact ⟨fun _ h => (by cases h), fun h => (by cases h)⟩

end Program

namespace Session

/-- How the value of a global name is shown. -/
def shown? (s : Session) (name : String) : Option String :=
  (s.global? name).map s.machine.heap.text

/-- Two runs end with the same output and the same fault, and leave the same globals, which are
shown in the same way. -/
structure SameRun (x y : Outcome × Session) : Prop where
  outcome : y.1 = x.1
  globals : ∀ name, y.2.global? name = x.2.global? name
  shown : ∀ name, y.2.shown? name = x.2.shown? name

/-- The session comes from a new one by running sources. -/
inductive Reachable : Session → Prop where
  | start (sink : Sink) : Reachable (.start sink)
  | run {s s' : Session} {clock : Nat → Float} {fuel : Nat} {source : String} {outcome : Outcome}
      (hs : Reachable s) (h : s.run clock fuel source = some (outcome, s')) : Reachable s'

/-- The statements of a source. -/
abbrev statements (s : Session) (source : String) : List Stmt :=
  (Program.ofSource source s.nextId).statements

/-- What the walk over a source finds. -/
def resolution (s : Session) (source : String) : Scope.Resolution :=
  Scope.resolve (s.statements source) s.distances

/-- Nothing is wrong with the source before it runs. -/
structure Accepts (s : Session) (source : String) : Prop where
  diagnostics : (Program.ofSource source s.nextId).diagnostics = []
  violations : (s.resolution source).violations = []

/-- The session when the statements of a source start to run. -/
def prepared (s : Session) (source : String) : Session :=
  { s with
    distances := (s.resolution source).distances
    nextId := (Program.ofSource source s.nextId).nextId }

variable {s s' : Session} {clock : Nat → Float} {fuel : Nat} {source : String}
  {outcome : Outcome}

/-- A source with which nothing is wrong is run. -/
theorem run_of_accepts (h : s.Accepts source) :
    s.run clock fuel source = (s.prepared source).execute clock fuel (s.statements source) := by
  have hv : (Scope.resolve (Program.ofSource source s.nextId).statements s.distances).violations
    = [] := h.violations
  unfold run
  simp only [h.diagnostics, hv, List.isEmpty_nil, Bool.not_true, Bool.false_eq_true, if_false]
  rfl

/-- A source that is not accepted changes the numbers and perhaps the table. -/
theorem run_of_rejects (h : ¬ s.Accepts source) : ∃ diagnostics distances, diagnostics ≠ [] ∧
    (distances = s.distances ∨ distances = (s.resolution source).distances) ∧
    s.run clock fuel source = some (Session.finish ⟨s.machine, distances,
      (Program.ofSource source s.nextId).nextId⟩ diagnostics none) := by
  unfold run
  dsimp only
  cases hd : (Program.ofSource source s.nextId).diagnostics with
  | cons d ds => exact ⟨d :: ds, s.distances, by simp, .inl rfl, rfl⟩
  | nil =>
    cases hv : (Scope.resolve (Program.ofSource source s.nextId).statements
        s.distances).violations with
    | nil => exact absurd ⟨hd, hv⟩ h
    | cons v vs =>
      exact ⟨(v :: vs).map .scope, (s.resolution source).distances, by simp, .inr rfl, rfl⟩

/-- The table says of the numbers given out so far what the session's table says. -/
def Keeps (s : Session) (D : Distances) : Prop := ∀ id < s.nextId, D.get? id = s.distances.get? id

/-- What holds between two runs. -/
structure Sound (s : Session) : Prop where
  frame : s.machine.frame = .global
  free : ∀ id, s.nextId ≤ id → s.distances.get? id = none
  bound : s.machine.heap.Bound s.Keeps

/-- A new session is sound. -/
theorem sound_start (sink : Sink) : (start sink).Sound where
  frame := rfl
  free _ _ := rfl
  bound := ⟨fun _ _ h => (by cases h), fun _ _ h => (by cases h)⟩

/-- The walk over a source leaves the entries from before it alone. -/
theorem resolution_old {id : NodeId} (hid : id < s.nextId) :
    (s.resolution source).distances.get? id = s.distances.get? id := by
  refine Scope.resolve_frame _ _ fun hm => ?_
  exact Nat.not_le.2 hid ((Program.fresh source s.nextId).1.range hm).1

/-- The walk over a source makes no entries for numbers that are still free. -/
theorem resolution_free (hs : s.Sound) {id : NodeId}
    (hid : (Program.ofSource source s.nextId).nextId ≤ id) :
    (s.resolution source).distances.get? id = none := by
  obtain ⟨hf, hle⟩ := Program.fresh source s.nextId
  rw [resolution, Scope.resolve_frame _ _ fun hm => Nat.not_lt.2 hid (hf.range hm).2]
  exact hs.free id (Nat.le_trans hle hid)

/-- A session is sound when the statements of a source start to run. -/
theorem sound_prepared (hs : s.Sound) (source : String) : (s.prepared source).Sound where
  frame := hs.frame
  free _ hid := resolution_free hs hid
  bound := hs.bound.mono fun _ hD id hid =>
    (hD id (Nat.lt_of_lt_of_le hid (Program.fresh source s.nextId).2)).trans (resolution_old hid)

/-- The names of an accepted source are in their places. -/
theorem Accepts.placed {strict : Bool} (h : s.Accepts source) (hs : s.Sound)
    (ha : strict = true → Stmt.assignsOwnList false (s.statements source) = false) :
    Stmt.PlacedList strict (s.prepared source).Keeps (s.statements source) [] := by
  have hf := (Program.fresh source s.nextId).1
  refine Scope.resolve_placed (Program.formed source s.nextId) hf.nodup (fun id hid => ?_)
    h.violations ha fun D hD id hid => hD id (hf.range hid).2
  exact hs.free id (hf.range hid).1

end Session

namespace Eval

/-- A program with its names in their places leaves the heap bound and the global frame active. -/
theorem execProgram_binds {T : Distances → Prop} (p : Setting) (fuel : Nat) : ∀ ss : List Stmt,
    Stmt.PlacedList false T ss [] →
      Binds T (Machine.Stands []) (execProgram p fuel ss) fun _ m => m.Stands []
  | [], _ => fun _ hb hm => ⟨hb, fun _ _ h => by cases h; exact hm⟩
  | s :: ss, hp => by
    rw [Stmt.PlacedList, Stmt.scopesAfter_nil] at hp
    have hs := ((eval_exec_binds T p fuel).2 s [] hp.1).standing (exec_keeps p fuel s) []
    exact (hs.weaken (fun _ h => ⟨h, h⟩) fun _ _ h => h.2).bind fun _ =>
      execProgram_binds p fuel ss hp.2

/-- Flushing leaves the machine as the program left it. -/
theorem after_interpret (p : Setting) (fuel : Nat) (ss : List Stmt) (m : Machine) :
    after (interpret p fuel ss) m = after (execProgram p fuel ss) m := by
  change after (EStateM.bind (execProgram p fuel ss) fun _ => flush) m = _
  unfold after EStateM.bind flush
  cases execProgram p fuel ss m with
  | error e m' => rfl
  | ok a m' => cases h : m'.sink.refusesFlush <;> simp [h]

end Eval

namespace Session

variable {s s' : Session} {clock : Nat → Float} {fuel : Nat} {source : String}
  {outcome : Outcome}

/-- A run hands its output on and leaves the session as the statements left it. -/
theorem execute_session {statements : List Stmt}
    (h : s.execute clock fuel statements = some (outcome, s')) :
    ∃ sink, s' = { s with machine := { Eval.after
      (Eval.execProgram ⟨s.distances, clock⟩ fuel statements) s.machine with sink := sink } } := by
  rw [← Eval.after_interpret]
  unfold execute at h
  split at h
  · rename_i hi
    rw [Eval.after_ok hi]
    cases h
    exact ⟨_, rfl⟩
  · rename_i hi
    rw [Eval.after_error hi]
    cases h
    exact ⟨_, rfl⟩
  · cases h

/-- A session is sound when the statements of a source have run. -/
theorem sound_execute {statements : List Stmt} (hs : s.Sound)
    (hp : Stmt.PlacedList false s.Keeps statements [])
    (h : s.execute clock fuel statements = some (outcome, s')) : s'.Sound := by
  have hb := (Eval.execProgram_binds ⟨s.distances, clock⟩ fuel statements hp s.machine hs.bound
    hs.frame).1
  have hk := Eval.execProgram_keeps ⟨s.distances, clock⟩ fuel statements s.machine
  obtain ⟨sink, rfl⟩ := execute_session h
  exact ⟨hk.frame.trans hs.frame, hs.free, hb⟩

/-- **Every reachable session is sound.** -/
theorem Reachable.sound (h : s.Reachable) : s.Sound := by
  induction h with
  | start sink => exact sound_start sink
  | @run s s' clock fuel source outcome _ h hs =>
    by_cases ha : s.Accepts source
    · rw [run_of_accepts ha] at h
      exact sound_execute (sound_prepared hs source) (ha.placed hs (by simp)) h
    · obtain ⟨ds, distances, -, hd, hr⟩ := run_of_rejects ha
      rw [hr] at h
      cases h
      have hsound := sound_prepared hs source
      rcases hd with rfl | rfl
      · have hle := (Program.fresh source s.nextId).2
        exact ⟨hs.frame, fun id hid => hs.free id (Nat.le_trans hle hid),
          hs.bound.mono fun _ hD id hid => hD id (Nat.lt_of_lt_of_le hid hle)⟩
      · exact ⟨hs.frame, hsound.free, hsound.bound⟩

end Session

end Lox
