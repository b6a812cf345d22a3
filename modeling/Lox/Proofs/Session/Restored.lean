/-
# Every computation comes back

A statement, a block, an expression or a call leaves the active frame and the number of calls in
progress as it found them: when it goes through, when it returns, when it fails and when the output
cannot be written (`Eval.Restores`). So a session stands in the global frame with no call in
progress between any two runs, whatever became of the runs before (`restores_reachable`).
-/

import Lox.Proofs.Session.Reachable

namespace Lox

namespace Eval

variable {α : Type}

/-- However the computation ends, the active frame and the number of calls in progress are those it
was started with. -/
def Restores (c : Eval α) : Prop :=
  ∀ m : Machine, (after c m).frame = m.frame ∧ (after c m).calls = m.calls

/-- What every computation keeps are the active frame and the number of calls, among other things.
-/
theorem Keeps.restores {declares : Prop} {c : Eval α} (h : Keeps declares c) : Restores c :=
  fun m => ⟨(h m).frame, (h m).calls⟩

/-- Whatever frame a computation is run in, the old one comes back. -/
theorem inFrame_restores {c : Eval α} (hc : Restores c) (r : FrameRef) :
    Restores (inFrame r c) := by
  intro m
  have h := (hc { m with frame := r }).2
  unfold after at h ⊢
  unfold inFrame
  cases hr : c { m with frame := r } with
  | ok a m' =>
    rw [hr] at h
    exact ⟨rfl, h⟩
  | error e m' =>
    rw [hr] at h
    exact ⟨rfl, h⟩

end Eval

namespace Session

/-- Between two runs no call is in progress. -/
theorem Reachable.calls {s : Session} (h : s.Reachable) : s.machine.calls = 0 := by
  induction h with
  | start sink => rfl
  | @run s s' clock fuel source outcome _ h hs =>
    by_cases ha : s.Accepts source
    · rw [run_of_accepts ha] at h
      obtain ⟨sink, rfl⟩ := execute_session h
      exact (Eval.execProgram_keeps _ fuel _ _).calls.trans hs
    · obtain ⟨ds, distances, -, -, hr⟩ := run_of_rejects ha
      rw [hr] at h
      cases h
      exact hs

/-- **Every way out restores the machine.** For every tree, every table of distances and every
machine, whatever its sink, a statement, an expression, a list of statements run in some frame, and
a call leave the active frame and the number of calls in progress as they were. So in every session
that sources have been run in, to whatever ends, the global frame is active and no call is in
progress. -/
theorem restores_reachable (p : Setting) (fuel : Nat) :
    (∀ s, Eval.Restores (Eval.exec p fuel s)) ∧
    (∀ e, Eval.Restores (Eval.eval p fuel e)) ∧
    (∀ frame body, Eval.Restores (Eval.inFrame frame (Eval.inOrder (Eval.exec p fuel) body))) ∧
    (∀ args callable, Eval.Restores (Eval.apply p.clock (Eval.exec p fuel) args callable)) ∧
    ∀ s : Session, s.Reachable → s.machine.frame = .global ∧ s.machine.calls = 0 := by
  have hx := Eval.exec_keeps p fuel
  refine ⟨fun s => (hx s).restores, fun e => (Eval.eval_keeps p fuel e).restores, ?_, ?_, ?_⟩
  · exact fun frame body => Eval.inFrame_restores (Eval.inOrder_keeps hx body).restores frame
  · intro args c
    have hc : Eval.Keeps False (Eval.apply p.clock (Eval.exec p fuel) args c) :=
      Eval.apply_keeps p.clock hx args c
    exact hc.restores
  · exact fun s hs => ⟨hs.sound.frame, hs.calls⟩

/-- A method fails in a block inside a call inside a block. -/
def failingSource : String :=
  "class A { m(x) { { return -x; } } } fun f() { return A().m(nil); } { f(); }"

/-- A case of `restores_reachable`: the run fails two calls and four frames deep. -/
theorem failingSource_restored : ∃ outcome s',
    (start .unlimited).run (fun _ => 0) 20 failingSource = some (outcome, s') ∧
    outcome.fault = some (.trouble .operandNotNumber ⟨.punct .minus, "-", 1⟩) ∧
    s'.machine.frame = .global ∧ s'.machine.calls = 0 := by
  have h : ((start .unlimited).run (fun _ => 0) 20 failingSource).map (·.1.fault) =
    some (some (.trouble .operandNotNumber ⟨.punct .minus, "-", 1⟩)) := by decide +kernel
  obtain ⟨⟨outcome, s'⟩, hr, hf⟩ := Option.map_eq_some_iff.1 h
  exact ⟨outcome, s', hr, hf,
    (restores_reachable ⟨∅, fun _ => 0⟩ 20).2.2.2.2 s' (.run (.start _) hr)⟩

end Session

end Lox
