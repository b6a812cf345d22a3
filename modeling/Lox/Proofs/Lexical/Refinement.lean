/-
# Distances are lexical scoping

A program that nothing is wrong with, and whose local variables are not assigned to in their own
initializers, does the same with the distances of its names as without them, when names are looked
up outward by name and each local declaration has a frame of its own (`run_sameRun`).
-/

import Lox.Proofs.Lexical.Statements
import Lox.Proofs.Session.Reachable

namespace Lox
namespace Lexical

open Session (SameRun)

section

variable {T : Distances → Prop}

/-- New machines do not differ. -/
theorem rel_start (sink : Sink) : Rel T (fun _ _ => .global) (.start sink) (.start sink) := by
  have hg : ∀ r name, (Machine.initialHeap.getLocal? r name).isSome = true → r = .global := by
    intro r name hb
    obtain ⟨f, hf⟩ := Option.isSome_iff_exists.1 (Heap.frame?_isSome_of_getLocal? hb)
    have := Heap.lt_size_of_frame? hf
    obtain ⟨i⟩ := r
    cases i with
    | zero => rfl
    | succ i => exact absurd this (Nat.not_lt.2 (Nat.le_add_left 1 i))
  refine ⟨⟨⟨fun r name hb => ?_, fun r r' name hb hb' _ => ?_, fun _ => rfl, fun _ => rfl, rfl,
    rfl⟩, ?_⟩, rfl, rfl, rfl⟩
  · rw [hg r name hb]
  · rw [hg r name hb, hg r' name hb']
  · exact ⟨fun _ => .none, rfl, fun _ => .none, rfl, rfl⟩

/-- On new machines both evaluators are at the same place, outside of all scopes. -/
theorem at_start (sink : Sink) : At [] (pair (fun _ _ => .global) (.start sink) (.start sink))
    .global .global := by
  refine ⟨⟨rfl, fun _ _ h => (by cases h), fun _ _ => .here rfl (.inl rfl), fun _ => ⟨rfl, rfl⟩,
    fun h => absurd rfl h⟩, trivial⟩

/-- The statements of a program with its names in their places are run in step. -/
theorem sim_execProgram {p : Setting} (hT : T p.distances) (fuel : Nat) : ∀ ss : List Stmt,
    Stmt.PlacedList true T ss [] →
      Sim T (At []) (Eval.execProgram p fuel ss) (execProgram p.clock fuel ss) (Same (At []))
  | [], _ => sim_return _
  | s :: ss, hp => by
    rw [Stmt.PlacedList, Stmt.scopesAfter_nil] at hp
    have hs := (eval_exec_sim hT fuel).2 s [] hp.1
    rw [Stmt.scopesAfter_nil] at hs
    exact hs.same fun _ => sim_execProgram hT fuel ss hp.2

/-- Handing on the output is done in step. -/
theorem sim_flush {pre : Assertion} : Sim T pre Eval.flush Eval.flush (Same pre) := by
  intro home m m' hr hp
  unfold Eval.flush
  rw [hr.sink]
  cases m.sink.refusesFlush with
  | false => exact .ok hr (.refl _) ⟨rfl, hp⟩
  | true => exact .error hr (.refl _)

/-- A program with its names in their places is run in step. -/
theorem sim_interpret {p : Setting} (hT : T p.distances) (fuel : Nat) {ss : List Stmt}
    (hp : Stmt.PlacedList true T ss []) :
    Sim T (At []) (Eval.interpret p fuel ss) (interpret p.clock fuel ss) (Same (At [])) :=
  (sim_execProgram hT fuel ss hp).same fun _ => sim_flush

end

/-- Runs that end on machines that do not differ are the same. -/
theorem Rel.sameRun {T : Distances → Prop} {home : FrameRef → String → FrameRef}
    {m m' : Machine} (hr : Rel T home m m') (D D' : Distances) (n n' : NodeId)
    (fault : Option Fault) :
    SameRun (Session.finish ⟨m, D, n⟩ [] fault) (Session.finish ⟨m', D', n'⟩ [] fault) := by
  have hg : ∀ name, m'.heap.getLocal? .global name = m.heap.getLocal? .global name :=
    hr.matched.globals
  refine ⟨?_, hg, fun name => ?_⟩
  · simp only [Session.finish, hr.sink]
  · change (m'.heap.getLocal? .global name).map m'.heap.text =
      (m.heap.getLocal? .global name).map m.heap.text
    rw [hg, funext hr.text_eq]

/-- **Distances are lexical scoping.** A source that is scanned, parsed and resolved without a
diagnostic, and in which no local variable is assigned to in its own initializer, runs in the same
way with and without the distances of its names: either both runs need more fuel, or both print the
same, end with the same fault or without one, and leave the same globals. -/
theorem run_sameRun (clock : Nat → Float) (fuel : Nat) (sink : Sink) (source : String)
    (ha : (Session.start sink).Accepts source)
    (hn : Stmt.assignsOwnList false ((Session.start sink).statements source) = false) :
    Option.Rel SameRun ((Session.start sink).run clock fuel source)
      (run clock fuel sink source) := by
  rw [Session.run_of_accepts ha]
  have hp : Stmt.PlacedList true _ _ [] := ha.placed (Session.sound_start sink) fun _ => hn
  have h : Ends _ _ _
      (Eval.interpret ⟨((Session.start sink).prepared source).distances, clock⟩ fuel
        ((Session.start sink).statements source) ((Session.start sink).prepared source).machine)
      (interpret clock fuel (Program.ofSource source 0).statements (Machine.start sink)) :=
    sim_interpret (fun _ _ => rfl) fuel hp _ _ _ (rel_start sink) (at_start sink)
  unfold Session.execute run
  dsimp only
  revert h
  generalize Eval.interpret _ _ _ _ = x, interpret _ _ _ _ = y
  intro h
  cases h with
  | ok hr => exact .some (hr.sameRun ..)
  | @error e _ _ _ hr =>
    cases e with
    | fault f => exact .some (hr.sameRun ..)
    | outOfFuel => exact .none

/-- A function is called before and after its block declares a variable with the name of the global
one that it reads. -/
def shadowedSource : String := "var a = 1; { fun f() { print a; } f(); var a = 2; f(); print a; }"

/-- A case of `run_sameRun`: the function reads the global variable both times. -/
theorem run_sameRun_shadowed :
    (Session.start .unlimited).Accepts shadowedSource ∧
    Stmt.assignsOwnList false ((Session.start .unlimited).statements shadowedSource) = false ∧
    Option.Rel SameRun ((Session.start .unlimited).run (fun _ => 0) 10 shadowedSource)
      (run (fun _ => 0) 10 .unlimited shadowedSource) := by
  have ha : (Session.start .unlimited).Accepts shadowedSource :=
    ⟨by decide +kernel, by decide +kernel⟩
  have hn : Stmt.assignsOwnList false ((Session.start .unlimited).statements shadowedSource) =
    false := by decide +kernel
  exact ⟨ha, hn, run_sameRun _ _ _ _ ha hn⟩

end Lexical
end Lox
