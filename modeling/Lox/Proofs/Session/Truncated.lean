/-
# Runs that fill the sink

A new session with a sink for `n` bytes runs a source as one with an unlimited sink does, if the
output fits. If it does not, the first `n` bytes are printed and the run fails with the error of the
sink (`Session.run_limited`).
-/

import Lox.Proofs.Eval.Truncated
import Lox.Proofs.Session.Reachable

namespace Lox
namespace Session

variable {clock : Nat → Float} {fuel : Nat} {source : String} {outcome : Outcome} {s : Session}

/-- What a run on a sink for `n` bytes comes to, compared to the same run on one that takes
everything. -/
structure CutRun (n : Nat) (x y : Outcome × Session) : Prop where
  fits : x.1.output.size ≤ n → SameRun x y
  full : n < x.1.output.size → y.1 = ⟨x.1.output.extract 0 n, [], some (.output .write)⟩

/-- A source that is not accepted prints nothing, whatever the sink. -/
theorem run_rejects_sink (ha : ¬ (start .unlimited).Accepts source) (n : Nat)
    (h : (start .unlimited).run clock fuel source = some (outcome, s)) :
    ∃ y, (start (.limited n)).run clock fuel source = some y ∧ CutRun n (outcome, s) y := by
  have cut : ∀ (diagnostics : List Diagnostic) (distances : Distances) (nextId : NodeId),
      finish ⟨.start .unlimited, distances, nextId⟩ diagnostics none = (outcome, s) →
        CutRun n (outcome, s)
          (finish ⟨.start (.limited n), distances, nextId⟩ diagnostics none) := by
    rintro diagnostics distances nextId h
    rw [← h]
    exact ⟨fun _ => ⟨rfl, fun _ => rfl, fun _ => rfl⟩, fun hn => absurd hn (Nat.not_lt_zero n)⟩
  unfold run at h ⊢
  dsimp only [start] at h ⊢
  split at h
  · rename_i hd
    rw [if_pos hd]
    exact ⟨_, rfl, cut _ _ _ (Option.some.inj h)⟩
  · rename_i hd
    split at h
    · rename_i hv
      rw [if_neg hd, if_pos hv]
      exact ⟨_, rfl, cut _ _ _ (Option.some.inj h)⟩
    · rename_i hv
      exact absurd ⟨by simpa [start] using hd, by simpa [resolution, start] using hv⟩ ha

/-- Statements that run to an end on an unlimited sink do so on a limited one. -/
theorem execute_cut {statements : List Stmt} {distances : Distances} {nextId : NodeId} (n : Nat)
    (h : execute ⟨.start .unlimited, distances, nextId⟩ clock fuel statements =
      some (outcome, s)) :
    ∃ y, execute ⟨.start (.limited n), distances, nextId⟩ clock fuel statements = some y ∧
      CutRun n (outcome, s) y := by
  have cut : Eval.Cut n (Eval.interpret ⟨distances, clock⟩ fuel statements (.start .unlimited))
      (Eval.interpret ⟨distances, clock⟩ fuel statements (.start (.limited n))) :=
    (Eval.interpret_truncates n _ fuel statements).cut (.start .unlimited) ⟨rfl, Nat.zero_le n⟩
  unfold execute at h ⊢
  dsimp only at h ⊢
  revert h cut
  generalize Eval.interpret ⟨distances, clock⟩ fuel statements (.start .unlimited) = r,
    Eval.interpret ⟨distances, clock⟩ fuel statements (.start (.limited n)) = r'
  intro h cut
  cases cut with
  | ok hm =>
    rw [← Option.some.inj h]
    exact ⟨_, rfl, fun _ => ⟨rfl, fun _ => rfl, fun _ => rfl⟩, fun hn =>
      absurd hm.size (Nat.not_le.2 hn)⟩
  | @error e m hm =>
    cases e with
    | outOfFuel => cases h
    | fault f =>
      rw [← Option.some.inj h]
      exact ⟨_, rfl, fun _ => ⟨rfl, fun _ => rfl, fun _ => rfl⟩, fun hn =>
        absurd hm.size (Nat.not_le.2 hn)⟩
  | @full _ m' hn hw =>
    -- Whatever came after the write that did not fit, the machine it left has the whole output.
    have output : (Eval.left r).sink.written = outcome.output := by
      cases r with
      | ok a m => exact congrArg (fun x => x.1.output) (Option.some.inj h)
      | error e m =>
        cases e with
        | outOfFuel => cases h
        | fault f => exact congrArg (fun x => x.1.output) (Option.some.inj h)
    rw [output] at hn hw
    exact ⟨_, rfl, fun hle => absurd hn (Nat.not_lt.2 hle), fun _ => by rw [← hw]; rfl⟩

/-- **A full sink cuts the output off and does nothing else.** Let a new session with an unlimited
sink run a source to an end. With a sink that takes `n` bytes, and with the same clock, the run ends
too. If the output has at most `n` bytes, the outcome is the same, and so are the globals that are
left. Otherwise exactly the first `n` bytes of the output are printed, there are no diagnostics, the
fault is the error of the sink, and the exit code is 70. -/
theorem run_limited (n : Nat)
    (h : (start .unlimited).run clock fuel source = some (outcome, s)) :
    ∃ outcome' s', (start (.limited n)).run clock fuel source = some (outcome', s') ∧
      (outcome.output.size ≤ n → SameRun (outcome, s) (outcome', s')) ∧
      (n < outcome.output.size →
        outcome' = ⟨outcome.output.extract 0 n, [], some (.output .write)⟩ ∧
          outcome'.exitCode = 70) := by
  have cut : ∃ y, (start (.limited n)).run clock fuel source = some y ∧
      CutRun n (outcome, s) y := by
    by_cases ha : (start .unlimited).Accepts source
    · have ha' : (start (.limited n)).Accepts source := ⟨ha.diagnostics, ha.violations⟩
      rw [run_of_accepts ha] at h
      rw [run_of_accepts ha']
      exact execute_cut n h
    · exact run_rejects_sink ha n h
  obtain ⟨⟨outcome', s'⟩, hr, hc⟩ := cut
  refine ⟨outcome', s', hr, hc.fits, fun hn => ?_⟩
  obtain rfl : outcome' = _ := hc.full hn
  exact ⟨rfl, rfl⟩

/-- A function prints twice from a loop and a block, and the program once more after the call. -/
def chattySource : String :=
  "fun f() { var i = true; while (i) { { print 12; i = false; print 34; } } } f(); print 5;"

/-- A case of `run_limited`: the sink gets full inside the call. -/
theorem chattySource_cut :
    ∃ outcome s, (start .unlimited).run (fun _ => 0) 20 chattySource = some (outcome, s) ∧
      outcome.output = "12\n34\n5\n".toUTF8 ∧
      ∃ outcome' s', (start (.limited 4)).run (fun _ => 0) 20 chattySource = some (outcome', s') ∧
        outcome' = ⟨"12\n3".toUTF8, [], some (.output .write)⟩ ∧ outcome'.exitCode = 70 := by
  have h : ((start .unlimited).run (fun _ => 0) 20 chattySource).map (fun x => x.1.output) =
      some "12\n34\n5\n".toUTF8 := by decide +kernel
  obtain ⟨⟨outcome, s⟩, hr, ho⟩ := Option.map_eq_some_iff.1 h
  obtain ⟨outcome', s', hr', -, full⟩ := run_limited 4 hr
  have cut : outcome.output.extract 0 4 = "12\n3".toUTF8 := by
    rw [show outcome.output = "12\n34\n5\n".toUTF8 from ho]
    decide +kernel
  have hn : 4 < outcome.output.size := by
    rw [show outcome.output = "12\n34\n5\n".toUTF8 from ho]
    decide +kernel
  exact ⟨outcome, s, hr, ho, outcome', s', hr', cut ▸ full hn⟩

end Session
end Lox
