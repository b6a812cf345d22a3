/-
# Sources without loops end

However functions, methods and classes call one another, a source whose tree has no loop runs to an
outcome, and so do all sources of a session if none of them has one
(`Session.loopFree_ends`). The functions that are left on the heap by one source have no loops when
a later one calls them, and there are never more than `maxCalls` calls inside one another.
-/

import Lox.Proofs.Eval.LoopFree
import Lox.Proofs.Session.Rejected
import Lox.Proofs.Session.Restored

namespace Lox

namespace Program

/-- Whether the tree of the source has no loop. -/
def loopFree (source : String) : Bool := Stmt.loopFreeList (ofSource source 0).statements

/-- The height of the tree of the source. -/
def height (source : String) : Nat := Stmt.heightList (ofSource source 0).statements

end Program

namespace Session

variable {s : Session} {clock : Nat → Float} {fuel : Nat} {source : String} {bound : Nat}

/-- The fuel that lasts for all sources of that height. -/
def enough (bound : Nat) : Nat := (maxCalls + 1) * bound

/-- Wherever the numbers of the source start, its tree has no loops and is as high. -/
theorem statements_low (s : Session) (hl : Program.loopFree source = true)
    (hh : Program.height source ≤ bound) :
    ∀ st ∈ s.statements source, st.Obeys (.low bound) () ∧ st.height ≤ bound := by
  have alike := Program.statements_alike faithful_eq (List.forall₂_refl (tokens source)) 0 s.nextId
  have loops : Stmt.loopFreeList (s.statements source) = true := alike.loopFree.trans hl
  have low : Stmt.heightList (s.statements source) ≤ bound :=
    Nat.le_trans (Nat.le_of_eq alike.height) hh
  have obeys := Stmt.obeysList_iff.1 (Stmt.obeysList_low loops low)
  intro st hst
  exact ⟨obeys st hst, Nat.le_trans (Stmt.height_le_of_mem hst) low⟩

/-- Between two runs enough fuel lasts for a source of the height. -/
theorem Reachable.ample (hs : s.Reachable) (hl : (Invariant.low bound).Holds s.machine.heap)
    (hf : enough bound ≤ fuel) : Eval.Ample bound bound fuel s.machine := by
  refine ⟨hl, ?_⟩
  have room : enough bound = maxCalls * bound + bound := Nat.succ_mul maxCalls bound
  rw [hs.calls, Nat.sub_zero]
  omega

/-- Statements without loops run to an outcome, which does not depend on the fuel. -/
theorem execute_ends {statements : List Stmt} (hf : enough bound ≤ fuel)
    (hs : ∀ st ∈ statements, st.Obeys (.low bound) () ∧ st.height ≤ bound)
    (ha : Eval.Ample bound bound (enough bound) s.machine) :
    ∃ x, s.execute clock fuel statements = some x ∧
      s.execute clock (enough bound) statements = some x ∧
        (Invariant.low bound).Holds x.2.machine.heap := by
  obtain ⟨same, ends⟩ := Eval.interpret_agree ⟨s.distances, clock⟩ hf hs ha
  have kept := (Invariant.execProgram_sustains ⟨s.distances, clock⟩ (enough bound) statements
    s.machine ha.stands fun st hst => (hs st hst).1).1.holds
  rw [← Eval.after_interpret] at kept
  unfold execute
  rw [same]
  cases h : Eval.interpret ⟨s.distances, clock⟩ (enough bound) statements s.machine with
  | ok _ m =>
    rw [Eval.after_ok h] at kept
    exact ⟨_, rfl, rfl, kept⟩
  | error stop m =>
    rw [Eval.after_error h] at kept
    cases stop with
    | outOfFuel => exact absurd h (ends m)
    | fault f => exact ⟨_, rfl, rfl, kept⟩

/-- What is rejected is rejected whatever fuel there is. -/
theorem run_rejects_fuel (h : ¬ s.Accepts source) (fuel fuel' : Nat) :
    s.run clock fuel source = s.run clock fuel' source := by
  unfold run
  dsimp only
  split
  · rfl
  · rename_i hd
    split
    · rfl
    · rename_i hv
      exact absurd ⟨by simpa using hd, by simpa [resolution] using hv⟩ h

/-- So does a source, and it leaves no loops on the heap. -/
theorem Reachable.run_ends (hs : s.Reachable) (clock : Nat → Float)
    (hm : (Invariant.low bound).Holds s.machine.heap)
    (hl : Program.loopFree source = true) (hh : Program.height source ≤ bound)
    (hf : enough bound ≤ fuel) :
    ∃ x, s.run clock fuel source = some x ∧ s.run clock (enough bound) source = some x ∧
      (Invariant.low bound).Holds x.2.machine.heap := by
  by_cases ha : s.Accepts source
  · rw [run_of_accepts ha, run_of_accepts ha]
    exact execute_ends hf (statements_low s hl hh) (hs.ample hm (Nat.le_refl _))
  · obtain ⟨ds, distances, -, -, hr⟩ := run_of_rejects ha
    exact ⟨_, (run_rejects_fuel ha fuel _).trans hr, hr, hm⟩

/-- What is asked of a session, whatever fuel there is: the clock and the source of each run. -/
abbrev asked (requests : List Request) : List ((Nat → Float) × String) :=
  requests.map fun r => (r.clock, r.source)

/-- Sources without loops run to their ends one after the other, with the same results for all fuels
that are enough. -/
theorem Reachable.runAll_ends : ∀ (runs : List ((Nat → Float) × String)) {s : Session},
    s.Reachable → (Invariant.low bound).Holds s.machine.heap →
    (∀ run ∈ runs, Program.loopFree run.2 = true ∧ Program.height run.2 ≤ bound) →
      ∃ results, results.length = runs.length ∧ ∀ requests, asked requests = runs →
        (∀ r ∈ requests, enough bound ≤ r.fuel) → s.runAll requests = some results
  | [], s, _, _, _ => by
    refine ⟨[], rfl, fun requests hr _ => ?_⟩
    cases List.map_eq_nil_iff.1 hr
    rfl
  | (clock, source) :: runs, s, hs, hm, hruns => by
    obtain ⟨hl, hh⟩ := hruns (clock, source) (by simp)
    obtain ⟨x, hx, -, hm'⟩ := hs.run_ends clock hm hl hh (Nat.le_refl _)
    obtain ⟨results, hlen, hrest⟩ := Reachable.runAll_ends runs (.run hs hx) hm' fun run h =>
      hruns run (by simp [h])
    refine ⟨x :: results, by simp [hlen], fun requests hr hf => ?_⟩
    obtain ⟨r, rs, rfl, hfirst, hrs⟩ := List.map_eq_cons_iff.1 hr
    cases hfirst
    obtain ⟨y, hy, hy', -⟩ := hs.run_ends r.clock hm hl hh (hf r (by simp))
    obtain rfl : x = y := Option.some.inj (hx.symm.trans hy')
    have rest := hrest rs hrs fun r h => hf r (by simp [h])
    simp only [runAll, hy, rest, Option.bind_eq_bind, Option.bind_some]
    rfl

/-- **Sources without loops end.** In a new session, run any sources whose trees have no loop
anywhere, by whatever clocks. Some amount of fuel is enough for every run to come to an outcome, one
for each source, and with any larger amounts the outcomes are the same. -/
theorem loopFree_ends (sink : Sink) (runs : List ((Nat → Float) × String))
    (h : ∀ run ∈ runs, Program.loopFree run.2 = true) :
    ∃ fuel results, results.length = runs.length ∧ ∀ requests, asked requests = runs →
      (∀ r ∈ requests, fuel ≤ r.fuel) → (start sink).runAll requests = some results := by
  have bounded : ∃ bound, ∀ run ∈ runs, Program.height run.2 ≤ bound := by
    clear h
    induction runs with
    | nil => exact ⟨0, fun _ h => by cases h⟩
    | cons run runs ih =>
      obtain ⟨bound, hb⟩ := ih
      refine ⟨max (Program.height run.2) bound, fun r hr => ?_⟩
      rcases List.mem_cons.1 hr with rfl | hr
      · exact Nat.le_max_left _ _
      · exact Nat.le_trans (hb r hr) (Nat.le_max_right _ _)
  obtain ⟨bound, hb⟩ := bounded
  have empty : (Invariant.low bound).Holds (start sink).machine.heap :=
    ⟨fun _ _ h => (by cases h), fun _ _ h => (by cases h), trivial⟩
  exact ⟨enough bound, Reachable.runAll_ends runs (.start sink) empty fun run hr =>
    ⟨h run hr, hb run hr⟩⟩

/-- A class whose objects make more objects, and a function that calls itself. -/
def endlessSource : String :=
  "class A { init() { A(); } m() { this.m(); } } fun f() { return f(); }"

/-- A case of `loopFree_ends`: what would go on for ever ends at the most calls in progress. -/
theorem endlessSource_ends :
    Program.loopFree endlessSource = true ∧ Program.loopFree "A();" = true ∧
    Program.loopFree "f();" = true ∧
    ∃ fuel results, results.length = 3 ∧ ∀ requests,
      asked requests = [(fun _ => 0, endlessSource), (fun _ => 0, "A();"), (fun _ => 0, "f();")] →
      (∀ r ∈ requests, fuel ≤ r.fuel) → (start .unlimited).runAll requests = some results := by
  have h₁ : Program.loopFree endlessSource = true := by decide +kernel
  have h₂ : Program.loopFree "A();" = true := by decide +kernel
  have h₃ : Program.loopFree "f();" = true := by decide +kernel
  refine ⟨h₁, h₂, h₃, loopFree_ends .unlimited
    [(fun _ => 0, endlessSource), (fun _ => 0, "A();"), (fun _ => 0, "f();")] fun run hr => ?_⟩
  simp only [List.mem_cons, List.not_mem_nil, or_false] at hr
  rcases hr with rfl | rfl | rfl
  · exact h₁
  · exact h₂
  · exact h₃

end Session
end Lox
