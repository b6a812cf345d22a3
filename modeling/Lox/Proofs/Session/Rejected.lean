/-
# Sources that are rejected

A source that something is wrong with before it runs uses up node numbers, and may leave entries in
the table of distances. Nothing else tells of it: in all that is run later, the outcomes and the
globals are those without it (`rejected_invisible`). Later trees have other numbers then, and tables
with more in them; but each node has the distance of its name in either session, as it was declared,
so the two are twins (`Session.Twin`), and runs keep twins twins (`Twin.run`).
-/

import Lox.Proofs.Session.Alike

namespace Lox
namespace Session

/-- Two sessions in which every node that can still run has the same distance. -/
structure Twin (s s' : Session) : Prop where
  reachable : s.Reachable
  reachable' : s'.Reachable
  machine : s.machine.Twin Eq (SameEntry s.Keeps s'.Keeps) .empty s'.machine

variable {s s' : Session} {clock : Nat → Float} {fuel : Nat} {source : String}
  {outcome : Outcome}

/-- A table that keeps what a session has found behind a run keeps what it had found before. -/
theorem keeps_of_run {D : Distances} (h : s.run clock fuel source = some (outcome, s'))
    (hD : s'.Keeps D) : s.Keeps D := by
  by_cases ha : s.Accepts source
  · rw [run_of_accepts ha] at h
    obtain ⟨sink, rfl⟩ := execute_session h
    exact keeps_of_prepared hD
  · obtain ⟨ds, distances, -, rfl | rfl, hr⟩ := run_of_rejects ha
    · rw [hr] at h
      cases h
      exact keeps_of_later (t := ⟨_, s.distances, _⟩) (Program.fresh source s.nextId).2
        (fun _ _ => rfl) hD
    · rw [hr] at h
      cases h
      exact keeps_of_prepared hD

/-- The same is reported of a source that is rejected, and the machines stay as they are. -/
theorem run_twins_of_rejects (ha : ¬ s.Accepts source) {J : NodeId → NodeId → Prop}
    (hm : s.machine.Twin Eq J .empty s'.machine) :
    Option.Rel (RunTwin Eq J .empty) (s.run clock fuel source) (s'.run clock fuel source) := by
  have diagnostics := Program.diagnostics_eq source s.nextId s'.nextId
  have violations := violations_eq s s' source
  unfold resolution at violations
  unfold run
  dsimp only
  rw [← diagnostics, ← violations]
  split
  · exact .some (finish_twins hm _ .none)
  · rename_i hd
    split
    · exact .some (finish_twins hm _ .none)
    · rename_i hv
      exact absurd ⟨by simpa using hd, by simpa [resolution] using hv⟩ ha

/-- An accepted source does the same in both sessions. -/
theorem run_twins_of_accepts (ha : s.Accepts source) (h : s.Twin s') :
    Option.Rel (RunTwin Eq (SameEntry (s.prepared source).Keeps (s'.prepared source).Keeps) .empty)
      (s.run clock fuel source) (s'.run clock fuel source) := by
  rw [run_of_accepts ha, run_of_accepts (ha.of_session s')]
  refine execute_twins faithful_eq (fun id id' he => ?_) ?_
    (ha.alike h.reachable.sound h.reachable'.sound) clock fuel
  · exact he _ _ (fun _ _ => rfl) fun _ _ => rfl
  · exact h.machine.mono (sameEntry_of_keeps (fun _ => keeps_of_prepared) fun _ => keeps_of_prepared)

/-- Twins stay twins in a run, and it is the same run for both. -/
theorem Twin.run (h : s.Twin s') (clock : Nat → Float) (fuel : Nat) (source : String) :
    Option.Rel (fun x y => SameRun x y ∧ x.2.Twin y.2) (s.run clock fuel source)
      (s'.run clock fuel source) := by
  have twins : ∃ J, Option.Rel (RunTwin Eq J .empty) (s.run clock fuel source)
      (s'.run clock fuel source) ∧ ∀ x y, s.run clock fuel source = some x →
        s'.run clock fuel source = some y →
          ∀ id id', J id id' → SameEntry x.2.Keeps y.2.Keeps id id' := by
    by_cases ha : s.Accepts source
    · refine ⟨_, run_twins_of_accepts ha h, fun x y hx hy => ?_⟩
      rw [run_of_accepts ha] at hx
      rw [run_of_accepts (ha.of_session s')] at hy
      obtain ⟨_, hx⟩ := execute_session hx
      obtain ⟨_, hy⟩ := execute_session hy
      rw [hx, hy]
      exact fun _ _ he => he
    · exact ⟨_, run_twins_of_rejects ha h.machine, fun x y hx hy =>
        sameEntry_of_keeps (fun _ => keeps_of_run hx) fun _ => keeps_of_run hy⟩
  obtain ⟨J, twins, entries⟩ := twins
  have reachable : ∀ x, s.run clock fuel source = some x → x.2.Reachable :=
    fun x hx => .run h.reachable hx
  have reachable' : ∀ y, s'.run clock fuel source = some y → y.2.Reachable :=
    fun y hy => .run h.reachable' hy
  revert twins entries reachable reachable'
  generalize s.run clock fuel source = x, s'.run clock fuel source = y
  intro twins entries reachable reachable'
  cases twins with
  | none => exact .none
  | some ht =>
    exact .some ⟨ht.sameRun, reachable _ rfl, reachable' _ rfl,
      ht.machine.mono (entries _ _ rfl rfl)⟩

/-- What is asked of a session: to run a source, by a clock and with so much fuel. -/
structure Request where
  clock : Nat → Float
  fuel : Nat
  source : String

/-- Runs sources one after the other. -/
def runAll (s : Session) : List Request → Option (List (Outcome × Session))
  | [] => some []
  | r :: rs => do
    let x ← s.run r.clock r.fuel r.source
    let xs ← x.2.runAll rs
    return x :: xs

/-- Twins go through the same runs. -/
theorem Twin.runAll : ∀ (requests : List Request) {s s' : Session}, s.Twin s' →
    Option.Rel (List.Forall₂ SameRun) (s.runAll requests) (s'.runAll requests)
  | [], _, _, _ => .some .nil
  | r :: rs, s, s', h => by
    have first := h.run r.clock r.fuel r.source
    rw [Session.runAll, Session.runAll]
    revert first
    generalize s.run r.clock r.fuel r.source = x, s'.run r.clock r.fuel r.source = y
    intro first
    cases first with
    | none => exact .none
    | @some x y hxy =>
      have rest := Twin.runAll rs hxy.2
      change Option.Rel _ ((x.2.runAll rs).bind fun xs => some (x :: xs))
        ((y.2.runAll rs).bind fun ys => some (y :: ys))
      revert rest
      generalize x.2.runAll rs = xs, y.2.runAll rs = ys
      intro rest
      cases rest with
      | none => exact .none
      | some rest => exact .some (.cons hxy.1 rest)

/-- A run ends by handing on what was printed, with the diagnostics only if it was not executed. -/
theorem run_eq_finish (h : s.run clock fuel source = some (outcome, s')) :
    ∃ t diagnostics fault, finish t diagnostics fault = (outcome, s') ∧
      (s.Accepts source → diagnostics = []) := by
  by_cases ha : s.Accepts source
  · rw [run_of_accepts ha] at h
    unfold execute at h
    split at h
    · exact ⟨_, [], _, Option.some.inj h, fun _ => rfl⟩
    · exact ⟨_, [], _, Option.some.inj h, fun _ => rfl⟩
    · cases h
  · obtain ⟨ds, distances, -, -, hr⟩ := run_of_rejects ha
    rw [hr] at h
    exact ⟨_, ds, _, Option.some.inj h, fun h => absurd h ha⟩

/-- Nothing is left to be handed on after a run. -/
theorem written_of_run (h : s.run clock fuel source = some (outcome, s')) :
    s'.machine.sink.written = .empty := by
  obtain ⟨t, diagnostics, fault, hf, -⟩ := run_eq_finish h
  cases hf
  rfl

/-- Between two runs nothing waits to be handed on. -/
theorem Reachable.written (hs : s.Reachable) : s.machine.sink.written = .empty := by
  cases hs with
  | start sink => rfl
  | run _ h => exact written_of_run h

/-- **A rejected source is invisible.** Whatever is run in a session after a source that something
was found wrong with before it ran, the outcomes and the globals are those without it. The source
itself prints nothing and leaves the whole machine as it is: all frames and which one is active, the
number of calls in progress, functions, classes and objects. -/
theorem Reachable.rejected_invisible (hs : s.Reachable)
    (h : s.run clock fuel source = some (outcome, s')) (hd : outcome.diagnostics ≠ []) :
    outcome.output = .empty ∧ outcome.fault = none ∧ s'.machine = s.machine ∧
      ∀ later, Option.Rel (List.Forall₂ SameRun) (s.runAll later) (s'.runAll later) := by
  have ha : ¬ s.Accepts source := by
    intro ha
    obtain ⟨t, diagnostics, fault, hf, hn⟩ := run_eq_finish h
    cases hf
    exact hd (hn ha)
  obtain ⟨ds, distances, -, -, hr⟩ := run_of_rejects ha
  have hf := Option.some.inj (hr.symm.trans h)
  have machine : s'.machine = s.machine := calc
    s'.machine = { s.machine with sink := s.machine.sink.drain.2 } :=
      (congrArg (fun x => x.2.machine) hf).symm
    _ = s.machine := by rw [Sink.drain, ← hs.written]
  have heap := hs.sound.bound.twin faithful_eq (fun _ hD => hD) (fun _ => keeps_of_run h)
    fun _ _ => rfl
  have twin : s.Twin s' := by
    refine ⟨hs, .run hs h, ?_⟩
    rw [machine]
    exact heap.machine
  exact ⟨(congrArg (fun x => x.1.output) hf).symm.trans hs.written,
    (congrArg (fun x => x.1.fault) hf).symm, machine, fun later => Twin.runAll later twin⟩

/-- A function that sees a variable of the call it was made in. -/
def makerSource : String :=
  "fun make(n) { fun get() { return n; } return get; } var get = make(nil);"

/-- A block declares a name for the second time, after the name was used. -/
def redeclaringSource : String := "{ var a = true; { print a; } var a; }"

/-- A case of `rejected_invisible`: both the function from before and the block from after the
rejected source go by the distances of their names. -/
theorem redeclaringSource_invisible : ∃ (s : Session) (outcome : Outcome) (s' : Session),
    s.Reachable ∧ s.run (fun _ => 0) 20 redeclaringSource = some (outcome, s') ∧
    outcome.diagnostics ≠ [] ∧ s'.machine = s.machine ∧
    Option.Rel (List.Forall₂ SameRun)
      (s.runAll [⟨fun _ => 0, 20, "print get(); { var b = get(); { print b; } }"⟩])
      (s'.runAll [⟨fun _ => 0, 20, "print get(); { var b = get(); { print b; } }"⟩]) := by
  have h : (((start .unlimited).run (fun _ => 0) 20 makerSource).bind fun x =>
      x.2.run (fun _ => 0) 20 redeclaringSource).map (·.1.diagnostics.length) = some 1 := by
    decide +kernel
  obtain ⟨⟨outcome, s'⟩, hr, hd⟩ := Option.map_eq_some_iff.1 h
  obtain ⟨⟨before, s⟩, hs, hr⟩ := Option.bind_eq_some_iff.1 hr
  have reached : s.Reachable := .run (.start _) hs
  have rejected : outcome.diagnostics ≠ [] := List.ne_nil_of_length_eq_add_one hd
  obtain ⟨-, -, machine, later⟩ := reached.rejected_invisible hr rejected
  exact ⟨s, outcome, s', reached, hr, rejected, machine, later _⟩

end Session
end Lox
