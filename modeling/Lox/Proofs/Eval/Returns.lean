/-
# No program returns

The walk over a program carries along whether it is inside a function, and finds a violation at each
`return` that is not (`Stmt.occurrences_of_returns`). A statement that runs ends in a return only if
such a `return` stands in it (`exec_fallsThrough`), however it is nested in blocks, branches and
loops: the returns in the body of a function end with the call, wherever the function is declared.
So the statements of a program without violations run one after the other, each to its end, and no
returned value is dropped between them (`program_fallsThrough`).
-/

import Lox.Proofs.Eval.Keeps
import Lox.Proofs.Scope.Static

namespace Lox

mutual

/-- Whether a `return` stands in the statement outside of all functions. -/
def Stmt.returns : Stmt → Bool
  | .expression _ => false
  | .print _ => false
  | .var _ _ => false
  | .block body => Stmt.returnsList body
  | .branch _ thenB none => thenB.returns
  | .branch _ thenB (some elseB) => thenB.returns || elseB.returns
  | .loop _ body => body.returns
  | .function _ => false
  | .ret _ _ => true
  | .classDecl _ _ => false

/-- Whether a `return` stands in one of the statements outside of all functions. -/
def Stmt.returnsList : List Stmt → Bool
  | [] => false
  | s :: ss => s.returns || Stmt.returnsList ss

end

/-- No `return` stands in statements if none stands in any of them. -/
theorem Stmt.returnsList_eq_false_iff {ss : List Stmt} :
    Stmt.returnsList ss = false ↔ ∀ s ∈ ss, s.returns = false := by
  induction ss with
  | nil => simp [Stmt.returnsList]
  | cons s ss ih => rw [Stmt.returnsList, Bool.or_eq_false_iff, ih, List.forall_mem_cons]

/-! ## The walk -/

section Occurrences

open Scope (Position Region Occurrence)

/-- An occurrence of a `return` that is not inside a function. -/
def Scope.Occurrence.Stray (o : Occurrence) : Prop := o.role = .returns ∧ ¬ o.Inside .function

mutual

/-- A `return` that stands outside of all functions occurs there. -/
theorem Stmt.occurrences_of_returns : ∀ (s : Stmt) {pos : Position} {regions : List Region},
    (∀ r ∈ regions, r.kind ≠ .function) → s.returns = true →
      ∃ o ∈ s.occurrences pos regions, o.Stray
  | .expression _, _, _, _, h => by cases h
  | .print _, _, _, _, h => by cases h
  | .var _ _, _, _, _, h => by cases h
  | .block body, pos, regions, hr, h => by
    have inside : ∀ r ∈ (⟨pos, .block⟩ : Region) :: regions, r.kind ≠ .function :=
      List.forall_mem_cons.2 ⟨nofun, hr⟩
    exact Stmt.occurrencesList_of_returns body inside h
  | .branch cond thenB none, _, _, hr, h => by
    obtain ⟨o, ho, stray⟩ := thenB.occurrences_of_returns hr h
    exact ⟨o, List.mem_append_right _ ho, stray⟩
  | .branch cond thenB (some elseB), _, _, hr, h => by
    rcases (Bool.or_eq_true _ _).mp h with h | h
    · obtain ⟨o, ho, stray⟩ := thenB.occurrences_of_returns hr h
      exact ⟨o, List.mem_append_left _ (List.mem_append_right _ ho), stray⟩
    · obtain ⟨o, ho, stray⟩ := elseB.occurrences_of_returns hr h
      exact ⟨o, List.mem_append_right _ ho, stray⟩
  | .loop cond body, _, _, hr, h => by
    obtain ⟨o, ho, stray⟩ := body.occurrences_of_returns hr h
    exact ⟨o, List.mem_append_right _ ho, stray⟩
  | .function _, _, _, _, h => by cases h
  | .ret keyword value, pos, regions, hr, _ =>
    ⟨⟨.returns, keyword, pos, regions⟩, List.mem_cons_self .., rfl,
      fun ⟨r, hm, hk⟩ => hr r hm hk⟩
  | .classDecl _ _, _, _, _, h => by cases h

/-- Where a `return` stands in statements outside of all functions, the walk comes to a stray one.
-/
theorem Stmt.occurrencesList_of_returns : ∀ (ss : List Stmt) {pos : Position} {i : Nat}
    {regions : List Region}, (∀ r ∈ regions, r.kind ≠ .function) → Stmt.returnsList ss = true →
      ∃ o ∈ Stmt.occurrencesList pos i regions ss, o.Stray
  | [], _, _, _, _, h => by cases h
  | s :: ss, _, _, _, hr, h => by
    rcases (Bool.or_eq_true _ _).mp h with h | h
    · obtain ⟨o, ho, stray⟩ := s.occurrences_of_returns hr h
      exact ⟨o, List.mem_append_left _ ho, stray⟩
    · obtain ⟨o, ho, stray⟩ := Stmt.occurrencesList_of_returns ss hr h
      exact ⟨o, List.mem_append_right _ ho, stray⟩

end

namespace Scope

/-- What is found at an occurrence whatever comes before it is found among others. -/
theorem Occurrence.findings_ne_nil {α : Type} {find : List Occurrence → Occurrence → Option α}
    {o : Occurrence} (hf : ∀ before, find before o ≠ none) :
    ∀ {os before : List Occurrence}, o ∈ os → findings find before os ≠ []
  | o' :: os, before, h => by
    rw [findings, ne_eq, List.append_eq_nil_iff, not_and]
    rcases List.mem_cons.1 h with rfl | h
    · exact fun none => absurd (Option.toList_eq_nil_iff.1 none) (hf before)
    · exact fun _ => Occurrence.findings_ne_nil hf h

/-- A program without violations has no `return` outside of its functions. -/
theorem returnsList_of_no_violations {ss : List Stmt} {known : Distances}
    (h : (resolve ss known).violations = []) : Stmt.returnsList ss = false := by
  rw [← Bool.not_eq_true]
  intro hr
  obtain ⟨o, ho, role, outside⟩ := Stmt.occurrencesList_of_returns ss (List.forall_mem_nil _) hr
  have stray : ∀ before, Occurrence.violation? before o ≠ none := by
    simp [Occurrence.violation?, Occurrence.cause?, role, outside]
  exact Occurrence.findings_ne_nil stray ho ((resolve_judged ss known).violations.symm.trans h)

end Scope

end Occurrences

/-! ## The run -/

namespace Eval

/-- The computation does not end in a return. -/
def FallsThrough (c : Eval Flow) : Prop := ∀ m flow m', c m = .ok flow m' → flow = .normal

section Parts

variable {α : Type} {c : Eval Flow} {f : Flow → Eval Flow}

/-- To end normally is not to return. -/
theorem normal_fallsThrough : FallsThrough (pure .normal) := fun _ _ _ h => by cases h; rfl

/-- What falls through behind a computation does so with it. -/
theorem FallsThrough.after {c : Eval α} {f : α → Eval Flow} (hf : ∀ a, FallsThrough (f a)) :
    FallsThrough (c >>= f) := by
  intro m flow m' h
  obtain ⟨a, m₁, -, h₂⟩ := ok_of_bind h
  exact hf a m₁ flow m' h₂

/-- Behind a part that falls through, only what comes then matters. -/
theorem FallsThrough.bind (hc : FallsThrough c) (hf : FallsThrough (f .normal)) :
    FallsThrough (c >>= f) := by
  intro m flow m' h
  obtain ⟨first, m₁, h₁, h₂⟩ := ok_of_bind h
  obtain rfl := hc m first m₁ h₁
  exact hf m₁ flow m' h₂

/-- What falls through does so in any frame. -/
theorem FallsThrough.inFrame (hc : FallsThrough c) (r : FrameRef) :
    FallsThrough (Eval.inFrame r c) := by
  intro m flow m' h
  unfold Eval.inFrame at h
  cases h₁ : c { m with frame := r } with
  | ok first m₁ =>
    rw [h₁] at h
    cases h
    exact hc _ _ m₁ h₁
  | error e m₁ =>
    rw [h₁] at h
    cases h

variable {eval : Expr → Eval Value} {exec : Stmt → Eval Flow}

/-- Statements in order fall through if each of them does. -/
theorem inOrder_fallsThrough : ∀ {ss : List Stmt}, (∀ s ∈ ss, FallsThrough (exec s)) →
    FallsThrough (inOrder exec ss)
  | [], _ => normal_fallsThrough
  | s :: ss, h => by
    obtain ⟨hs, hss⟩ := List.forall_mem_cons.1 h
    exact hs.bind (inOrder_fallsThrough hss)

/-- **One step of a statement** falls through if it has no `return` outside of functions and the
statements in it do. -/
theorem execRule_fallsThrough (hx : ∀ s, s.returns = false → FallsThrough (exec s)) {s : Stmt}
    (hs : s.returns = false) : FallsThrough (execRule eval exec s) := by
  cases s with
  | expression e => exact .after fun _ => normal_fallsThrough
  | print e => exact .after fun _ => .after fun _ => normal_fallsThrough
  | var name init => exact .after fun _ => .after fun _ => normal_fallsThrough
  | block body =>
    have parts : ∀ s ∈ body, FallsThrough (exec s) := fun s hm =>
      hx s (Stmt.returnsList_eq_false_iff.1 hs s hm)
    exact .after fun frame => (inOrder_fallsThrough parts).inFrame frame
  | branch cond thenB elseB =>
    refine .after fun v => ?_
    cases elseB with
    | none =>
      split
      · exact hx thenB hs
      · exact normal_fallsThrough
    | some elseB =>
      obtain ⟨ht, he⟩ := Bool.or_eq_false_iff.1 hs
      split
      · exact hx thenB ht
      · exact hx elseB he
  | loop cond body =>
    refine .after fun v => ?_
    split
    · exact (hx body hs).bind (hx (.loop cond body) hs)
    · exact normal_fallsThrough
  | function decl => exact .after fun _ => normal_fallsThrough
  | ret keyword value => cases hs
  | classDecl name methods => exact .after fun _ => normal_fallsThrough

end Parts

variable {p : Setting} {fuel : Nat} {ss : List Stmt} {m m' : Machine}

/-- A statement without a `return` outside of functions falls through. -/
theorem exec_fallsThrough (p : Setting) : ∀ fuel (s : Stmt), s.returns = false →
    FallsThrough (exec p fuel s)
  | 0, _, _ => fun _ _ _ h => by cases h
  | fuel + 1, _, hs => execRule_fallsThrough (exec_fallsThrough p fuel) hs

/-! ## Programs -/

/-- The statements run one after the other, each of them to its end and without a return. -/
inductive RunsThrough (p : Setting) (fuel : Nat) : List Stmt → Machine → Machine → Prop
  | nil {m : Machine} : RunsThrough p fuel [] m m
  | cons {s : Stmt} {ss : List Stmt} {m m₁ m' : Machine} (first : exec p fuel s m = .ok .normal m₁)
    (rest : RunsThrough p fuel ss m₁ m') : RunsThrough p fuel (s :: ss) m m'

/-- The statements run one after the other up to one that ends in an error. -/
def StopsIn (p : Setting) (fuel : Nat) (ss : List Stmt) (m : Machine) (e : Stop) (m' : Machine) :
    Prop :=
  ∃ before s behind m₁, ss = before ++ s :: behind ∧ RunsThrough p fuel before m m₁ ∧
    exec p fuel s m₁ = .error e m'

/-- Statements that run through are a program that ends without an error. -/
theorem execProgram_of_runsThrough (h : RunsThrough p fuel ss m m') :
    execProgram p fuel ss m = .ok () m' := by
  induction h with
  | nil => rfl
  | cons first _ ih => exact (bind_of_ok first).trans ih

/-- Statements that stop in one of them are a program that ends in its error. -/
theorem execProgram_of_stopsIn {e : Stop} (h : StopsIn p fuel ss m e m') :
    execProgram p fuel ss m = .error e m' := by
  obtain ⟨before, s, behind, m₁, rfl, through, last⟩ := h
  induction through with
  | nil => exact bind_of_error last
  | cons first _ ih => exact (bind_of_ok first).trans (ih last)

/-- Statements that fall through run to the end of the last, or up to the first error. -/
theorem runsThrough_or_stopsIn : ∀ {ss : List Stmt},
    (∀ s ∈ ss, FallsThrough (exec p fuel s)) → ∀ m : Machine,
      (∃ m', RunsThrough p fuel ss m m') ∨ ∃ e m', StopsIn p fuel ss m e m'
  | [], _, m => .inl ⟨m, .nil⟩
  | s :: ss, h, m => by
    obtain ⟨hs, hss⟩ := List.forall_mem_cons.1 h
    cases first : exec p fuel s m with
    | error e m' => exact .inr ⟨e, m', [], s, ss, m, rfl, .nil, first⟩
    | ok flow m₁ =>
      obtain rfl := hs m flow m₁ first
      rcases runsThrough_or_stopsIn hss m₁ with ⟨m', rest⟩ | ⟨e, m', before, s', behind, m₂, split,
        rest, last⟩
      · exact .inl ⟨m', .cons first rest⟩
      · refine .inr ⟨e, m', s :: before, s', behind, m₂, ?_, .cons first rest, last⟩
        rw [split, List.cons_append]

/-- They run as the statements of a block do. -/
theorem execProgram_eq_inOrder : ∀ {ss : List Stmt}, (∀ s ∈ ss, FallsThrough (exec p fuel s)) →
    ∀ m : Machine, execProgram p fuel ss m =
      (inOrder (exec p fuel) ss >>= fun _ => pure ()) m
  | [], _, _ => rfl
  | s :: ss, h, m => by
    obtain ⟨hs, hss⟩ := List.forall_mem_cons.1 h
    rw [execProgram, inOrder, bind_assoc]
    cases first : exec p fuel s m with
    | error e m' => rw [bind_of_error first, bind_of_error first]
    | ok flow m₁ =>
      obtain rfl := hs m flow m₁ first
      rw [bind_of_ok first, bind_of_ok first]
      exact execProgram_eq_inOrder hss m₁

/-- The interpreter flushes the output behind them. -/
theorem interpret_eq_inOrder (h : ∀ s ∈ ss, FallsThrough (exec p fuel s)) (m : Machine) :
    interpret p fuel ss m = (inOrder (exec p fuel) ss >>= fun _ => flush) m := by
  have same := execProgram_eq_inOrder h m
  have step : (inOrder (exec p fuel) ss >>= fun _ => flush) =
      (inOrder (exec p fuel) ss >>= fun _ => pure ()) >>= fun _ => flush := by
    rw [bind_assoc]
    rfl
  rw [step, interpret]
  cases all : (inOrder (exec p fuel) ss >>= fun _ => pure ()) m with
  | ok _ m₁ => rw [bind_of_ok all, bind_of_ok (same.trans all)]
  | error e m₁ => rw [bind_of_error all, bind_of_error (same.trans all)]

/-- **No program returns.** In a program without violations no statement ends in a return, whatever
the machine, the distances and the fuel it runs with. So the interpreter, which does not look at how
statements end, runs them one after the other: all of them through to the end, and then it flushes
the output; or up to the first one that ends in an error, and then that is the error. It does what
it would do if it stopped at a return, since it would never come to one. -/
theorem program_fallsThrough {ss : List Stmt} {known : Distances}
    (h : (Scope.resolve ss known).violations = []) (p : Setting) (fuel : Nat) :
    (∀ s ∈ ss, ∀ m flow m', exec p fuel s m = .ok flow m' → flow = .normal) ∧
    (∀ m, (∃ m₁, RunsThrough p fuel ss m m₁ ∧ interpret p fuel ss m = flush m₁) ∨
      ∃ e m₁, StopsIn p fuel ss m e m₁ ∧ interpret p fuel ss m = .error e m₁) ∧
    ∀ m, interpret p fuel ss m = (inOrder (exec p fuel) ss >>= fun _ => flush) m := by
  have through : ∀ s ∈ ss, FallsThrough (exec p fuel s) := fun s hs =>
    exec_fallsThrough p fuel s
      (Stmt.returnsList_eq_false_iff.1 (Scope.returnsList_of_no_violations h) s hs)
  refine ⟨through, fun m => ?_, interpret_eq_inOrder through⟩
  rcases runsThrough_or_stopsIn through m with ⟨m₁, all⟩ | ⟨e, m₁, some⟩
  · exact .inl ⟨m₁, all, bind_of_ok (execProgram_of_runsThrough all)⟩
  · exact .inr ⟨e, m₁, some, bind_of_error (execProgram_of_stopsIn some)⟩

/-- The source of a function that returns from a loop, declared in a loop in a block. -/
def returningSource : String :=
  "{ var i = true; while (i) { fun f(a) { while (a) return a; } print f(i); i = false; } }"

/-- The statements of `returningSource`. -/
def returningStatements : List Stmt := (Grammar.parse (tokens returningSource) 0).tree

/-- What `returningStatements` are given to run. -/
def returningSetting : Setting := ⟨(Scope.resolve returningStatements ∅).distances, fun _ => 0⟩

/-- A case of `program_fallsThrough`: the value that is returned in the call is printed, and the
block around it runs through. -/
theorem returningStatements_fallsThrough :
    (Scope.resolve returningStatements ∅).violations = [] ∧
    ∃ m, RunsThrough returningSetting 64 returningStatements (.start .unlimited) m ∧
      m.sink.written = "true\n".toUTF8 := by
  have clean : (Scope.resolve returningStatements ∅).violations = [] := by decide +kernel
  have printed : (match interpret returningSetting 64 returningStatements (.start .unlimited) with
      | .ok _ m => some m.sink.written
      | .error _ _ => none) = some "true\n".toUTF8 := by decide +kernel
  refine ⟨clean, ?_⟩
  rcases (program_fallsThrough clean returningSetting 64).2.1 (.start .unlimited) with
    ⟨m, all, run⟩ | ⟨e, m, -, run⟩
  · refine ⟨m, all, ?_⟩
    rw [run, flush] at printed
    split at printed
    · rename_i h
      split at h
      · cases h
      · cases h
        exact Option.some.inj printed
    · cases printed
  · rw [run] at printed
    cases printed

end Eval
end Lox
