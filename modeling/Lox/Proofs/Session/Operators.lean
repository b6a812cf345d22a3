/-
# No run fails at an unknown operator

The parser makes well-formed trees of all tokens, and of the sources of a session only such trees
are left on its heap (`Reachable.formed`). So the failures that evaluation has for operators no rule
knows do not happen in any session (`operators_known`).
-/

import Lox.Proofs.Eval.Operators
import Lox.Proofs.Session.Reachable

namespace Lox

namespace Session

variable {s s' : Session} {clock : Nat → Float} {fuel : Nat} {source : String}
  {outcome : Outcome}

/-- The statements of a source are well formed. -/
theorem statements_formed (s : Session) (source : String) :
    ∀ st ∈ s.statements source, st.Formed fun _ => True :=
  Grammar.parse_formed (fun _ _ => trivial) s.nextId

/-- What earlier sources left on the heap is well formed. -/
theorem Reachable.formed (hs : s.Reachable) : Eval.Formed s.machine := by
  induction hs with
  | start sink => exact ⟨fun _ _ h => (by cases h), fun _ _ h => (by cases h), trivial⟩
  | @run s s' clock fuel source outcome _ h hs =>
    by_cases ha : s.Accepts source
    · rw [run_of_accepts ha] at h
      obtain ⟨sink, rfl⟩ := execute_session h
      have obeys : ∀ st ∈ s.statements source, st.Obeys .formed () := fun st hst =>
        (s.statements_formed source st hst).obeys
      exact (Invariant.execProgram_sustains (I := .formed) (k := ()) _ fuel _ s.machine
        ⟨hs, trivial⟩ obeys).1.holds
    · obtain ⟨ds, distances, -, -, hr⟩ := run_of_rejects ha
      rw [hr] at h
      cases h
      exact hs

/-- A run does not fail at an operator that no rule knows. -/
theorem Reachable.knows (hs : s.Reachable) (h : s.run clock fuel source = some (outcome, s'))
    {cause : Trouble} {token : Token} (hc : cause.unknownOperator = true) :
    outcome.fault ≠ some (.trouble cause token) := by
  by_cases ha : s.Accepts source
  · have knows := Eval.interpret_knows ⟨(s.prepared source).distances, clock⟩ fuel _ s.machine
      (s.statements_formed source) hs.formed cause token hc
    rw [run_of_accepts ha] at h
    unfold execute at h
    split at h
    · cases h
      simp
    · rename_i f m hi
      cases h
      rintro hf
      cases hf
      exact knows ⟨m, hi⟩
    · cases h
  · obtain ⟨ds, distances, -, -, hr⟩ := run_of_rejects ha
    rw [hr] at h
    cases h
    simp

/-- **The parser makes only trees that evaluation has rules for.** Of all lists of tokens, the
trees of `parse` and of `parseExpression` have signs, operators and names of the right kinds
everywhere. So in a session that any sources have been run in, no run of any source ends with one of
the messages for an operator that no rule knows. -/
theorem operators_known :
    (∀ (tokens : List Token) (n : NodeId),
      (∀ st ∈ (Grammar.parse tokens n).tree, st.Formed fun _ => True) ∧
      ∀ e ∈ (Grammar.parseExpression tokens n).tree, e.Formed fun _ => True) ∧
    ∀ (s s' : Session) (clock : Nat → Float) (fuel : Nat) (source : String) (outcome : Outcome),
      s.Reachable → s.run clock fuel source = some (outcome, s') →
        ∀ fault ∈ outcome.fault,
          fault.report.message ∉ ["Invalid unary operator.", "Invalid binary operator."] := by
  refine ⟨fun tokens n => ⟨Grammar.parse_formed (fun _ _ => trivial) n,
    Grammar.parseExpression_formed (fun _ _ => trivial) n⟩, ?_⟩
  intro s s' clock fuel source outcome hs h fault hf hm
  cases fault with
  | output e => cases e <;> exact absurd hm (by decide)
  | trouble cause token => exact hs.knows h (Trouble.unknownOperator_of_message hm) hf

/-- A function with a sign and a binary operator in its body. -/
def negatingSource : String := "fun f(x) { return 1 < -x; }"

/-- A case of `operators_known`: a source of its own calls the function with an operand that is not
a number, and the run fails, but not because of the operator. -/
theorem negatingSource_known :
    ∃ first s outcome s', (start .unlimited).run (fun _ => 0) 20 negatingSource = some (first, s) ∧
      s.run (fun _ => 0) 20 "f(nil);" = some (outcome, s') ∧
      ∃ fault ∈ outcome.fault, fault.report.message = "Operand must be a number." ∧
        fault.report.message ∉ ["Invalid unary operator.", "Invalid binary operator."] := by
  have h : ((start .unlimited).run (fun _ => 0) 20 negatingSource).bind (fun x =>
      (x.2.run (fun _ => 0) 20 "f(nil);").bind fun y =>
        y.1.fault.map fun fault => fault.report.message) = some "Operand must be a number." := by
    decide +kernel
  obtain ⟨⟨first, s⟩, h₁, h⟩ := Option.bind_eq_some_iff.1 h
  obtain ⟨⟨outcome, s'⟩, h₂, h⟩ := Option.bind_eq_some_iff.1 h
  obtain ⟨fault, hf, hm⟩ := Option.map_eq_some_iff.1 h
  exact ⟨first, s, outcome, s', h₁, h₂, fault, hf, hm,
    operators_known.2 s s' _ _ _ outcome (.run (.start .unlimited) h₁) h₂ fault hf⟩

end Session
end Lox
