/-
# Every rule that returns has read a token

An expression, a statement and a declaration have at least one token, so a parser that returns one
has read past where it started (`Consumes`). A declaration that fails goes on behind the token it
could not place. So before the end of the input a declaration always returns, and further on
(`declaration_consumes`), and all of them together always return (`declarations_returns`).
-/

import Lox.Proofs.Grammar.Contract

namespace Lox
namespace Grammar

/-- If the parser returns from the state, it has read a token. -/
def ConsumesFrom {α : Type} (s : State) (p : Parser α) : Prop :=
  ∀ a s', p s = .ok a s' → s'.rest.length < s.rest.length

/-- If the parser returns, it has read a token. -/
def Consumes {α : Type} (p : Parser α) : Prop := ∀ s, ConsumesFrom s p

theorem fail_consumes {α : Type} {cause : Cause} : Consumes (fail cause : Parser α) := nofun

/-- A token stands behind the phrase, as behind all but a number. -/
def Phrase.IsRead : Phrase → Prop
  | number _ => False
  | _ => True

/-- A phrase is joined from one that was read. -/
theorem Phrase.Joins.read {ps : List Phrase} {p : Phrase} (h : Phrase.Joins ps p) :
    ∃ q ∈ ps, q.IsRead := by
  cases h with
  | forLoop => exact ⟨_, List.mem_append_right _ (List.mem_singleton_self _), trivial⟩
  | _ => exact ⟨_, List.mem_cons_self .., trivial⟩

/-- Behind a phrase that was read fewer tokens are left. -/
def reading : Contract where
  made s s' ps := (∃ p ∈ ps, p.IsRead) → s'.rest.length < s.rest.length
  nil _ := by simp
  token hr _ := by simp [hr]
  name hr _ _ := by simp [hr]
  number _ := by simp [Phrase.IsRead]
  append l l' h h' := by
    rintro ⟨p, hp, read⟩
    rcases List.mem_append.1 hp with hp | hp
    · exact Nat.lt_of_le_of_lt l'.rest.length_le (h ⟨p, hp, read⟩)
    · exact Nat.lt_of_lt_of_le (h' ⟨p, hp, read⟩) l.rest.length_le
  join hj h _ := h hj.read
  deeper h := h

/-- A parser that keeps the contract has read a token for each phrase that it returns. -/
theorem Contract.Carries.consumes {α : Type} {p : Parser α} {g : α → Phrase}
    (hp : reading.Keeps p fun a => [g a]) (hg : ∀ a, (g a).IsRead) : Consumes p :=
  fun s a _ h => hp.made (.refl s) (reading.nil (.refl s)) h ⟨g a, List.mem_singleton_self _, hg a⟩

/-- Where reading resumes lies behind the token to blame. -/
theorem resume_consumes {t : Token} {ts : List Token} (ht : t.kind ≠ .endOfInput) :
    (resume (t :: ts)).length < (t :: ts).length := by
  have hk : t.kind.same .endOfInput = false := by
    rw [Bool.eq_false_iff]
    exact fun h => ht ((Kind.same_iff_eq rfl).1 h)
  rw [resume, if_neg (Bool.eq_false_iff.1 hk)]
  exact Nat.lt_succ_of_le (resumeAfter_suffix t ts).length_le

/-- Before the end of the input, what recovers from its errors goes on, and further on. -/
theorem recovering_consumes {α : Type} {p : Parser α} {s : State} (hp : Consumes p)
    (hp' : Advances p) (hs : s.atEnd = false) :
    ∃ a s', recovering p s = .ok a s' ∧ s'.rest.length < s.rest.length := by
  unfold recovering
  cases h : p s with
  | ok a s₁ => exact ⟨_, _, rfl, hp s a s₁ h⟩
  | error e s₁ =>
    refine ⟨_, _, rfl, ?_⟩
    have h₁ := (hp'.error h).rest
    rcases Nat.lt_or_eq_of_le h₁.length_le with hlt | heq
    · exact Nat.lt_of_le_of_lt (resume_suffix _).length_le hlt
    · have hn : s.next.kind ≠ .endOfInput := fun hk =>
        Bool.eq_false_iff.1 hs ((Kind.same_iff_eq rfl).2 hk)
      have hr := rest_eq_of_next rfl hn
      change (resume s₁.rest).length < s.rest.length
      rw [h₁.eq_of_length heq, hr]
      exact resume_consumes hn

/-- A method that is returned has at least its name. -/
theorem method_consumes (fuel : Nat) : Consumes (routineRule .method (block fuel)) :=
  (Contract.routineRule_keeps (reading.statement_declaration_keeps fuel).2.2.1).consumes
    fun _ => trivial

/-- **Before the end of the input a declaration returns, and further on**, with a tree or behind
the tokens it could not place. -/
theorem declaration_consumes (fuel : Nat) {s : State} (hs : s.atEnd = false) :
    ∃ first s', declaration (fuel + 1) s = .ok first s' ∧ s'.rest.length < s.rest.length := by
  obtain ⟨hs', -, hb, hm⟩ := reading.statement_declaration_keeps fuel
  have rule := Contract.declarationRule_keeps (reading.expression_keeps fuel) hs'
    (Contract.routineRule_keeps (r := .function) hb) hm
  exact recovering_consumes (rule.consumes fun _ => trivial) rule.advances hs

/-- All declarations together always return. -/
theorem declarations_returns : ∀ limit s, ∃ ss s', declarations limit s = .ok ss s'
  | 0, s => ⟨[], s, rfl⟩
  | limit + 1, s => by
    cases hs : s.atEnd with
    | true =>
      unfold declarations
      rw [atEnd_bind, hs]
      exact ⟨[], s, rfl⟩
    | false =>
      obtain ⟨first, s₁, h₁, -⟩ := declaration_consumes (5 * s.rest.length + 4) hs
      obtain ⟨more, s₂, h₂⟩ := declarations_returns limit s₁
      exact ⟨_, s₂, declarations_round hs h₁ h₂⟩

/-- The outcome of the parser is that of the declarations it reads. -/
theorem parse_eq {ts : List Token} {n : NodeId} {ss : List Stmt} {s : State}
    (h : declarations ts.length (.start ts n) = .ok ss s) :
    parse ts n = ⟨ss, s.errors, s.nextId⟩ := by
  unfold parse
  rw [h]

end Grammar
end Lox
