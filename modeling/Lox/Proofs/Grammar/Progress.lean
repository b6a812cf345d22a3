/-
# What every parser keeps

However a parser ends, it leaves a suffix of the tokens it was given, the nesting level it was
started on, and all the errors noted before it, and it never takes a node number back
(`State.Later`). Here this is shown of the small parsers and of the ways to put parsers together
(`Advances`); the rules have it from the parsers that they refer to.
-/

import Lox.Grammar.Program

namespace Lox
namespace Grammar

/-- `s'` can be left by a parser that was started on `s`. -/
structure State.Later (s s' : State) : Prop where
  rest : s'.rest <:+ s.rest
  depth : s'.depth = s.depth
  errors : s.errors <+: s'.errors
  nextId : s.nextId ≤ s'.nextId

/-- A parser may leave the state as it was. -/
theorem State.Later.refl (s : State) : s.Later s :=
  ⟨List.suffix_refl _, rfl, List.prefix_refl _, Nat.le_refl _⟩

/-- What is later than a later state is later. -/
theorem State.Later.trans {s s' s'' : State} (h : s.Later s') (h' : s'.Later s'') : s.Later s'' :=
  ⟨h'.rest.trans h.rest, h'.depth.trans h.depth, h.errors.trans h'.errors,
    Nat.le_trans h.nextId h'.nextId⟩

/-- The state that a parser leaves. -/
def left {α : Type} (p : Parser α) (s : State) : State :=
  match p s with
  | .ok _ s' => s'
  | .error _ s' => s'

/-- The parser only moves forward. -/
def Advances {α : Type} (p : Parser α) : Prop := ∀ s : State, s.Later (left p s)

section Parts

variable {α β : Type} {p : Parser α} {f : α → Parser β} {s s' : State} {a : α} {b : β}

/-- Two parsers one behind the other return if the first does and the second does from there. -/
theorem bind_eq_ok_iff : (p >>= f) s = .ok b s' ↔
    ∃ a s₁, p s = .ok a s₁ ∧ f a s₁ = .ok b s' := by
  change EStateM.bind p f s = _ ↔ _
  unfold EStateM.bind
  cases p s with
  | ok a s₁ =>
    refine ⟨fun h => ⟨a, s₁, rfl, h⟩, ?_⟩
    rintro ⟨_, _, ⟨⟩, h⟩
    exact h
  | error e s₁ => simp

/-- They fail if the first does, or if the second does from where the first returned. -/
theorem bind_eq_error_iff {e : Error} : (p >>= f) s = .error e s' ↔
    p s = .error e s' ∨ ∃ a s₁, p s = .ok a s₁ ∧ f a s₁ = .error e s' := by
  change EStateM.bind p f s = _ ↔ _
  unfold EStateM.bind
  cases p s with
  | ok a s₁ =>
    refine ⟨fun h => .inr ⟨a, s₁, rfl, h⟩, ?_⟩
    rintro (h | ⟨_, _, ⟨⟩, h⟩)
    · cases h
    · exact h
  | error e' s₁ => simp

/-- Behind a parser that returned the second goes on from its state and result. -/
theorem bind_of_ok (h : p s = .ok a s') : (p >>= f) s = f a s' := by
  change EStateM.bind p f s = _
  unfold EStateM.bind
  rw [h]

/-- Where the parser returns, it has moved forward. -/
theorem Advances.ok (hp : Advances p) (h : p s = .ok a s') : s.Later s' := by
  have := hp s
  rwa [left, h] at this

/-- Where the parser fails, it has moved forward. -/
theorem Advances.error {e : Error} (hp : Advances p) (h : p s = .error e s') : s.Later s' := by
  have := hp s
  rwa [left, h] at this

/-- To return at once leaves the state as it was. -/
theorem pure_advances {a : α} : Advances (pure a : Parser α) := State.Later.refl

/-- What follows has to move forward from the results that there can be. -/
theorem bind_advances_of {R : α → Prop} (hp : Advances p)
    (hr : ∀ ⦃s a s'⦄, p s = .ok a s' → R a) (hf : ∀ a, R a → Advances (f a)) :
    Advances (p >>= f) := by
  intro s
  change s.Later (left (EStateM.bind p f) s)
  unfold left EStateM.bind
  cases h : p s with
  | ok a s₁ => exact (hp.ok h).trans (hf a (hr h) s₁)
  | error e s₁ => exact hp.error h

/-- Parsers one behind the other move forward if both do. -/
theorem bind_advances (hp : Advances p) (hf : ∀ a, Advances (f a)) : Advances (p >>= f) :=
  bind_advances_of hp (fun _ _ _ _ => trivial) fun a _ => hf a

/-- A parser that fails at once leaves the state as it was. -/
theorem fail_advances {cause : Cause} : Advances (fail cause : Parser α) := State.Later.refl

/-- To note an error adds it behind those noted before. -/
theorem note_advances {cause : Cause} : Advances (note cause) := fun _ =>
  ⟨List.suffix_refl _, rfl, List.prefix_append .., Nat.le_refl _⟩

/-- To note an error at a given token does so, too. -/
theorem noteAt_advances {cause : Cause} {token : Token} : Advances (noteAt cause token) := fun _ =>
  ⟨List.suffix_refl _, rfl, List.prefix_append .., Nat.le_refl _⟩

/-- To look at the next token leaves the state as it was, and so do the other questions about it. -/
theorem peek_advances : Advances peek := State.Later.refl

theorem atEnd_advances : Advances atEnd := State.Later.refl

theorem unread_advances : Advances unread := State.Later.refl

theorem sees_advances {kind : Kind} : Advances (sees kind) := State.Later.refl

theorem bodyOver_advances : Advances bodyOver := State.Later.refl

/-- To skip a token leaves those behind it. -/
theorem skip_advances : Advances skip := fun _ =>
  ⟨List.tail_suffix _, rfl, List.prefix_refl _, Nat.le_refl _⟩

/-- To take a number makes the next one higher. -/
theorem freshId_advances : Advances freshId := fun _ =>
  ⟨List.suffix_refl _, rfl, List.prefix_refl _, Nat.le_succ _⟩

/-- A token that may come is read or left. -/
theorem acceptAny_advances {kinds : List Kind} : Advances (acceptAny kinds) := by
  intro s
  unfold left acceptAny
  cases h : s.rest with
  | nil => exact .refl s
  | cons t rest =>
    by_cases hk : kinds.any t.kind.same
    · simp only [hk, if_true]
      exact ⟨h ▸ List.suffix_cons t rest, rfl, List.prefix_refl _, Nat.le_refl _⟩
    · simp only [hk]
      exact .refl s

/-- A token that has to come is read, or it is an error. -/
theorem expect_advances {kind : Kind} {wanted : Wanted} : Advances (expect kind wanted) := by
  refine bind_advances acceptAny_advances fun found => ?_
  cases found with
  | some t => exact pure_advances
  | none => exact fail_advances

/-- On a level of its own a parser moves forward if it does on any, since the level is left again.
-/
theorem nested_advances (hp : Advances p) : Advances (nested p) := by
  intro s
  unfold left nested
  by_cases hd : s.depth ≥ maxNesting
  · simp only [hd, if_true]
    exact .refl s
  · simp only [hd, if_false]
    -- The level inside is one more, and taking one off again gives the level before.
    have up : ∀ {s₁ : State}, State.Later { s with depth := s.depth + 1 } s₁ →
        s.Later { s₁ with depth := s₁.depth - 1 } := fun {s₁} h =>
      ⟨h.rest, by simp [h.depth], h.errors, h.nextId⟩
    cases h : p { s with depth := s.depth + 1 } with
    | ok a s₁ => exact up (hp.ok h)
    | error e s₁ => exact up (hp.error h)

/-- Skipping behind a token leaves a suffix of the tokens. -/
theorem resumeAfter_suffix : ∀ (last : Token) (ts : List Token), resumeAfter last ts <:+ ts
  | _, [] => List.suffix_refl _
  | last, t :: rest => by
    unfold resumeAfter
    split
    · exact List.suffix_refl _
    · exact (resumeAfter_suffix t rest).trans (List.suffix_cons t rest)

/-- Skipping to the next statement leaves a suffix of the tokens. -/
theorem resume_suffix (ts : List Token) : resume ts <:+ ts := by
  unfold resume
  split
  · exact List.suffix_refl _
  · split
    · exact List.suffix_refl _
    · exact (resumeAfter_suffix _ _).trans (List.suffix_cons _ _)

/-- A parser that may be given up moves forward: the error is noted, and some tokens are skipped. -/
theorem recovering_advances (hp : Advances p) : Advances (recovering p) := by
  intro s
  unfold left recovering
  cases h : p s with
  | ok a s₁ => exact hp.ok h
  | error e s₁ =>
    have h₁ := hp.error h
    exact ⟨(resume_suffix _).trans h₁.rest, h₁.depth, h₁.errors.trans (List.prefix_append ..),
      h₁.nextId⟩

end Parts

end Grammar
end Lox
