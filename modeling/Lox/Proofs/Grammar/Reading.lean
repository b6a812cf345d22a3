/-
# What the smallest parsers do

The smallest parsers, said as equations where they always succeed and as inversions where they may
not: what is known of the states before and after one that returned a result.
-/

import Lox.Proofs.Grammar.Progress

namespace Lox

namespace Kind

/-- The kind carries no literal. -/
def isPlain : Kind → Bool
  | string _ => false
  | number _ => false
  | _ => true

/-- A kind without a literal is matched by itself only. -/
theorem same_iff_eq {k k' : Kind} (h : k'.isPlain = true) : k.same k' = true ↔ k = k' := by
  cases k <;> cases k' <;> simp_all [same, isPlain]

/-- A kind matches one of such kinds if it is one of them. -/
theorem any_same_iff_mem {k : Kind} {kinds : List Kind} (h : ∀ k' ∈ kinds, k'.isPlain = true) :
    kinds.any k.same = true ↔ k ∈ kinds := by
  rw [List.any_eq_true]
  constructor
  · rintro ⟨k', hk', hs⟩
    exact (same_iff_eq (h k' hk')).1 hs ▸ hk'
  · intro hk
    exact ⟨k, hk, (same_iff_eq (h k hk)).2 rfl⟩

end Kind

namespace Grammar

section Parts

variable {α β : Type} {p : Parser α} {s s' : State} {kind : Kind} {kinds : List Kind}

/-- To look at the next token always succeeds. -/
@[simp] theorem peek_bind (f : Token → Parser β) : (peek >>= f) s = f s.next s := rfl

/-- To count the tokens that are left always succeeds. -/
@[simp] theorem unread_bind (f : Nat → Parser β) : (unread >>= f) s = f s.rest.length s := rfl

/-- To ask for the end of the input always succeeds. -/
@[simp] theorem atEnd_bind (f : Bool → Parser β) : (atEnd >>= f) s = f s.atEnd s := rfl

/-- To ask for the kind of the next token always succeeds. -/
@[simp] theorem sees_bind (f : Bool → Parser β) :
    (sees kind >>= f) s = f (s.next.kind.same kind) s := rfl

/-- To skip a token always succeeds. -/
@[simp] theorem skip_bind (f : Unit → Parser β) :
    (skip >>= f) s = f () { s with rest := s.rest.tail } := rfl

/-- To take a number always succeeds. -/
@[simp] theorem freshId_bind (f : NodeId → Parser β) :
    (freshId >>= f) s = f s.nextId { s with nextId := s.nextId + 1 } := rfl

/-- A body is over at its brace and at the end of the input. -/
@[simp] theorem bodyOver_bind (f : Bool → Parser β) :
    (bodyOver >>= f) s = f (s.next.kind.same (.punct .rightBrace) || s.atEnd) s := rfl

theorem pure_eq_ok_iff {a b : α} : (pure a : Parser α) s = .ok b s' ↔ a = b ∧ s = s' := by
  change EStateM.Result.ok a s = .ok b s' ↔ _
  simp

/-- A token that was accepted was the next one, and is of the kinds. -/
theorem acceptAny_some {t : Token} (h : acceptAny kinds s = .ok (some t) s') :
    ∃ rest, s.rest = t :: rest ∧ s' = { s with rest := rest } ∧
      kinds.any t.kind.same = true := by
  unfold acceptAny at h
  split at h
  · rename_i t' rest hr
    split at h
    · rename_i hk
      simp only [EStateM.Result.ok.injEq, Option.some.injEq] at h
      obtain ⟨rfl, rfl⟩ := h
      exact ⟨rest, hr, rfl, hk⟩
    · simp at h
  · simp at h

/-- Where no token was accepted the state is as it was, and the next one is of none of the kinds. -/
theorem acceptAny_none (h : acceptAny kinds s = .ok none s') :
    s = s' ∧ ∀ t rest, s.rest = t :: rest → kinds.any t.kind.same = false := by
  unfold acceptAny at h
  split at h
  · split at h
    · simp at h
    · simp_all
  · simp_all

/-- A token that was accepted was the next one, and is of the kind. -/
theorem accept_some {t : Token} (hk : kind.isPlain = true) (h : accept kind s = .ok (some t) s') :
    ∃ rest, s.rest = t :: rest ∧ s' = { s with rest := rest } ∧ t.kind = kind := by
  obtain ⟨rest, hr, hs, hany⟩ := acceptAny_some h
  exact ⟨rest, hr, hs, (Kind.same_iff_eq hk).1 (by simpa using hany)⟩

/-- A token that was expected and read was the next one, and is of the kind. -/
theorem expect_ok {wanted : Wanted} {t : Token} (hk : kind.isPlain = true)
    (h : expect kind wanted s = .ok t s') :
    ∃ rest, s.rest = t :: rest ∧ s' = { s with rest := rest } ∧ t.kind = kind := by
  obtain ⟨found, s₁, h₁, h⟩ := bind_eq_ok_iff.1 h
  cases found with
  | none => simp [fail] at h
  | some t' =>
    obtain ⟨rfl, rfl⟩ := pure_eq_ok_iff.1 h
    exact accept_some hk h₁

/-- A run in which an error was noted has more errors in the end. -/
theorem errors_lt_of_note {cause : Cause} {a : α} (hp : Advances p)
    (h : (note cause >>= fun _ => p) s = .ok a s') : s.errors.length < s'.errors.length := by
  have hn : (note cause >>= fun _ => p) s =
      p { s with errors := s.errors ++ [s.blame cause] } := rfl
  rw [hn] at h
  have := (hp.ok h).errors.length_le
  rw [List.length_append] at this
  exact this

/-- What goes on behind an error returns with more errors than before. -/
theorem errors_lt_of_noteAt {cause : Cause} {token : Token} {a : α} (hp : Advances p)
    (h : (noteAt cause token >>= fun _ => p) s = .ok a s') :
    s.errors.length < s'.errors.length := by
  have hn : (noteAt cause token >>= fun _ => p) s =
      p { s with errors := s.errors ++ [⟨cause, token, s.rest.length⟩] } := rfl
  rw [hn] at h
  have := (hp.ok h).errors.length_le
  rw [List.length_append] at this
  exact this

/-- The next token is at the front of the list, unless it is the end of the input. -/
theorem rest_eq_of_next {t : Token} (h : s.next = t) (ht : t.kind ≠ .endOfInput) :
    s.rest = t :: s.rest.tail := by
  unfold State.next at h
  cases hr : s.rest with
  | nil =>
    rw [hr] at h
    exact absurd (h ▸ rfl) ht
  | cons t' rest =>
    rw [hr] at h
    exact congrArg (· :: rest) h

/-- What returned on a level of its own had a level left, and returned there. -/
theorem nested_ok {a : α} (h : nested p s = .ok a s') : s.depth < maxNesting ∧
    ∃ s₁, p { s with depth := s.depth + 1 } = .ok a s₁ ∧
      s' = { s₁ with depth := s₁.depth - 1 } := by
  unfold nested at h
  split at h
  · simp [fail] at h
  · rename_i hs
    cases hp : p { s with depth := s.depth + 1 } with
    | error e s₁ => simp [hp] at h
    | ok b s₁ =>
      simp only [hp, EStateM.Result.ok.injEq] at h
      obtain ⟨rfl, rfl⟩ := h
      exact ⟨Nat.lt_of_not_le hs, s₁, rfl, rfl⟩

/-- The levels left before and after going one deeper. -/
theorem levels_left {depth : Nat} (h : depth < maxNesting) :
    maxNesting - (depth + 1) + 1 = maxNesting - depth := by omega

end Parts

/-- One round of the loop over the declarations. -/
theorem declarations_round {limit : Nat} {first : Option Stmt} {more : List Stmt} {s s₁ s₂ : State}
    (hs : s.atEnd = false) (h₁ : declaration (fuelFor s.rest.length) s = .ok first s₁)
    (h₂ : declarations limit s₁ = .ok more s₂) :
    declarations (limit + 1) s = .ok (first.toList ++ more) s₂ := by
  unfold declarations
  rw [atEnd_bind, hs]
  simp only [Bool.false_eq_true, if_false, unread_bind]
  exact (bind_of_ok h₁).trans (bind_of_ok h₂)

end Grammar
end Lox
