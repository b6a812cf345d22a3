/-
# Parsing tokens that read the same

The parser looks at the kinds of tokens and never at node numbers. Given two lists of tokens that
are related one by one, where related tokens read the same, and whatever numbers come first, it
notes the same errors and builds trees that are alike (`parse_alike`): such states are paired.
-/

import Lox.Proofs.Grammar.Pairing.Tied

namespace Lox
namespace Grammar

section

variable (R : Token → Token → Prop)

/-- Errors with one cause, at tokens that are related or at one and the same token. -/
structure Error.Alike (e e' : Error) : Prop where
  cause : e'.cause = e.cause
  token : e'.token = e.token ∨ R e.token e'.token
  unread : e'.unread = e.unread

/-- States that differ in their tokens, in the tokens of their errors and in their numbers. -/
structure State.Alike (s s' : State) : Prop where
  rest : List.Forall₂ R s.rest s'.rest
  depth : s'.depth = s.depth
  errors : List.Forall₂ (Error.Alike R) s.errors s'.errors

end

section States

variable {R : Token → Token → Prop} {s s' : State}

/-- The next tokens of alike states are related, or are one and the same end of input. -/
theorem State.Alike.next (h : s.Alike R s') : s'.next = s.next ∨ R s.next s'.next := by
  have hr := h.rest
  unfold State.next
  generalize s.rest = ts, s'.rest = ts' at hr ⊢
  cases hr with
  | nil => exact .inl rfl
  | cons ht _ => exact .inr ht

/-- As many tokens are left in alike states. -/
theorem State.Alike.unread (h : s.Alike R s') : s'.rest.length = s.rest.length :=
  h.rest.length_eq.symm

/-- For one cause alike states blame the next token with alike errors. -/
theorem State.Alike.blame (h : s.Alike R s') (cause : Cause) :
    (s.blame cause).Alike R (s'.blame cause) := ⟨rfl, h.next, h.unread⟩

/-- Alike states with one more alike error each have alike errors. -/
theorem State.Alike.noting (h : s.Alike R s') {e e' : Error} (he : e.Alike R e') :
    List.Forall₂ (Error.Alike R) (s.errors ++ [e]) (s'.errors ++ [e']) :=
  List.rel_append h.errors (.cons he .nil)

end States

section Tokens

variable {R : Token → Token → Prop} (hR : Faithful R)

include hR

/-- If one state is at the end of the input, so is a state alike to it. -/
theorem State.Alike.ended {s s' : State} (h : s.Alike R s') (hs : s.atEnd = true) :
    s'.atEnd = true := by
  rw [State.atEnd_iff] at hs ⊢
  obtain he | hn := h.next
  · rw [he, hs]
  · rw [(hR _ _ hn).kind, hs]

/-- Behind related tokens reading is resumed at related places. -/
theorem resumeAfter_alike : ∀ {ts ts' : List Token} {last last' : Token}, R last last' →
    List.Forall₂ R ts ts' → List.Forall₂ R (resumeAfter last ts) (resumeAfter last' ts')
  | _, _, _, _, _, .nil => .nil
  | t :: ts, t' :: ts', last, last', hl, .cons ht hr => by
    have same : opensStatement t' = opensStatement t := by
      rw [opensStatement, opensStatement, (hR _ _ ht).kind]
    simp only [resumeAfter, (hR _ _ ht).kind, (hR _ _ hl).kind, same]
    split
    · exact .cons ht hr
    · exact resumeAfter_alike ht hr

/-- Reading is resumed at related places of related tokens. -/
theorem resume_alike {ts ts' : List Token} (h : List.Forall₂ R ts ts') :
    List.Forall₂ R (resume ts) (resume ts') := by
  cases h with
  | nil => exact .nil
  | cons ht hr =>
    simp only [resume, (hR _ _ ht).kind]
    split
    · exact .cons ht hr
    · exact resumeAfter_alike hR ht hr

end Tokens

/-- Runs on tokens that read the same. -/
def readingAlike {R : Token → Token → Prop} (hR : Faithful R) : Pairing where
  token := R
  number := AnyNumber
  state := State.Alike R
  failure e e' s s' := e.Alike R e' ∧ s.Alike R s'
  faithful := hR
  level h := h.depth
  ended h := h.ended hR
  read := by
    rintro s s' t ts ⟨hr, hd, he⟩ hs -
    rw [hs] at hr
    generalize s'.rest = ts' at hr ⊢
    cases hr with
    | cons ht hr => exact ⟨_, _, rfl, ht, hr, hd, he⟩
  counted h := ⟨trivial, h.rest, h.depth, h.errors⟩
  deeper h _ := ⟨h.rest, congrArg (· + 1) h.depth, h.errors⟩
  shallower h := ⟨h.rest, congrArg (· - 1) h.depth, h.errors⟩
  failed h := ⟨h.blame _, h⟩
  failed_shallower h := ⟨h.1, h.2.rest, congrArg (· - 1) h.2.depth, h.2.errors⟩
  noted h _ := ⟨h.rest, h.depth, h.noting (h.blame _)⟩
  notedAt h _ ht := ⟨h.rest, h.depth, h.noting ⟨rfl, .inr ht, h.unread⟩⟩

/-- Such runs are paired again behind an error. -/
theorem readingAlike_recovers {R : Token → Token → Prop} (hR : Faithful R) :
    (readingAlike hR).Recovers :=
  fun ⟨he, hs⟩ => ⟨resume_alike hR hs.rest, hs.depth, hs.noting he⟩

/-- **Tokens that read the same parse alike**, from whatever number on. -/
theorem parse_alike {R : Token → Token → Prop} (hR : Faithful R) {ts ts' : List Token}
    (h : List.Forall₂ R ts ts') (n n' : NodeId) :
    Stmt.AlikeList R AnyNumber (parse ts n).tree (parse ts' n').tree ∧
      List.Forall₂ (Error.Alike R) (parse ts n).errors (parse ts' n').errors := by
  have hs : State.Alike R (.start ts n) (.start ts' n') := ⟨h, rfl, .nil⟩
  obtain ⟨ss, ss', s₁, s₁', h₁, h₁', hs₁, -, hss⟩ :=
    Pairing.declarations_paired (P := readingAlike hR) (readingAlike_recovers hR)
      (Pairing.absorbs_none _) hs (State.ahead_le (.start ts n))
      (Nat.le_trans (State.ahead_le (.start ts n)) (Nat.le_of_eq h.length_eq))
  rw [Parsers.declarations_none] at h₁'
  have first : parse ts n = _ := parse_eq h₁
  have second : parse ts' n' = _ := parse_eq h₁'
  rw [first, second]
  exact ⟨hss, hs₁.errors⟩

/-- A tree has no tokens but those that were read. -/
theorem parse_tokens (ts : List Token) (n : NodeId) :
    ∀ t ∈ Stmt.tokensList (parse ts n).tree, t ∈ ts := by
  have faithful : Faithful fun t t' => t' = t ∧ t ∈ ts := by
    rintro t _ ⟨rfl, -⟩
    exact ⟨rfl, rfl⟩
  have same : List.Forall₂ (fun t t' => t' = t ∧ t ∈ ts) ts ts :=
    List.forall₂_same.2 fun _ ht => ⟨rfl, ht⟩
  intro t ht
  exact (List.forall₂_same.1 (parse_alike faithful same n n).1.tokens t ht).2

end Grammar
end Lox
