/-
# Errors do not cascade

An error that abandons a declaration is noted once, and reading resumes behind the token to blame
unless that is the end of the input. So the places where such errors arise only move on, and each
costs a token: the one to blame, or, where a block is still open at the end of the input, the brace
that opened it (`faults_advance`).

`Course` and `Charged` say this of the stretch between two states. Within a declaration one of the
tokens read is always to spare, so that an error at the end of the input can be charged as well: to
the token the declaration began with, and behind the opening brace of a block to that brace.
-/

import Lox.Proofs.Grammar.Pairing.Tied

namespace Lox
namespace Grammar

/-- The errors that abandoned a declaration. -/
def faults (errors : List Error) : List Error := errors.filter fun e => e.cause.isFatal

/-- The faults among errors put together are those of either part. -/
theorem faults_append (es es' : List Error) : faults (es ++ es') = faults es ++ faults es' :=
  List.filter_append ..

/-- An error that abandons nothing is not a fault. -/
theorem faults_of_not_fatal {e : Error} (he : e.cause.isFatal = false) : faults [e] = [] := by
  simp [faults, he]

/-- Faults are among the errors. -/
theorem faults_length_le (es : List Error) : (faults es).length ≤ es.length :=
  List.length_filter_le ..

/-- The error arose at the state. -/
def Error.At (e : Error) (s : State) : Prop := e.token = s.next ∧ e.unread = s.rest.length

/-- The state is not before the place of the error, and behind it if there was a token. -/
def Error.Behind (e : Error) (s : State) : Prop :=
  s.rest.length ≤ e.unread ∧ (e.token.kind ≠ .endOfInput → s.rest.length < e.unread)

/-- The second error arose not before the first, and further on if there was a token. -/
def Error.Before (e e' : Error) : Prop :=
  e'.unread ≤ e.unread ∧ (e.token.kind ≠ .endOfInput → e'.unread < e.unread)

/-- What was noted between two states: each fault arose somewhere in between, one before the
other. -/
structure Course (b s : State) (new : List Error) : Prop where
  reaches : b.Reaches s
  errors : s.errors = b.errors ++ new
  places : ∀ e ∈ faults new, (∃ p, b.Reaches p ∧ e.At p) ∧ e.Behind s
  ordered : (faults new).Pairwise Error.Before

/-- In addition there are no more faults than tokens were read, with some tokens to spare if any
were read. -/
structure Charged (spare : Nat) (b s : State) (new : List Error) : Prop extends
    Course b s new where
  count : (faults new).length ≤ b.rest.length - s.rest.length - spare

section Course

variable {spare : Nat} {b s s' : State} {new new' : List Error} {e : Error}

/-- A later state is behind the error as well. -/
theorem Error.Behind.mono (h : e.Behind s) (hs : s'.rest.length ≤ s.rest.length) : e.Behind s' :=
  ⟨Nat.le_trans hs h.1, fun hk => Nat.lt_of_le_of_lt hs (h.2 hk)⟩

/-- Where reading resumes lies behind the error. -/
theorem resume_behind (h : e.At s) (es : List Error) :
    e.Behind { s with rest := resume s.rest, errors := es } := by
  refine ⟨h.2 ▸ (resume_suffix s.rest).length_le, fun hk => ?_⟩
  rw [h.1] at hk
  rw [h.2, rest_eq_of_next rfl hk]
  exact resume_consumes hk

/-- Where no fault is noted there is nothing to order. -/
theorem Course.harmless (hr : s.Reaches s') (he : s'.errors = s.errors ++ new)
    (hn : faults new = []) : Course s s' new where
  reaches := hr
  errors := he
  places := by
    rw [hn]
    exact fun _ h => absurd h List.not_mem_nil
  ordered := by
    rw [hn]
    exact .nil

/-- A course from state to state and one from there on make one course. -/
theorem Course.trans (h : Course b s new) (h' : Course s s' new') : Course b s' (new ++ new') where
  reaches := h.reaches.trans h'.reaches
  errors := by rw [h'.errors, h.errors, List.append_assoc]
  places e he := by
    rw [faults_append, List.mem_append] at he
    rcases he with he | he
    · obtain ⟨place, behind⟩ := h.places e he
      exact ⟨place, behind.mono h'.reaches.length_le⟩
    · obtain ⟨⟨p, hp, at_p⟩, behind⟩ := h'.places e he
      exact ⟨⟨p, h.reaches.trans hp, at_p⟩, behind⟩
  ordered := by
    rw [faults_append, List.pairwise_append]
    refine ⟨h.ordered, h'.ordered, fun e he e' he' => ?_⟩
    obtain ⟨-, behind, strictly⟩ := h.places e he
    obtain ⟨⟨p, hp, -, hunread⟩, -⟩ := h'.places e' he'
    have later : e'.unread ≤ s.rest.length := hunread ▸ hp.length_le
    exact ⟨Nat.le_trans later behind, fun hk => Nat.lt_of_le_of_lt later (strictly hk)⟩

/-- A fault is noted, and reading resumes behind it. -/
theorem Course.resume (he : e.At s) :
    Course s { s with rest := resume s.rest, errors := s.errors ++ [e] } [e] where
  reaches := .resume s _
  errors := rfl
  places e' he' := by
    obtain rfl := List.mem_singleton.1 (List.mem_of_mem_filter he')
    exact ⟨⟨s, .refl s, he⟩, resume_behind he _⟩
  ordered := (List.pairwise_singleton _ e).filter _

/-- Where nothing is read and nothing noted, all is charged. -/
theorem Charged.refl (s : State) : Charged spare s s [] :=
  ⟨.harmless (.refl s) (List.append_nil _).symm rfl, Nat.zero_le _⟩

/-- What is to spare on the first stretch is so on both. -/
theorem Charged.trans (h : Charged spare b s new) (h' : Charged 0 s s' new')
    (hs : spare ≤ b.rest.length - s.rest.length) : Charged spare b s' (new ++ new') := by
  refine ⟨h.toCourse.trans h'.toCourse, ?_⟩
  have first := h.count
  have second := h'.count
  have shorter := h.reaches.length_le
  have shorter' := h'.reaches.length_le
  rw [faults_append, List.length_append]
  omega

/-- Without a fault there is nothing to charge. -/
theorem Charged.harmless (h : Charged spare b s new) (hr : s.Reaches s')
    (he : s'.errors = s.errors ++ new') (hn : faults new' = []) :
    Charged spare b s' (new ++ new') := by
  refine ⟨h.toCourse.trans (.harmless hr he hn), ?_⟩
  have := h.count
  have := hr.length_le
  rw [faults_append, hn, List.append_nil]
  omega

/-- Reading on is free. -/
theorem Charged.onwards (h : Charged spare b s new) (hr : s.Reaches s')
    (he : s'.errors = s.errors) : ∃ new, Charged spare b s' new :=
  ⟨_, h.harmless hr (he.trans (List.append_nil _).symm) rfl⟩

/-- An error noted in passing is no fault. -/
theorem Charged.noting (h : Charged spare b s new) (he : e.cause.isFatal = false) :
    ∃ new, Charged spare b { s with errors := s.errors ++ [e] } new :=
  ⟨_, h.harmless (.of_rest_eq rfl) rfl (faults_of_not_fatal he)⟩

/-- A declaration that fails is charged to the token it fails at, or at the end of the input to the
one it began with. -/
theorem Charged.resume (hb : b.atEnd = false) (h : Charged 1 b s new) (he : e.At s) :
    Charged 0 b { s with rest := resume s.rest, errors := s.errors ++ [e] } (new ++ [e]) := by
  refine ⟨h.toCourse.trans (.resume he), ?_⟩
  have count := h.count
  have one : (faults [e]).length ≤ 1 := faults_length_le [e]
  have resumed : (Grammar.resume s.rest).length ≤ s.rest.length := (resume_suffix s.rest).length_le
  have shorter := h.reaches.length_le
  rw [faults_append, List.length_append]
  change _ ≤ b.rest.length - (Grammar.resume s.rest).length - 0
  -- At the end of the input nothing is skipped, but by then the declaration has read something.
  by_cases hk : e.token.kind = .endOfInput
  · have ends : s.atEnd = true := State.atEnd_iff.2 (he.1 ▸ hk)
    have read : s.rest.length ≠ b.rest.length := by
      intro heq
      have same : s.rest = b.rest := by
        obtain ⟨ts, hs, -⟩ := h.reaches
        exact ((List.suffix_append ts s.rest).eq_of_length (hs ▸ heq)).trans hs.symm
      rw [State.atEnd, State.next, same] at ends
      exact Bool.false_ne_true (hb.symm.trans ends)
    omega
  · have behind : (Grammar.resume s.rest).length < e.unread := (resume_behind he []).2 hk
    rw [he.2] at behind
    omega

end Course

/-! ## Within a declaration -/

/-- One run twice, on a course from the state where its declaration began. -/
def course (b : State) : Pairing where
  token := Eq
  number := AnyNumber
  state s s' := s' = s ∧ ∃ new, Charged 1 b s new
  failure e e' s s' := e' = e ∧ s' = s ∧ e.At s ∧ ∃ new, Charged 1 b s new
  faithful := faithful_eq
  level := by
    rintro s _ ⟨rfl, -⟩
    rfl
  ended := by
    rintro s _ ⟨rfl, -⟩ hs
    exact hs
  read := by
    rintro s _ t ts ⟨rfl, new, h⟩ hs ht
    exact ⟨t, ts, hs, rfl, rfl, h.onwards (.of_cons hs ht) rfl⟩
  counted := by
    rintro s _ ⟨rfl, new, h⟩
    exact ⟨trivial, rfl, h.onwards (.of_rest_eq rfl) rfl⟩
  deeper := by
    rintro s _ ⟨rfl, new, h⟩ -
    exact ⟨rfl, h.onwards (.of_rest_eq rfl) rfl⟩
  shallower := by
    rintro s _ ⟨rfl, new, h⟩
    exact ⟨rfl, h.onwards (.of_rest_eq rfl) rfl⟩
  failed := by
    rintro s _ cause ⟨rfl, h⟩
    exact ⟨rfl, rfl, ⟨rfl, rfl⟩, h⟩
  failed_shallower := by
    rintro e _ s _ ⟨rfl, rfl, he, new, h⟩
    exact ⟨rfl, rfl, he, h.onwards (.of_rest_eq rfl) rfl⟩
  noted := by
    rintro s _ cause ⟨rfl, new, h⟩ hc
    exact ⟨rfl, h.noting hc⟩
  notedAt := by
    rintro s _ cause t _ ⟨rfl, new, h⟩ hc rfl
    exact ⟨rfl, h.noting hc⟩

/-! ## From one declaration to the next -/

/-- However the parser ends, there were no more faults on the way than tokens; a fault that it ends
in arose where it ended. -/
structure Runs {α : Type} (p : Parser α) (s : State) : Prop where
  ok {a : α} {s' : State} (h : p s = .ok a s') : ∃ new, Charged 0 s s' new
  error {e : Error} {s' : State} (h : p s = .error e s') : e.At s' ∧ ∃ new, Charged 0 s s' new

section Runs

variable {α β : Type} {p : Parser α} {f : α → Parser β} {Q : α → α → Prop} {n : Nat} {s : State}

/-- Parsers one behind the other run on a course if both do. -/
theorem Runs.bind (hp : Runs p s) (hf : ∀ a s', p s = .ok a s' → Runs (f a) s') :
    Runs (p >>= f) s where
  ok h := by
    obtain ⟨a, s₁, h₁, h₂⟩ := bind_eq_ok_iff.1 h
    obtain ⟨new, charged⟩ := hp.ok h₁
    obtain ⟨new', charged'⟩ := (hf a s₁ h₁).ok h₂
    exact ⟨_, charged.trans charged' (Nat.zero_le _)⟩
  error h := by
    rcases bind_eq_error_iff.1 h with h₁ | ⟨a, s₁, h₁, h₂⟩
    · exact hp.error h₁
    · obtain ⟨new, charged⟩ := hp.ok h₁
      obtain ⟨he, new', charged'⟩ := (hf a s₁ h₁).error h₂
      exact ⟨he, _, charged.trans charged' (Nat.zero_le _)⟩

/-- Whether a parser runs on a course is told by its result. -/
theorem Runs.congr {p' : Parser α} (h : p s = p' s) (hp : Runs p' s) : Runs p s where
  ok he := hp.ok (h ▸ he)
  error he := hp.error (h ▸ he)

theorem Runs.pure {a : α} : Runs (pure a) s where
  ok h := by
    obtain ⟨-, rfl⟩ := pure_eq_ok_iff.1 h
    exact ⟨[], .refl s⟩
  error h := nomatch h

theorem Runs.fail {cause : Cause} : Runs (fail cause : Parser α) s where
  ok h := nomatch h
  error h := by
    cases h
    exact ⟨⟨rfl, rfl⟩, [], .refl s⟩

/-- What is charged with tokens to spare is charged without. -/
theorem Charged.weaken {spare : Nat} {b : State} {new : List Error} (h : Charged spare b s new) :
    Charged 0 b s new := ⟨h.toCourse, Nat.le_trans h.count (Nat.sub_le ..)⟩

/-- Whatever keeps to a course does so from the state it is started on. -/
theorem Runs.of_agree (h : (course s).Agree n p p Q) (hn : s.ahead < n) : Runs p s where
  ok hp := by
    have ends := h s s ⟨rfl, [], .refl s⟩ hn
    rw [hp] at ends
    cases ends with
    | ok hs _ _ =>
      obtain ⟨-, new, charged⟩ := hs
      exact ⟨new, charged.weaken⟩
  error hp := by
    have ends := h s s ⟨rfl, [], .refl s⟩ hn
    rw [hp] at ends
    cases ends with
    | error he _ =>
      obtain ⟨-, -, he, new, charged⟩ := he
      exact ⟨he, new, charged.weaken⟩

/-- A parser that is given up at a fault notes it, and goes on behind the token to blame. -/
theorem recovering_runs (hs : s.atEnd = false) (h : (course s).Agree (s.ahead + 1) p p Q) :
    Runs (recovering p) s where
  ok hp := by
    have ends := h s s ⟨rfl, [], .refl s⟩ (Nat.lt_succ_self _)
    unfold recovering at hp
    cases h₁ : p s with
    | ok a s₁ =>
      rw [h₁] at hp ends
      cases hp
      cases ends with
      | ok hs _ _ =>
        obtain ⟨-, new, charged⟩ := hs
        exact ⟨new, charged.weaken⟩
    | error e s₁ =>
      rw [h₁] at hp ends
      cases hp
      cases ends with
      | error he _ =>
        obtain ⟨-, -, he, new, charged⟩ := he
        exact ⟨_, charged.resume hs he⟩
  error hp := by
    unfold recovering at hp
    cases h₁ : p s <;> rw [h₁] at hp <;> cases hp

/-- Behind a token that was read, a declaration may hold whatever runs like this. -/
theorem Runs.agree (hp : ∀ s, Runs p s) (hQ : ∀ a, Q a a) (b : State) :
    (course b).Agree b.ahead p p Q := by
  rintro _ s ⟨rfl, new, charged⟩ hn
  have read : 1 ≤ b.rest.length - s.rest.length := by
    have := charged.reaches.length
    omega
  cases h : p s with
  | ok a s₁ =>
    obtain ⟨new', charged'⟩ := (hp s).ok h
    exact .ok ⟨rfl, _, charged.trans charged' read⟩ charged'.reaches (hQ a)
  | error e s₁ =>
    obtain ⟨he, new', charged'⟩ := (hp s).error h
    exact .error ⟨rfl, rfl, he, _, charged.trans charged' read⟩ charged'.reaches

end Runs

/-- The parsers of statements and declarations, each in the way its callers need. -/
theorem statement_declaration_runs : ∀ fuel,
    (∀ b, (course b).Agree (b.ahead + 1) (statement fuel) (statement fuel) (course b).Stmts) ∧
    (∀ s : State, s.atEnd = false → Runs (declaration fuel) s) ∧ (∀ s, Runs (block fuel) s) ∧
    ∀ b, (course b).Agree b.ahead (methods fuel) (methods fuel) (course b).RoutineLists
  | 0 => ⟨fun _ => .fail, fun _ _ => .fail, fun _ => .fail, fun _ => .fail⟩
  | fuel + 1 => by
    obtain ⟨hs, hd, hb, hm⟩ := statement_declaration_runs fuel
    have he : ∀ b n, (course b).Agree n (expression fuel) (expression fuel) (course b).Exprs :=
      fun b n => Pairing.nested_agree (Pairing.unary_assignment_agree fuel n).2
    -- A block is entered behind its brace, which is what a fault at the end is charged to.
    have blocks : ∀ b, (course b).Agree b.ahead (block fuel) (block fuel) (course b).StmtLists :=
      fun b => Runs.agree hb (fun ss => Stmt.AlikeList.refl ss fun _ _ => rfl) b
    refine ⟨fun b => ?_, fun s hend => ?_, fun s => ?_, fun b => ?_⟩
    · exact Pairing.nested_agree
        (Pairing.statementRule_agree (he b _) (hs b).pred (blocks b))
    · exact recovering_runs hend <| Pairing.declarationRule_agree (he s _) (hs s)
        (Pairing.routineRule_agree (blocks s).pred) (hm s)
    · have close : Runs (expect (.punct .rightBrace) .blockEnd) s :=
        .of_agree (.expectLast rfl) (Nat.lt_succ_self _)
      unfold block
      refine .congr (bodyOver_bind _) ?_
      cases hover : s.next.kind.same (.punct .rightBrace) || s.atEnd with
      | true => exact close.bind fun _ _ _ => .pure
      | false =>
        exact (hd s (Bool.or_eq_false_iff.1 hover).2).bind fun _ _ _ =>
          (hb _).bind fun _ _ _ => .pure
    · exact Pairing.agree_of_bodyOver (.pure .nil) fun s s' hs hn _ =>
        ((Pairing.routineRule_agree (blocks b).pred).bind fun _ _ hf => (hm b).bind fun _ _ hmore =>
          .pure (.cons hf hmore)) s s' hs hn

/-- The declarations of a program run on a course, from any state. -/
theorem declarations_runs : ∀ limit s, Runs (declarations limit) s
  | 0, _ => .pure
  | limit + 1, s => by
    unfold declarations
    refine .congr (atEnd_bind _) ?_
    cases hend : s.atEnd with
    | true => exact .pure
    | false =>
      refine .congr (unread_bind _) ?_
      exact ((statement_declaration_runs _).2.1 s hend).bind fun _ s' _ =>
        (declarations_runs limit s').bind fun _ _ _ => .pure

/-! ## Where the faults of a program are -/

/-- The position of the token that the error arose at. -/
def Error.position (tokens : List Token) (e : Error) : Nat := tokens.length - e.unread

/-- An error arises at a token before the end of the input, or at the end. -/
theorem Error.At.position {tokens : List Token} {n : NodeId} {e : Error} {s : State} (h : e.At s)
    (hs : (State.start tokens n).Reaches s) : e.unread ≤ tokens.length ∧
      e.token = (tokens.drop (e.position tokens)).headD (Token.endOfInput 1) ∧
      e.position tokens ≤ (inner tokens).length ∧
      (e.position tokens < (inner tokens).length ↔ e.token.kind ≠ .endOfInput) := by
  obtain ⟨ts, htokens, hts⟩ := hs
  replace htokens : tokens = ts ++ s.rest := htokens
  have position : e.position tokens = ts.length := by
    rw [Error.position, h.2, htokens, List.length_append, Nat.add_sub_cancel]
  have before : (inner tokens).length = ts.length + s.ahead := by
    rw [htokens, inner_append hts, List.length_append]
    rfl
  have ends : s.ahead = 0 ↔ e.token.kind = .endOfInput := by
    rw [State.ahead_eq_zero_iff, State.atEnd_iff, h.1]
  refine ⟨?_, ?_, by omega, ?_⟩
  · rw [h.2, htokens, List.length_append]
    exact Nat.le_add_left ..
  · rw [position, htokens, List.drop_left, h.1, State.next]
  · rw [position, before, ne_eq, ← ends]
    omega

/-- **Errors that abandon a declaration do not cascade.** Each arises at a token before the first
end of the input or at that end, in the order they are noted never at an earlier one than before,
and further on as long as the end is not reached. So no token but the end is blamed twice, and there
are no more of them than tokens before the end. -/
theorem faults_advance (tokens : List Token) (n : NodeId) :
    (∀ e ∈ faults (parse tokens n).errors, e.unread ≤ tokens.length ∧
      e.token = (tokens.drop (e.position tokens)).headD (Token.endOfInput 1) ∧
      e.position tokens ≤ (inner tokens).length ∧
      (e.position tokens < (inner tokens).length ↔ e.token.kind ≠ .endOfInput)) ∧
    (faults (parse tokens n).errors).Pairwise (fun e e' =>
      e.position tokens ≤ e'.position tokens ∧
      (e.position tokens < (inner tokens).length → e.position tokens < e'.position tokens)) ∧
    ((faults (parse tokens n).errors).filter fun e => e.token.kind ≠ .endOfInput).Pairwise
      (fun e e' => e.position tokens ≠ e'.position tokens) ∧
    (faults (parse tokens n).errors).length ≤ (inner tokens).length := by
  obtain ⟨ss, s, h⟩ := declarations_returns tokens.length (.start tokens n)
  obtain ⟨new, charged⟩ := (declarations_runs tokens.length (.start tokens n)).ok h
  have noted : (parse tokens n).errors = new := by
    rw [parse_eq h]
    exact charged.errors
  rw [noted]
  have places : ∀ e ∈ faults new, e.unread ≤ tokens.length ∧
      e.token = (tokens.drop (e.position tokens)).headD (Token.endOfInput 1) ∧
      e.position tokens ≤ (inner tokens).length ∧
      (e.position tokens < (inner tokens).length ↔ e.token.kind ≠ .endOfInput) := by
    intro e he
    obtain ⟨⟨p, hp, at_p⟩, -⟩ := charged.places e he
    exact at_p.position hp
  have advance : (faults new).Pairwise (fun e e' => e.position tokens ≤ e'.position tokens ∧
      (e.token.kind ≠ .endOfInput → e.position tokens < e'.position tokens)) := by
    refine charged.ordered.imp_of_mem fun {e e'} he he' ⟨later, strictly⟩ => ?_
    have bound := (places e he).1
    have bound' := (places e' he').1
    unfold Error.position
    refine ⟨by omega, fun hk => ?_⟩
    have := strictly hk
    omega
  refine ⟨places, ?_, ?_, ?_⟩
  · exact advance.imp_of_mem fun he _ ⟨later, strictly⟩ =>
      ⟨later, fun hlt => strictly ((places _ he).2.2.2.1 hlt)⟩
  · refine (advance.filter _).imp_of_mem fun he _ ⟨_, strictly⟩ => ?_
    exact Nat.ne_of_lt (strictly (of_decide_eq_true (List.mem_filter.1 he).2))
  · have count := charged.count
    have read := charged.reaches.length
    have whole : (State.start tokens n).ahead = (inner tokens).length := rfl
    omega

/-- The tokens of `{ { a b ;`: an error at `b`, and one at the end for each open block. -/
example :
    let tokens : List Token := [⟨.punct .leftBrace, "\x7b", 1⟩, ⟨.punct .leftBrace, "\x7b", 1⟩,
      ⟨.identifier, "a", 1⟩, ⟨.identifier, "b", 1⟩, ⟨.punct .semicolon, ";", 1⟩]
    (faults (parse tokens 0).errors).map (Error.position tokens) = [3, 5, 5] := by
  decide +kernel

end Grammar
end Lox
