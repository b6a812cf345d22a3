/-
# Two parsers side by side

A parser looks at the kinds of the tokens before it, at the nesting level and at nothing else: node
numbers and noted errors are only passed on. So two runs whose states are paired in a way that
every small step keeps (`Pairing`) stay paired, and end with results of the same shape, whatever
else the states differ in. Each rule inherits this from the parsers it refers to (`Agree`).

The parsers have bounds on how far they go, which the tokens still ahead determine. An agreement is
therefore one on states with fewer than `n` tokens ahead: behind a token that was read one on
fewer than `n - 1` is enough, and loops agree whose bounds are both large enough, if they differ.
-/

import Lox.Proofs.Grammar.Tiers
import Lox.Proofs.Tree.Alike

namespace Lox
namespace Grammar

/-! ## The tokens ahead -/

/-- The tokens before the first end of input. -/
def inner (ts : List Token) : List Token := ts.takeWhile fun t => t.kind ≠ .endOfInput

/-- The number of tokens still to be read. -/
def State.ahead (s : State) : Nat := (inner s.rest).length

/-- From the one state to the other, tokens were read, and no end of input. -/
def State.Reaches (s s' : State) : Prop :=
  ∃ ts, s.rest = ts ++ s'.rest ∧ ∀ t ∈ ts, t.kind ≠ .endOfInput

section Ahead

variable {s s' s'' : State} {t : Token} {ts rest : List Token}

/-- Tokens without an end of input come before the first end, and then those of the rest that do. -/
theorem inner_append (h : ∀ t ∈ ts, t.kind ≠ .endOfInput) : inner (ts ++ rest) = ts ++ inner rest :=
  List.takeWhile_append_of_pos fun t ht => decide_eq_true (h t ht)

/-- A token that is no end of input comes before the first end. -/
theorem inner_cons (h : t.kind ≠ .endOfInput) : inner (t :: ts) = t :: inner ts :=
  List.takeWhile_cons_of_pos (decide_eq_true h)

/-- There are no more tokens before the first end than tokens. -/
theorem inner_length_le (ts : List Token) : (inner ts).length ≤ ts.length :=
  (List.takeWhile_sublist _).length_le

/-- No more tokens can still be read than are left. -/
theorem State.ahead_le (s : State) : s.ahead ≤ s.rest.length := inner_length_le s.rest

/-- The end of the input is reached where it comes next. -/
theorem State.atEnd_iff : s.atEnd = true ↔ s.next.kind = .endOfInput := Kind.same_iff_eq rfl

/-- Before the end of the input there is a token to read. -/
theorem State.rest_eq_of_not_atEnd (h : s.atEnd ≠ true) :
    s.rest = s.next :: s.rest.tail ∧ s.next.kind ≠ .endOfInput := by
  have hn : s.next.kind ≠ .endOfInput := fun hk => h (atEnd_iff.2 hk)
  exact ⟨rest_eq_of_next rfl hn, hn⟩

/-- The next token is one of those still to be read. -/
theorem State.ahead_of_rest (h : s.rest = t :: ts) (ht : t.kind ≠ .endOfInput) :
    s.ahead = (inner ts).length + 1 := by
  rw [ahead, h, inner_cons ht, List.length_cons]

/-- Nothing is still to be read at the end of the input, and only there. -/
theorem State.ahead_eq_zero_iff : s.ahead = 0 ↔ s.atEnd = true := by
  constructor
  · intro h
    by_contra hend
    obtain ⟨hr, hn⟩ := rest_eq_of_not_atEnd hend
    rw [ahead_of_rest hr hn] at h
    cases h
  · intro h
    rw [atEnd_iff, next] at h
    cases hr : s.rest with
    | nil => rw [ahead, hr, inner, List.takeWhile_nil, List.length_nil]
    | cons t ts =>
      rw [hr, List.headD_cons] at h
      rw [ahead, hr, inner, List.takeWhile_cons_of_neg (by simpa using h), List.length_nil]

/-- Nothing need be read. -/
theorem State.Reaches.refl (s : State) : s.Reaches s := ⟨[], rfl, nofun⟩

/-- Nothing was read where the same tokens are left. -/
theorem State.Reaches.of_rest_eq (h : s'.rest = s.rest) : s.Reaches s' := ⟨[], h.symm, nofun⟩

/-- What is reached from a state that was reached is reached. -/
theorem State.Reaches.trans (h : s.Reaches s') (h' : s'.Reaches s'') : s.Reaches s'' := by
  obtain ⟨ts, hs, hts⟩ := h
  obtain ⟨ts', hs', hts'⟩ := h'
  exact ⟨ts ++ ts', by rw [hs, hs', List.append_assoc], fun t ht =>
    (List.mem_append.1 ht).elim (hts t) (hts' t)⟩

/-- Behind a token that is no end of input a state is reached. -/
theorem State.Reaches.of_cons (h : s.rest = t :: s'.rest) (ht : t.kind ≠ .endOfInput) :
    s.Reaches s' := ⟨[t], h, fun _ hu => List.mem_singleton.1 hu ▸ ht⟩

/-- Each token read is one less to read, and one less that is left. -/
theorem State.Reaches.length (h : s.Reaches s') :
    s.rest.length + s'.ahead = s.ahead + s'.rest.length := by
  obtain ⟨ts, hs, hts⟩ := h
  rw [ahead, ahead, hs, inner_append hts, List.length_append, List.length_append]
  omega

/-- No more tokens are left than before. -/
theorem State.Reaches.length_le (h : s.Reaches s') : s'.rest.length ≤ s.rest.length := by
  obtain ⟨ts, hs, -⟩ := h
  rw [hs, List.length_append]
  exact Nat.le_add_left _ _

/-- What was read up to the end of the input are all the tokens before it. -/
theorem State.Reaches.inner_eq (h : s.Reaches s') (hend : s'.atEnd = true)
    (hs : s.rest = ts ++ s'.rest) : inner s.rest = ts := by
  obtain ⟨ts', hs', hts⟩ := h
  obtain rfl : ts = ts' := List.append_cancel_right (hs.symm.trans hs')
  have ended : inner s'.rest = [] :=
    List.length_eq_zero_iff.1 (State.ahead_eq_zero_iff.2 hend)
  rw [hs, inner_append hts, ended, List.append_nil]

/-- No more tokens are still to be read than before. -/
theorem State.Reaches.ahead_le (h : s.Reaches s') : s'.ahead ≤ s.ahead := by
  obtain ⟨ts, hs, hts⟩ := h
  rw [ahead, ahead, hs, inner_append hts, List.length_append]
  omega

/-- No end of input is skipped on the way to the next statement. -/
theorem resumeAfter_reaches (last : Token) (ts : List Token) :
    ∃ pre, ts = pre ++ resumeAfter last ts ∧ ∀ t ∈ pre, t.kind ≠ .endOfInput := by
  fun_induction resumeAfter last ts with
  | case1 last => exact ⟨[], rfl, nofun⟩
  | case2 last t ts h => exact ⟨[], rfl, nofun⟩
  | case3 last t ts h ih =>
    obtain ⟨pre, hpre, hmem⟩ := ih
    have ht : t.kind ≠ .endOfInput := by
      rintro hk
      simp [hk, Kind.same] at h
    exact ⟨t :: pre, congrArg (t :: ·) hpre, List.forall_mem_cons.2 ⟨ht, hmem⟩⟩

/-- Where reading resumes lies before the end of the input. -/
theorem State.Reaches.resume (s : State) (errors : List Error) :
    s.Reaches { s with rest := resume s.rest, errors := errors } := by
  obtain ⟨rest, depth, n, es⟩ := s
  cases rest with
  | nil => exact .refl _
  | cons t ts =>
    rw [Grammar.resume]
    split
    · exact .of_rest_eq rfl
    · rename_i h
      have ht : t.kind ≠ .endOfInput := fun hk => h ((Kind.same_iff_eq rfl).2 hk)
      obtain ⟨pre, hpre, hmem⟩ := resumeAfter_reaches t ts
      exact ⟨t :: pre, congrArg (t :: ·) hpre, List.forall_mem_cons.2 ⟨ht, hmem⟩⟩

end Ahead

/-! ## Pairings -/

/-- States of two runs, paired in a way that each small step of a parser keeps: the next tokens
read the same, they can be read on both sides, and so on. A failure is paired with the states it
arises in. -/
structure Pairing where
  token : Token → Token → Prop
  number : NodeId → NodeId → Prop
  state : State → State → Prop
  failure : Error → Error → State → State → Prop
  faithful : Faithful token
  level {s s' : State} : state s s' → s'.depth = s.depth
  ended {s s' : State} : state s s' → s.atEnd = true → s'.atEnd = true
  read {s s' : State} {t : Token} {ts : List Token} : state s s' → s.rest = t :: ts →
    t.kind ≠ .endOfInput → ∃ t' ts', s'.rest = t' :: ts' ∧ token t t' ∧
      state { s with rest := ts } { s' with rest := ts' }
  counted {s s' : State} : state s s' → number s.nextId s'.nextId ∧
    state { s with nextId := s.nextId + 1 } { s' with nextId := s'.nextId + 1 }
  deeper {s s' : State} : state s s' → s.depth < maxNesting →
    state { s with depth := s.depth + 1 } { s' with depth := s'.depth + 1 }
  shallower {s s' : State} : state s s' →
    state { s with depth := s.depth - 1 } { s' with depth := s'.depth - 1 }
  failed {s s' : State} {cause : Cause} : state s s' →
    failure (s.blame cause) (s'.blame cause) s s'
  failed_shallower {e e' : Error} {s s' : State} : failure e e' s s' →
    failure e e' { s with depth := s.depth - 1 } { s' with depth := s'.depth - 1 }
  noted {s s' : State} {cause : Cause} : state s s' → cause.isFatal = false →
    state { s with errors := s.errors ++ [s.blame cause] }
      { s' with errors := s'.errors ++ [s'.blame cause] }
  notedAt {s s' : State} {cause : Cause} {t t' : Token} : state s s' → cause.isFatal = false →
    token t t' → state { s with errors := s.errors ++ [⟨cause, t, s.rest.length⟩] }
      { s' with errors := s'.errors ++ [⟨cause, t', s'.rest.length⟩] }

namespace Pairing

variable (P : Pairing)

/-- The ends of two runs, of which the first was started on `s`. -/
inductive Ends {α : Type} (Q : α → α → Prop) (s : State) :
    EStateM.Result Error State α → EStateM.Result Error State α → Prop
  | ok {a a' : α} {s₁ s₁' : State} (hs : P.state s₁ s₁') (hr : s.Reaches s₁) (hq : Q a a') :
    Ends Q s (.ok a s₁) (.ok a' s₁')
  | error {e e' : Error} {s₁ s₁' : State} (he : P.failure e e' s₁ s₁') (hr : s.Reaches s₁) :
    Ends Q s (.error e s₁) (.error e' s₁')

/-- Started on paired states with fewer than `n` tokens ahead, the parsers end alike. -/
def Agree {α : Type} (n : Nat) (p p' : Parser α) (Q : α → α → Prop) : Prop :=
  ∀ s s' : State, P.state s s' → s.ahead < n → P.Ends Q s (p s) (p' s')

/-- The same where `t` and `t'` come next. -/
def AgreeBefore {α : Type} (n : Nat) (t t' : Token) (p p' : Parser α) (Q : α → α → Prop) : Prop :=
  ∀ s s' : State, P.state s s' → s.ahead < n → s.next = t → s'.next = t' →
    P.Ends Q s (p s) (p' s')

section Parts

variable {P} {α β : Type} {p p' : Parser α} {f f' : α → Parser β} {Q : α → α → Prop}
  {Q' : β → β → Prop} {n : Nat} {s s' : State}

/-- Of paired states the next tokens are of one kind. -/
theorem next_kind (hs : P.state s s') : s'.next.kind = s.next.kind := by
  by_cases hend : s.atEnd = true
  · rw [State.atEnd_iff.1 hend, State.atEnd_iff.1 (P.ended hs hend)]
  · obtain ⟨hr, hn⟩ := State.rest_eq_of_not_atEnd hend
    obtain ⟨t', ts', hr', ht, -⟩ := P.read hs hr hn
    rw [State.next, hr', List.headD_cons]
    exact (P.faithful _ _ ht).kind

/-- Paired states reach the end of the input together. -/
theorem atEnd_eq (hs : P.state s s') : s'.atEnd = s.atEnd := by
  rw [State.atEnd, State.atEnd, next_kind hs]

/-- In paired states as many tokens are still to be read. -/
theorem ahead_eq {s s' : State} (hs : P.state s s') : s'.ahead = s.ahead := by
  by_cases hend : s.atEnd = true
  · rw [State.ahead_eq_zero_iff.2 hend, State.ahead_eq_zero_iff.2 (P.ended hs hend)]
  · obtain ⟨hr, hn⟩ := State.rest_eq_of_not_atEnd hend
    obtain ⟨t', ts', hr', ht, hs'⟩ := P.read hs hr hn
    have hlt : (inner s.rest.tail).length < s.ahead := by rw [State.ahead_of_rest hr hn]; omega
    have ih := ahead_eq hs'
    rw [State.ahead_of_rest hr hn, State.ahead_of_rest hr' ((P.faithful _ _ ht).kind ▸ hn)]
    exact congrArg (· + 1) ih
termination_by s.ahead

/-- Runs that end alike go on to ends that are alike, if what follows ends alike from all states
they may end in. -/
theorem Ends.bind (h : P.Ends Q s (p s) (p' s'))
    (hf : ∀ a a' s₁ s₁', p s = .ok a s₁ → Q a a' → P.state s₁ s₁' → s.Reaches s₁ →
      P.Ends Q' s₁ (f a s₁) (f' a' s₁')) :
    P.Ends Q' s ((p >>= f) s) ((p' >>= f') s') := by
  change P.Ends Q' s (EStateM.bind p f s) (EStateM.bind p' f' s')
  unfold EStateM.bind
  revert h hf
  generalize p s = x, p' s' = y
  intro h hf
  cases h with
  | error he hr => exact .error he hr
  | @ok a a' s₁ s₁' hs hr hq =>
    have h := hf a a' s₁ s₁' rfl hq hs hr
    revert h
    change P.Ends Q' s₁ (f a s₁) (f' a' s₁') → P.Ends Q' s (f a s₁) (f' a' s₁')
    generalize f a s₁ = x, f' a' s₁' = y
    intro h
    cases h with
    | ok hs' hr' hq' => exact .ok hs' (hr.trans hr') hq'
    | error he hr' => exact .error he (hr.trans hr')

/-- Parsers that agree agree with fewer tokens ahead. -/
theorem Agree.mono {m : Nat} (h : P.Agree n p p' Q) (hm : m ≤ n) : P.Agree m p p' Q :=
  fun s s' hs hn => h s s' hs (Nat.lt_of_lt_of_le hn hm)

/-- In particular with one token fewer. -/
theorem Agree.pred (h : P.Agree n p p' Q) : P.Agree (n - 1) p p' Q := h.mono (Nat.sub_le n 1)

/-- Parsers that agree do so before any tokens. -/
theorem Agree.before {t t' : Token} (h : P.Agree n p p' Q) : P.AgreeBefore n t t' p p' Q :=
  fun s s' hs hn _ _ => h s s' hs hn

/-- Parsers one behind the other agree if both parts do. -/
theorem Agree.bind (hp : P.Agree n p p' Q) (hf : ∀ a a', Q a a' → P.Agree n (f a) (f' a') Q') :
    P.Agree n (p >>= f) (p' >>= f') Q' := fun s s' hs hn =>
  (hp s s' hs hn).bind fun a a' s₁ s₁' _ hq hs₁ hr =>
    hf a a' hq s₁ s₁' hs₁ (Nat.lt_of_le_of_lt hr.ahead_le hn)

/-- Results that are related are returned alike. -/
theorem Agree.pure {a a' : α} (h : Q a a') : P.Agree n (pure a) (pure a') Q :=
  fun s _ hs _ => .ok hs (.refl s) h

/-- Parsers that fail for one cause agree. -/
theorem Agree.fail {cause : Cause} : P.Agree n (fail cause) (fail cause) Q :=
  fun s _ hs _ => .error (P.failed hs) (.refl s)

/-- Parsers that return at once at the end of the input need only agree before it. -/
theorem Agree.of_over {a a' : α} (hp : ∀ s : State, s.atEnd = true → p s = .ok a s)
    (hp' : ∀ s : State, s.atEnd = true → p' s = .ok a' s) (hq : Q a a')
    (h : 1 < n → P.Agree n p p' Q) : P.Agree n p p' Q := by
  by_cases hn : 1 < n
  · exact h hn
  · intro s s' hs ha
    have hend : s.atEnd = true := State.ahead_eq_zero_iff.1 (by omega)
    rw [hp s hend, hp' s' (P.ended hs hend)]
    exact .ok hs (.refl s) hq

/-- Noting an error that abandons nothing is done alike. -/
theorem note_agree {cause : Cause} (hc : cause.isFatal = false) :
    P.Agree n (note cause) (note cause) fun _ _ => True :=
  fun _ _ hs _ => .ok (P.noted hs hc) (.of_rest_eq rfl) trivial

/-- So is noting it at related tokens. -/
theorem noteAt_agree {cause : Cause} {t t' : Token} (hc : cause.isFatal = false)
    (ht : P.token t t') : P.Agree n (noteAt cause t) (noteAt cause t') fun _ _ => True :=
  fun _ _ hs _ => .ok (P.notedAt hs hc ht) (.of_rest_eq rfl) trivial

/-- Taking a number is done alike. -/
theorem freshId_agree : P.Agree n freshId freshId P.number :=
  fun _ _ hs _ => .ok (P.counted hs).2 (.of_rest_eq rfl) (P.counted hs).1

/-- Asking for the kind of the next token has one answer. -/
theorem sees_agree {kind : Kind} : P.Agree n (sees kind) (sees kind) Eq := by
  intro s s' hs _
  exact .ok hs (.refl s) (by rw [next_kind hs])

/-- Bounds read off the tokens that are left may differ, but both allow for the tokens ahead. -/
theorem Agree.unread {f f' : Nat → Parser β}
    (h : ∀ k m m', k ≤ n → k ≤ m + 1 → k ≤ m' + 1 → P.Agree k (f m) (f' m') Q') :
    P.Agree n (unread >>= f) (unread >>= f') Q' := by
  intro s s' hs hn
  rw [unread_bind, unread_bind]
  refine h (s.ahead + 1) _ _ hn (Nat.succ_le_succ s.ahead_le) ?_ s s' hs (Nat.lt_succ_self _)
  exact Nat.succ_le_succ (ahead_eq hs ▸ s'.ahead_le)

/-- Parsers agree a level further down if they agree. -/
theorem nested_agree (hp : P.Agree n p p' Q) : P.Agree n (nested p) (nested p') Q := by
  intro s s' hs hn
  unfold nested
  rw [P.level hs]
  by_cases hd : s.depth ≥ maxNesting
  · simp only [hd, if_true]
    exact .error (P.failed hs) (.refl s)
  · simp only [hd, if_false]
    have h := hp _ _ (P.deeper hs (Nat.lt_of_not_le hd)) hn
    rw [P.level hs] at h
    revert h
    generalize p { s with depth := s.depth + 1 } = x, p' { s' with depth := s.depth + 1 } = y
    intro h
    cases h with
    | ok hs hr hq => exact .ok (P.shallower hs) hr hq
    | error he hr => exact .error (P.failed_shallower he) hr

/-- What is looked at reads the same, and is paired if it is not the end of the input. -/
theorem Agree.peek {f f' : Token → Parser β} (h : ∀ t t', t'.kind = t.kind →
      (t.kind ≠ .endOfInput → P.token t t') → P.AgreeBefore n t t' (f t) (f' t') Q') :
    P.Agree n (peek >>= f) (peek >>= f') Q' := by
  intro s s' hs hn
  rw [peek_bind, peek_bind]
  refine h _ _ (next_kind hs) (fun hk => ?_) s s' hs hn rfl rfl
  obtain ⟨t', ts', hr', ht, -⟩ := P.read hs (rest_eq_of_next rfl hk) hk
  rw [State.next, State.next, hr', List.headD_cons]
  exact ht

/-- Behind a token that is skipped one token fewer is ahead. -/
theorem AgreeBefore.skip {f f' : Unit → Parser β} {t t' : Token} (ht : t.kind ≠ .endOfInput)
    (h : P.Agree (n - 1) (f ()) (f' ()) Q') :
    P.AgreeBefore n t t' (skip >>= f) (skip >>= f') Q' := by
  rintro s s' hs hn rfl rfl
  have hr := rest_eq_of_next rfl ht
  obtain ⟨t', ts', hr', -, hs'⟩ := P.read hs hr ht
  have step : s.Reaches { s with rest := s.rest.tail } := .of_cons hr ht
  have fewer : State.ahead { s with rest := s.rest.tail } < n - 1 := by
    rw [State.ahead_of_rest hr ht] at hn
    exact Nat.lt_sub_of_add_lt hn
  rw [skip_bind, skip_bind, hr', List.tail_cons]
  have h := h _ _ hs' fewer
  revert h
  generalize f () { s with rest := s.rest.tail } = x, f' () { s' with rest := ts' } = y
  intro h
  cases h with
  | ok hs hr hq => exact .ok hs (step.trans hr) hq
  | error he hr => exact .error he (step.trans hr)

/-- None of the kinds is the end of the input. -/
abbrev Inner (kinds : List Kind) : Prop := kinds.any (Kind.same .endOfInput) = false

/-- At the end of the input none of the kinds within it is read. -/
theorem acceptAny_over {kinds : List Kind} (hk : Inner kinds) (h : s.atEnd = true) :
    acceptAny kinds s = .ok none s := by
  rw [State.atEnd_iff, State.next] at h
  unfold acceptAny
  cases hr : s.rest with
  | nil => rfl
  | cons t ts =>
    rw [hr, List.headD_cons] at h
    simp only [h, hk, Bool.false_eq_true, if_false]

/-- A token is accepted on both sides or on none, and behind one there are fewer tokens ahead. -/
theorem Agree.accept {kinds : List Kind} {f f' : Option Token → Parser β} (hk : Inner kinds)
    (none : P.Agree n (f none) (f' none) Q')
    (some : ∀ t t', P.token t t' → P.Agree (n - 1) (f (some t)) (f' (some t')) Q') :
    P.Agree n (acceptAny kinds >>= f) (acceptAny kinds >>= f') Q' := by
  intro s s' hs hn
  by_cases hend : s.atEnd = true
  · rw [bind_of_ok (acceptAny_over hk hend), bind_of_ok (acceptAny_over hk (P.ended hs hend))]
    exact none s s' hs hn
  obtain ⟨hr, ht⟩ := State.rest_eq_of_not_atEnd hend
  obtain ⟨t', ts', hr', htt, hs'⟩ := P.read hs hr ht
  have hkind := (P.faithful _ _ htt).kind
  by_cases hm : kinds.any s.next.kind.same
  · have hl : acceptAny kinds s = .ok (.some s.next) { s with rest := s.rest.tail } := by
      unfold acceptAny
      rw [hr]
      simp only [List.tail_cons, hm, if_true]
    have hl' : acceptAny kinds s' = .ok (.some t') { s' with rest := ts' } := by
      unfold acceptAny
      rw [hr']
      simp only [hkind, hm, if_true]
    have step : s.Reaches { s with rest := s.rest.tail } := .of_cons hr ht
    rw [State.ahead_of_rest hr ht] at hn
    have h : P.Ends (fun a a' => ∃ t t', a = .some t ∧ a' = .some t' ∧ P.token t t') s
        (acceptAny kinds s) (acceptAny kinds s') := by
      rw [hl, hl']
      exact .ok hs' step ⟨_, _, rfl, rfl, htt⟩
    refine h.bind fun a a' s₁ s₁' ha hq hs₁ _ => ?_
    obtain ⟨t, t', rfl, rfl, htt⟩ := hq
    rw [hl] at ha
    cases ha
    exact some _ _ htt _ _ hs₁ (Nat.lt_sub_of_add_lt hn)
  · have hl : acceptAny kinds s = .ok .none s := by
      unfold acceptAny
      rw [hr]
      simp only [hm, Bool.false_eq_true, if_false]
    have hl' : acceptAny kinds s' = .ok .none s' := by
      unfold acceptAny
      rw [hr']
      simp only [hkind, hm, Bool.false_eq_true, if_false]
    rw [bind_of_ok hl, bind_of_ok hl']
    exact none s s' hs hn

/-- A token that has to be there is there on both sides or on none. -/
theorem Agree.expect {kind : Kind} {wanted : Wanted} {f f' : Token → Parser β}
    (hk : Inner [kind]) (h : ∀ t t', P.token t t' → P.Agree (n - 1) (f t) (f' t') Q') :
    P.Agree n (expect kind wanted >>= f) (expect kind wanted >>= f') Q' := by
  have step : ∀ g : Token → Parser β, (Grammar.expect kind wanted >>= g) =
      (acceptAny [kind] >>= fun found => found.elim (Grammar.fail (.missing wanted)) g) := by
    intro g
    unfold Grammar.expect Grammar.accept
    rw [bind_assoc]
    refine congrArg _ (funext fun found => ?_)
    cases found with
    | some t => exact pure_bind t g
    | none => rfl
  rw [step, step]
  exact .accept hk .fail h

/-- The token that a rule ends with is expected alike. -/
theorem Agree.expectLast {kind : Kind} {wanted : Wanted} (hk : Inner [kind]) :
    P.Agree n (Grammar.expect kind wanted) (Grammar.expect kind wanted) P.token := by
  rw [← bind_pure (Grammar.expect kind wanted)]
  exact .expect hk fun _ _ ht => .pure ht

/-- At the end of the input there are no more items. -/
theorem moreItems_over {tooMany : Cause} {fuel count : Nat} (h : s.atEnd = true) :
    moreItems p tooMany fuel count s = .ok [] s := by
  cases fuel with
  | zero => rfl
  | succ fuel => exact bind_of_ok (acceptAny_over rfl h)

/-- Lists of items agree whose bounds both allow for the tokens ahead. -/
theorem moreItems_agree {tooMany : Cause} (hc : tooMany.isFatal = false) {fuel fuel' count : Nat}
    (hp : P.Agree (n - 1) p p' Q) (hf : n ≤ fuel + 1) (hf' : n ≤ fuel' + 1) :
    P.Agree n (moreItems p tooMany fuel count) (moreItems p' tooMany fuel' count)
      (List.Forall₂ Q) := by
  induction fuel generalizing n fuel' count with
  | zero => exact .of_over (fun _ => moreItems_over) (fun _ => moreItems_over) .nil fun h => by omega
  | succ fuel ih =>
    refine .of_over (fun _ => moreItems_over) (fun _ => moreItems_over) .nil fun hn => ?_
    obtain ⟨fuel', rfl⟩ : ∃ k, fuel' = k + 1 := ⟨fuel' - 1, by omega⟩
    refine .accept rfl (.pure .nil) fun _ _ _ => ?_
    have rest : P.Agree (n - 1)
        (do let a ← p; let more ← moreItems p tooMany fuel (count + 1); return a :: more)
        (do let a ← p'; let more ← moreItems p' tooMany fuel' (count + 1); return a :: more)
        (List.Forall₂ Q) :=
      hp.bind fun a a' ha => (ih hp.pred (by omega) (by omega)).bind fun more more' hm =>
        .pure (.cons ha hm)
    by_cases hm : count ≥ maxArity
    · simp only [hm, if_true]
      exact (note_agree hc).bind fun _ _ _ => rest
    · simp only [hm, if_false]
      exact rest

/-- Lists between parentheses agree if their items do. -/
theorem parenthesised_agree {tooMany : Cause} (hc : tooMany.isFatal = false) {wanted : Wanted}
    (hp : P.Agree n p p' Q) :
    P.Agree n (parenthesised p tooMany wanted) (parenthesised p' tooMany wanted)
      fun r r' => List.Forall₂ Q r.1 r'.1 ∧ P.token r.2 r'.2 := by
  refine sees_agree.bind ?_
  rintro empty _ rfl
  have rest : ∀ items items' : List α, List.Forall₂ Q items items' → P.Agree n
      (Grammar.expect (.punct .rightParen) wanted >>= fun paren => Pure.pure (items, paren))
      (Grammar.expect (.punct .rightParen) wanted >>= fun paren => Pure.pure (items', paren))
      fun r r' => List.Forall₂ Q r.1 r'.1 ∧ P.token r.2 r'.2 := fun items items' h =>
    .expect rfl fun _ _ ht => .pure ⟨h, ht⟩
  cases empty with
  | true => exact Agree.bind (.pure .nil) rest
  | false =>
    refine Agree.bind ?_ rest
    refine hp.bind fun a a' ha => .unread fun k m m' hk hm hm' => ?_
    exact (moreItems_agree hc (hp.mono (Nat.le_trans (Nat.sub_le k 1) hk)) hm hm').bind
      fun more more' h => .pure (.cons ha h)

variable (P) in
/-- Noting the error and going on at the next statement pairs the states again. -/
def Recovers : Prop := ∀ {e e' : Error} {s s' : State}, P.failure e e' s s' →
  P.state { s with rest := resume s.rest, errors := s.errors ++ [e] }
    { s' with rest := resume s'.rest, errors := s'.errors ++ [e'] }

/-- If paired runs are paired again behind an error, parsers that may be given up agree. -/
theorem recovering_agree (hP : P.Recovers) (hp : P.Agree n p p' Q) :
    P.Agree n (recovering p) (recovering p') (Option.Rel Q) := by
  intro s s' hs hn
  have h := hp s s' hs hn
  unfold recovering
  revert h
  generalize p s = x, p' s' = y
  intro h
  cases h with
  | ok hs hr hq => exact .ok hs hr (.some hq)
  | error he hr => exact .ok (hP he) (hr.trans (.resume _ _)) .none

end Parts

end Pairing

end Grammar
end Lox
