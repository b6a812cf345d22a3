/-
# Programs side by side

The rules tied together agree with a copy of themselves that may be wrapped, rule by rule, in
something the pairing does not see (`Parsers.tied`). Both copies have a fuel of their own: each is
enough, because five steps down the rules read a token, and then how much of it there is does not
matter (`tied_agree`). Loops over declarations agree since each declaration reads a token.
-/

import Lox.Proofs.Grammar.Consumes
import Lox.Proofs.Grammar.Pairing.Statement

namespace Lox
namespace Grammar

/-- Something to put around every rule. -/
abbrev Wrapper := (α : Type) → Parser α → Parser α

/-- Nothing around the rules. -/
abbrev Wrapper.none : Wrapper := fun _ p => p

/-- The parsers that refer to each other. -/
structure Parsers where
  unary : Parser Expr
  assignment : Parser Expr
  statement : Parser Stmt
  declaration : Parser (Option Stmt)
  block : Parser (List Stmt)
  methods : Parser (List FunDecl)

namespace Parsers

/-- The parsers one step up, over the given ones. -/
def next (around : Wrapper) (k : Parsers) : Parsers where
  unary := around _ (unaryRule (nested k.unary) (nested k.assignment))
  assignment := around _ (assignmentRule k.unary k.assignment)
  statement := nested (around _ (statementRule (nested k.assignment) k.statement k.block))
  declaration := around _ (recovering (declarationRule (nested k.assignment) k.statement
    (routineRule .function k.block) k.methods))
  block := around _ do
    if ← bodyOver then
      let _ ← expect (.punct .rightBrace) .blockEnd
      return []
    else
      let first ← k.declaration
      let more ← k.block
      return first.toList ++ more
  methods := around _ do
    if ← bodyOver then return []
    else
      let first ← routineRule .method k.block
      let more ← k.methods
      return first :: more

/-- The rules tied together, with something around each. -/
def tied (around : Wrapper) : Nat → Parsers
  | 0 => ⟨fail (.missing .expression), fail (.missing .expression), fail (.missing .expression),
      fail (.missing .expression), fail (.missing .expression), fail (.missing .expression)⟩
  | fuel + 1 => (tied around fuel).next around

/-- The parsers some steps up, with something around each rule and the given ones at the bottom. -/
def atop (around : Wrapper) (bottom : Parsers) : Nat → Parsers
  | 0 => bottom
  | fuel + 1 => (atop around bottom fuel).next around

/-- The tied parsers have ones at the bottom that fail. -/
theorem tied_eq_atop (around : Wrapper) : ∀ fuel, tied around fuel = atop around (tied around 0) fuel
  | 0 => rfl
  | fuel + 1 => congrArg (next around) (tied_eq_atop around fuel)

/-- With nothing around the rules these are the parsers of the grammar. -/
theorem tied_none : ∀ fuel, tied .none fuel =
    ⟨Grammar.unary fuel, Grammar.assignment fuel, Grammar.statement fuel,
      Grammar.declaration fuel, Grammar.block fuel, Grammar.methods fuel⟩
  | 0 => rfl
  | fuel + 1 => by
    rw [tied, tied_none fuel]
    rfl

/-- Declarations up to the end of the input, with something around each rule. -/
def declarations (around : Wrapper) : Nat → Parser (List Stmt)
  | 0 => return []
  | limit + 1 => do
    if ← atEnd then return []
    else
      let first ← (tied around (fuelFor (← unread))).declaration
      let more ← declarations around limit
      return first.toList ++ more

/-- With nothing around the rules the declarations are those of the parser. -/
theorem declarations_none : ∀ limit, declarations .none limit = Grammar.declarations limit
  | 0 => rfl
  | limit + 1 => by
    unfold declarations Grammar.declarations
    simp only [declarations_none limit, tied_none]

/-- The same with parsers that depend in any way on the tokens left. -/
def upTo (k : Nat → Parsers) : Nat → Parser (List Stmt)
  | 0 => return []
  | limit + 1 => do
    if ← atEnd then return []
    else
      let first ← (k (← unread)).declaration
      let more ← upTo k limit
      return first.toList ++ more

/-- Declarations are read by parsers that depend on the tokens left through their fuel only. -/
theorem declarations_eq_upTo (around : Wrapper) :
    ∀ limit, declarations around limit = upTo (fun m => tied around (fuelFor m)) limit
  | 0 => rfl
  | limit + 1 => by
    unfold declarations upTo
    rw [declarations_eq_upTo around limit]

/-- One expression and then the end of the input, with the given parsers. -/
def sole (k : Parsers) : Parser Expr := do
  let e ← nested k.assignment
  if ← atEnd then return e else fail (.missing .inputEnd)

/-- An expression that stands alone is read by the tied parsers. -/
theorem soleExpression_eq : soleExpression =
    unread >>= fun n => (tied .none (fuelFor n)).sole := by
  simp only [tied_none]
  rfl

end Parsers

namespace Pairing

section Loops

variable {P : Pairing} {α β : Type} {p p' : Parser α} {f f' : α → Parser β} {Q : α → α → Prop}
  {Q' : β → β → Prop} {n : Nat}

/-- The parsers end alike where there is something to read. -/
def AgreeInside (P : Pairing) {α : Type} (n : Nat) (p p' : Parser α) (Q : α → α → Prop) : Prop :=
  ∀ s s' : State, P.state s s' → s.ahead < n → s.atEnd = false → P.Ends Q s (p s) (p' s')

/-- What reads a token leaves one fewer ahead. -/
theorem Agree.consuming (hp : P.Agree n p p' Q)
    (hc : ∀ s : State, s.atEnd = false → ConsumesFrom s p)
    (hf : ∀ a a', Q a a' → P.Agree (n - 1) (f a) (f' a') Q') :
    P.AgreeInside n (p >>= f) (p' >>= f') Q' := by
  intro s s' hs hn hend
  refine (hp s s' hs hn).bind fun a a' s₁ s₁' h₁ hq hs₁ hr => hf a a' hq s₁ s₁' hs₁ ?_
  have read := hc s hend a s₁ h₁
  have same := hr.length
  omega

/-- Parsers agree if they do at the end of the input and where there is something to read. -/
theorem agree_of_atEnd (hp : P.Agree n p p' Q) {q q' : Parser α} (hq : P.AgreeInside n q q' Q) :
    P.Agree n (atEnd >>= fun done => if done then p else q)
      (atEnd >>= fun done => if done then p' else q') Q := by
  intro s s' hs hn
  rw [atEnd_bind, atEnd_bind, atEnd_eq hs]
  cases hend : s.atEnd with
  | true => exact hp s s' hs hn
  | false => exact hq s s' hs hn hend

/-- The same at the end of a body. -/
theorem agree_of_bodyOver (hp : P.Agree n p p' Q) {q q' : Parser α}
    (hq : P.AgreeInside n q q' Q) :
    P.Agree n (bodyOver >>= fun done => if done then p else q)
      (bodyOver >>= fun done => if done then p' else q') Q := by
  intro s s' hs hn
  rw [bodyOver_bind, bodyOver_bind, atEnd_eq hs, next_kind hs]
  cases hover : s.next.kind.same (.punct .rightBrace) || s.atEnd with
  | true => exact hp s s' hs hn
  | false => exact hq s s' hs hn (Bool.or_eq_false_iff.1 hover).2

end Loops

/-- A pairing is kept by the parsers of statements with one fuel on both sides, enough or not. -/
theorem statement_declaration_agree {P : Pairing} (hP : P.Recovers) : ∀ fuel n,
    P.Agree n (Grammar.statement fuel) (Grammar.statement fuel) P.Stmts ∧
    P.Agree n (Grammar.declaration fuel) (Grammar.declaration fuel) (Option.Rel P.Stmts) ∧
    P.Agree n (Grammar.block fuel) (Grammar.block fuel) P.StmtLists ∧
    P.Agree n (Grammar.methods fuel) (Grammar.methods fuel) P.RoutineLists
  | 0, _ => ⟨.fail, .fail, .fail, .fail⟩
  | fuel + 1, n => by
    obtain ⟨hs, hd, hb, hm⟩ := statement_declaration_agree hP fuel n
    have he : P.Agree n (expression fuel) (expression fuel) P.Exprs :=
      nested_agree (unary_assignment_agree fuel n).2
    refine ⟨nested_agree (statementRule_agree he hs.pred hb.pred),
      recovering_agree hP (declarationRule_agree he.pred hs (routineRule_agree hb.pred).pred hm.pred),
      agree_of_bodyOver (.expect rfl fun _ _ _ => .pure .nil) fun s s' hs hn _ => ?_,
      agree_of_bodyOver (.pure .nil) fun s s' hs hn _ => ?_⟩
    · exact hd.bind (fun _ _ hf => hb.bind fun _ _ hm => .pure (toList_append_alike hf hm)) s s' hs hn
    · exact (routineRule_agree hb.pred).bind
        (fun _ _ hf => hm.bind fun _ _ hm => .pure (.cons hf hm)) s s' hs hn

/-- What is put around a rule makes no difference to the pairing. -/
def Absorbs (P : Pairing) (around : Wrapper) : Prop :=
  ∀ {α : Type} {n : Nat} {p p' : Parser α} {Q : α → α → Prop}, P.Agree n p p' Q →
    P.Agree n p (around α p') Q

/-- Nothing around the rules makes no difference to any pairing. -/
theorem absorbs_none (P : Pairing) : P.Absorbs .none := id

/-- The parsers agree as far as both fuels go: a parser takes five steps of fuel for each token
ahead, less those that lie behind it on the way down from a block to an operand. -/
structure AgreeWithin (P : Pairing) (fuel fuel' : Nat) (k k' : Parsers) : Prop where
  unary {n : Nat} (h : 5 * n ≤ fuel + 4) (h' : 5 * n ≤ fuel' + 4) :
    P.Agree n k.unary k'.unary P.Exprs
  assignment {n : Nat} (h : 5 * n ≤ fuel + 3) (h' : 5 * n ≤ fuel' + 3) :
    P.Agree n k.assignment k'.assignment P.Exprs
  statement {n : Nat} (h : 5 * n ≤ fuel + 2) (h' : 5 * n ≤ fuel' + 2) :
    P.Agree n k.statement k'.statement P.Stmts
  declaration {n : Nat} (h : 5 * n ≤ fuel + 1) (h' : 5 * n ≤ fuel' + 1) :
    P.Agree n k.declaration k'.declaration (Option.Rel P.Stmts)
  block {n : Nat} (h : 5 * n ≤ fuel) (h' : 5 * n ≤ fuel') :
    P.Agree n k.block k'.block P.StmtLists
  methods {n : Nat} (h : 5 * n ≤ fuel) (h' : 5 * n ≤ fuel') :
    P.Agree n k.methods k'.methods P.RoutineLists

section Tied

variable {P : Pairing} {around : Wrapper} {n : Nat}

/-- Without a token ahead of the end there is nothing to agree on, and no fuel is needed. -/
theorem Agree.nothing {α : Type} {p p' : Parser α} {Q : α → α → Prop} (hn : n = 0) :
    P.Agree n p p' Q := fun _ _ _ h => absurd (hn ▸ h) (Nat.not_lt_zero _)

/-- Without fuel there is nothing to agree on. -/
theorem AgreeWithin.of_no_fuel {fuel fuel' : Nat} {k k' : Parsers} (h : fuel = 0 ∨ fuel' = 0) :
    P.AgreeWithin fuel fuel' k k' where
  unary _ _ := .nothing (by omega)
  assignment _ _ := .nothing (by omega)
  statement _ _ := .nothing (by omega)
  declaration _ _ := .nothing (by omega)
  block _ _ := .nothing (by omega)
  methods _ _ := .nothing (by omega)

/-- If the parsers agree as far as their fuels go, those one step up agree as far as one more step
of fuel goes. -/
theorem AgreeWithin.next {fuel fuel' : Nat} {k k' : Parsers} (hP : P.Recovers)
    (ha : P.Absorbs around) (h : P.AgreeWithin fuel fuel' k k')
    (hd : ∀ s : State, s.atEnd = false → ConsumesFrom s k.declaration)
    (hm : Consumes (routineRule .method k.block)) :
    P.AgreeWithin (fuel + 1) (fuel' + 1) (k.next .none) (k'.next around) where
  unary _ _ := ha (unaryRule_agree (nested_agree (h.unary (by omega) (by omega)))
    (nested_agree (h.assignment (by omega) (by omega))))
  assignment _ _ := ha (assignmentRule_agree (h.unary (by omega) (by omega))
    (h.assignment (by omega) (by omega)))
  statement _ _ := nested_agree <| ha <|
    statementRule_agree (nested_agree (h.assignment (by omega) (by omega)))
      (h.statement (by omega) (by omega)) (h.block (by omega) (by omega))
  declaration _ _ := ha <| recovering_agree hP <|
    declarationRule_agree (nested_agree (h.assignment (by omega) (by omega)))
      (h.statement (by omega) (by omega)) (routineRule_agree (h.block (by omega) (by omega)))
      (h.methods (by omega) (by omega))
  block _ _ := ha <| agree_of_bodyOver (.expect rfl fun _ _ _ => .pure .nil) <|
    (h.declaration (by omega) (by omega)).consuming hd fun _ _ hf =>
      (h.block (by omega) (by omega)).bind fun _ _ hm => .pure (toList_append_alike hf hm)
  methods _ _ := ha <| agree_of_bodyOver (.pure .nil) <|
    (routineRule_agree (h.block (by omega) (by omega))).consuming
      (fun s _ => hm s) fun _ _ hf =>
        (h.methods (by omega) (by omega)).bind fun _ _ hm => .pure (.cons hf hm)

/-- Before the end of the input a declaration reads a token. -/
theorem declaration_consumesFrom (fuel : Nat) {s : State} (hs : s.atEnd = false) :
    ConsumesFrom s (declaration fuel) := by
  cases fuel with
  | zero => exact fail_consumes s
  | succ fuel =>
    intro a s' h
    obtain ⟨a', s'', h', hlt⟩ := declaration_consumes fuel hs
    cases h.symm.trans h'
    exact hlt

/-- The tied parsers agree with those over any others at the bottom, since none of them gets
there. -/
theorem atop_agree (hP : P.Recovers) (ha : P.Absorbs around) (bottom : Parsers) :
    ∀ fuel fuel', P.AgreeWithin fuel fuel' (.tied .none fuel) (.atop around bottom fuel')
  | 0, _ => .of_no_fuel (.inl rfl)
  | _ + 1, 0 => .of_no_fuel (.inr rfl)
  | fuel + 1, fuel' + 1 => by
    refine (atop_agree hP ha bottom fuel fuel').next hP ha ?_ ?_
    · rw [Parsers.tied_none]
      exact fun s => declaration_consumesFrom fuel
    · rw [Parsers.tied_none]
      exact method_consumes fuel

/-- **The tied parsers agree**, with fuels of their own and whatever the pairing absorbs around the
rules of one side. -/
theorem tied_agree (hP : P.Recovers) (ha : P.Absorbs around) (fuel fuel' : Nat) :
    P.AgreeWithin fuel fuel' (.tied .none fuel) (.tied around fuel') := by
  rw [Parsers.tied_eq_atop around fuel']
  exact atop_agree hP ha _ fuel fuel'

/-- At the end of the input no declarations are read, whatever reads them. -/
theorem upTo_over {k : Nat → Parsers} {limit : Nat} {s : State} (h : s.atEnd = true) :
    Parsers.upTo k limit s = .ok [] s := by
  cases limit with
  | zero => rfl
  | succ limit =>
    unfold Parsers.upTo
    rw [atEnd_bind, h]
    rfl

/-- At the end of the input no declarations are read. -/
theorem declarations_over {limit : Nat} {s : State} (h : s.atEnd = true) :
    Parsers.declarations around limit s = .ok [] s :=
  Parsers.declarations_eq_upTo around limit ▸ upTo_over h

/-- Loops over declarations agree if the declarations do, however many tokens are left. -/
theorem upTo_agree {k : Nat → Parsers} {limit limit' : Nat}
    (hk : ∀ j m m', j ≤ n → j ≤ m + 1 → j ≤ m' + 1 →
      P.Agree j (Parsers.tied .none (fuelFor m)).declaration (k m').declaration
        (Option.Rel P.Stmts))
    (hl : n ≤ limit + 1) (hl' : n ≤ limit' + 1) :
    P.Agree n (Parsers.declarations .none limit) (Parsers.upTo k limit') P.StmtLists := by
  induction limit generalizing n limit' with
  | zero =>
    exact .of_over (fun _ => declarations_over) (fun _ => upTo_over) .nil
      fun h => absurd h (Nat.not_lt_of_le hl)
  | succ limit ih =>
    refine .of_over (fun _ => declarations_over) (fun _ => upTo_over) .nil fun hn => ?_
    obtain ⟨limit', rfl⟩ : ∃ k, limit' = k + 1 := ⟨limit' - 1, by omega⟩
    refine agree_of_atEnd (.pure .nil) fun s s' hs hn hend => ?_
    have tokens := s.ahead_le
    have tokens' := ahead_eq hs ▸ s'.ahead_le
    have first := hk (s.ahead + 1) s.rest.length s'.rest.length hn (by omega) (by omega)
    refine first.consuming ?_ (fun f f' hf => ?_) s s' hs (Nat.lt_succ_self _) hend
    · rw [Parsers.tied_none]
      exact fun s => declaration_consumesFrom _
    · have more : P.Agree s.ahead (Parsers.declarations .none limit) (Parsers.upTo k limit')
          P.StmtLists :=
        ih (fun j m m' hj => hk j m m' (Nat.le_trans hj (Nat.le_of_lt hn))) (by omega) (by omega)
      exact more.bind fun _ _ hm => .pure (toList_append_alike hf hm)

/-- Declarations agree whatever is put around the rules, if the limits are enough. -/
theorem declarations_agree (hP : P.Recovers) (ha : P.Absorbs around) {limit limit' : Nat}
    (hl : n ≤ limit + 1) (hl' : n ≤ limit' + 1) :
    P.Agree n (Parsers.declarations .none limit) (Parsers.declarations around limit')
      P.StmtLists := by
  rw [Parsers.declarations_eq_upTo around]
  refine upTo_agree (fun j m m' _ hm hm' => ?_) hl hl'
  exact (tied_agree hP ha (fuelFor m) (fuelFor m')).declaration (by rw [fuelFor]; omega)
    (by rw [fuelFor]; omega)

/-- **Whole programs agree**: both sides return, in paired states and with trees alike, if each
may read as many declarations as there are tokens ahead. -/
theorem declarations_paired (hP : P.Recovers) (ha : P.Absorbs around) {s s' : State}
    (hs : P.state s s') {limit limit' : Nat} (hl : s.ahead ≤ limit) (hl' : s.ahead ≤ limit') :
    ∃ ss ss' s₁ s₁', Grammar.declarations limit s = .ok ss s₁ ∧
      Parsers.declarations around limit' s' = .ok ss' s₁' ∧ P.state s₁ s₁' ∧ s.Reaches s₁ ∧
      P.StmtLists ss ss' := by
  have h := declarations_agree hP ha (Nat.succ_le_succ hl) (Nat.succ_le_succ hl') s s' hs
    (Nat.lt_succ_self _)
  rw [Parsers.declarations_none] at h
  obtain ⟨ss, s₁, h₁⟩ := declarations_returns limit s
  rw [h₁] at h ⊢
  revert h
  generalize Parsers.declarations around limit' s' = y
  intro h
  cases h with
  | ok hs hr hq => exact ⟨ss, _, s₁, _, rfl, rfl, hs, hr, hq⟩

/-- Expressions that stand alone agree if assignments do. -/
theorem sole_agree {k k' : Parsers} (h : P.Agree n k.assignment k'.assignment P.Exprs) :
    P.Agree n k.sole k'.sole P.Exprs :=
  (nested_agree h).bind fun _ _ he => agree_of_atEnd (.pure he) fun s s' hs hn _ =>
    Agree.fail s s' hs hn

/-- **Single expressions agree** up to the end of the input. -/
theorem soleExpression_agree (hP : P.Recovers) (n : Nat) :
    P.Agree n soleExpression soleExpression P.Exprs := by
  rw [Parsers.soleExpression_eq]
  refine .unread fun k m m' _ hm hm' => sole_agree ?_
  exact (tied_agree hP (absorbs_none P) (fuelFor m) (fuelFor m')).assignment
    (by rw [fuelFor]; omega) (by rw [fuelFor]; omega)

end Tied

end Pairing

end Grammar
end Lox
