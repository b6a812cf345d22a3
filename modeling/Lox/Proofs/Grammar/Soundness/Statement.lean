/-
# What the parsers accept is derived: statements

Statements and declarations go the way of expressions (`Sound`). A statement comes with one thing
more (`SoundStatement`): where it could have taken an `else`, none follows it. That is what makes
the `else` behind an inner `if` belong to no outer one.
-/

import Lox.Proofs.Grammar.Soundness.Expression

namespace Lox
namespace Grammar

open Derives

/-- A statement parser that is sound and leaves no `else` that its statement could have taken; the
statement is `extra` levels deeper than the state it was read from. -/
def SoundStatement (p : Parser Stmt) (extra : Nat) : Prop :=
  ∀ ⦃s : State⦄ ⦃a : Stmt⦄ ⦃s' : State⦄, p s = .ok a s' → s'.errors.length = s.errors.length →
    ∃ ts o, s.rest = ts ++ s'.rest ∧
      Statement true maxArity (maxNesting - s.depth + extra) o ts a.erase ∧
      (o = true → s'.next.kind ≠ .keyword .else_)

section Rules

variable {expression : Parser Expr} {statement : Parser Stmt} {block : Parser (List Stmt)}
  {methods : Parser (List FunDecl)}

/-- The declarations of a block and its closing brace. -/
abbrev BlockEnd (d : Nat) (ts : List Token) (ss : List Stmt) : Prop :=
  ∃ ts' rb, ts = ts' ++ [rb] ∧ Mark .rightBrace rb ∧
    Declarations true maxArity d ts' (ss.map Stmt.erase)

/-- The parser of optional expressions is sound. -/
theorem optionalBefore_sound {kind : Kind}
    (he : Sound expression (UpToNumbers (Expression maxArity))) :
    Sound (optionalBefore kind expression) fun d ts value =>
      Optional (Expression maxArity d) ts (value.map Expr.erase) := by
  intro s value s' h hq
  unfold optionalBefore at h
  rw [sees_bind] at h
  cases hk : s.next.kind.same kind with
  | true =>
    simp only [hk, if_true] at h
    obtain ⟨rfl, rfl⟩ := pure_eq_ok_iff.1 h
    exact ⟨[], rfl, .none⟩
  | false =>
    simp only [hk, Bool.false_eq_true, if_false] at h
    obtain ⟨e, s₁, h₁, h⟩ := bind_eq_ok_iff.1 h
    obtain ⟨rfl, rfl⟩ := pure_eq_ok_iff.1 h
    obtain ⟨ts, hts, hexpr⟩ := he h₁ hq
    exact ⟨ts, hts, .some hexpr⟩

/-- What is read behind `var` is the declaration of a variable. -/
theorem varRule_sound (he : Sound expression (UpToNumbers (Expression maxArity))) :
    Sound (varRule expression) fun d ts s =>
      ∀ {kw}, Word .var_ kw → VarDecl maxArity d (kw :: ts) s.erase := by
  intro s a s' h hq
  obtain ⟨name, s₁, h₁, h⟩ := bind_eq_ok_iff.1 h
  obtain ⟨rest, hr, rfl, hname⟩ := expect_ok rfl h₁
  obtain ⟨found, s₂, h₂, h⟩ := bind_eq_ok_iff.1 h
  cases found with
  | none =>
    obtain ⟨rfl, -⟩ := acceptAny_none h₂
    obtain ⟨init, s₃, h₃, h⟩ := bind_eq_ok_iff.1 h
    obtain ⟨rfl, rfl⟩ := pure_eq_ok_iff.1 h₃
    obtain ⟨semi, s₄, h₄, h⟩ := bind_eq_ok_iff.1 h
    obtain ⟨rfl, rfl⟩ := pure_eq_ok_iff.1 h
    obtain ⟨rest', hr', rfl, hsemi⟩ := expect_ok rfl h₄
    simp only at hr'
    refine ⟨[name, semi], by rw [hr, hr']; rfl, fun hkw => ?_⟩
    simp only [Stmt.erase]
    exact .plain hkw hname hsemi
  | some eq =>
    obtain ⟨rest₂, hr₂, rfl, heq⟩ := accept_some rfl h₂
    obtain ⟨e, s₃, h₃, h⟩ := bind_eq_ok_iff.1 h
    obtain ⟨init, _, hinit, h⟩ := bind_eq_ok_iff.1 h
    obtain ⟨rfl, rfl⟩ := pure_eq_ok_iff.1 hinit
    obtain ⟨semi, s₄, h₄, h⟩ := bind_eq_ok_iff.1 h
    obtain ⟨rfl, rfl⟩ := pure_eq_ok_iff.1 h
    obtain ⟨rest₃, hr₃, rfl, hsemi⟩ := expect_ok rfl h₄
    obtain ⟨ts, hts, hexpr⟩ := he h₃ hq
    simp only at hr₂ hts
    refine ⟨name :: eq :: (ts ++ [semi]), ?_, fun hkw => ?_⟩
    · rw [hr, hr₂, hts, hr₃]
      simp
    · simp only [Stmt.erase]
      exact .initialized hkw hname heq hexpr hsemi

/-- The rule of expression statements is sound. -/
theorem expressionRule_sound (he : Sound expression (UpToNumbers (Expression maxArity))) :
    Sound (expressionRule expression) fun d ts s => ExprStmt maxArity d ts s.erase := by
  intro s a s' h hq
  obtain ⟨e, s₁, h₁, h⟩ := bind_eq_ok_iff.1 h
  obtain ⟨semi, s₂, h₂, h⟩ := bind_eq_ok_iff.1 h
  obtain ⟨rfl, rfl⟩ := pure_eq_ok_iff.1 h
  obtain ⟨rest, hr, rfl, hsemi⟩ := expect_ok rfl h₂
  obtain ⟨ts, hts, hexpr⟩ := he h₁ hq
  refine ⟨ts ++ [semi], by rw [hts, hr]; simp, ?_⟩
  simp only [Stmt.erase]
  exact .intro hexpr hsemi

/-- The first clause of a `for` loop is derived. -/
theorem forInit_sound (he : Sound expression (UpToNumbers (Expression maxArity))) :
    Sound (forInit expression) fun d ts init =>
      ForInit maxArity d ts (init.toList.map Stmt.erase) := by
  intro s init s' h hq
  obtain ⟨found, s₁, h₁, h⟩ := bind_eq_ok_iff.1 h
  cases found with
  | none =>
    obtain ⟨rfl, -⟩ := acceptAny_none h₁
    obtain ⟨a, s₂, h₂, h⟩ := bind_eq_ok_iff.1 h
    obtain ⟨rfl, rfl⟩ := pure_eq_ok_iff.1 h
    obtain ⟨ts, hts, hstmt⟩ := expressionRule_sound he h₂ hq
    exact ⟨ts, hts, .expression hstmt⟩
  | some mark =>
    obtain ⟨rest, hr, rfl, hmark⟩ := acceptAny_some h₁
    rw [Kind.any_same_iff_mem (by decide)] at hmark
    by_cases hs : mark.kind.same (.punct .semicolon)
    · simp only [hs, if_true] at h
      obtain ⟨rfl, rfl⟩ := pure_eq_ok_iff.1 h
      exact ⟨[mark], hr, .none ((Kind.same_iff_eq rfl).1 hs)⟩
    · simp only [hs] at h
      obtain ⟨a, s₂, h₂, h⟩ := bind_eq_ok_iff.1 h
      obtain ⟨rfl, rfl⟩ := pure_eq_ok_iff.1 h
      have hvar : Word .var_ mark := by
        rcases List.mem_cons.1 hmark with hk | hk
        · exact absurd ((Kind.same_iff_eq rfl).2 hk) hs
        · exact List.mem_singleton.1 hk
      obtain ⟨ts, hts, hdecl⟩ := varRule_sound he h₂ hq
      simp only at hts
      exact ⟨mark :: ts, by rw [hr, hts]; rfl, .var (hdecl hvar)⟩

/-- What is read behind `while` is a loop, and no `else` is left that it could take. -/
theorem whileRule_sound (hae : Advances expression) (has : Advances statement)
    (he : Sound expression (UpToNumbers (Expression maxArity))) (hs : SoundStatement statement 0)
    {s s' : State} {a : Stmt} (h : whileRule expression statement s = .ok a s')
    (hq : s'.errors.length = s.errors.length) {kw : Token} (hkw : Word .while_ kw) :
    ∃ ts o, s.rest = ts ++ s'.rest ∧
      Statement true maxArity (maxNesting - s.depth + 1) o (kw :: ts) a.erase ∧
      (o = true → s'.next.kind ≠ .keyword .else_) := by
  obtain ⟨lp, s₁, h₁, h⟩ := bind_eq_ok_iff.1 h
  obtain ⟨rest₁, hr₁, rfl, hlp⟩ := expect_ok rfl h₁
  obtain ⟨cond, s₂, h₂, h⟩ := bind_eq_ok_iff.1 h
  obtain ⟨rp, s₃, h₃, h⟩ := bind_eq_ok_iff.1 h
  obtain ⟨rest₃, hr₃, rfl, hrp⟩ := expect_ok rfl h₃
  obtain ⟨body, s₄, h₄, h⟩ := bind_eq_ok_iff.1 h
  obtain ⟨rfl, rfl⟩ := pure_eq_ok_iff.1 h
  have l₂ := hae.ok h₂
  have e₂ := l₂.errors.length_le
  have e₄ := (has.ok h₄).errors.length_le
  simp only at e₂ e₄
  obtain ⟨tc, htc, hcond⟩ := he h₂ (by simp only; omega)
  obtain ⟨tb, o, htb, hbody, hlast⟩ := hs h₄ (by simp only; omega)
  simp only [l₂.depth] at htc htb hbody
  refine ⟨lp :: (tc ++ rp :: tb), o, ?_, ?_, hlast⟩
  · rw [hr₁, htc, hr₃, htb]
    simp
  · rw [Stmt.erase]
    exact .whileLoop hkw hlp hcond hrp hbody

/-- What is read behind `if` is a branch, and no `else` is left that it could take. -/
theorem ifRule_sound (hae : Advances expression) (has : Advances statement)
    (he : Sound expression (UpToNumbers (Expression maxArity))) (hs : SoundStatement statement 0)
    {s s' : State} {a : Stmt} (h : ifRule expression statement s = .ok a s')
    (hq : s'.errors.length = s.errors.length) {kw : Token} (hkw : Word .if_ kw) :
    ∃ ts o, s.rest = ts ++ s'.rest ∧
      Statement true maxArity (maxNesting - s.depth + 1) o (kw :: ts) a.erase ∧
      (o = true → s'.next.kind ≠ .keyword .else_) := by
  obtain ⟨lp, s₁, h₁, h⟩ := bind_eq_ok_iff.1 h
  obtain ⟨rest₁, hr₁, rfl, hlp⟩ := expect_ok rfl h₁
  obtain ⟨cond, s₂, h₂, h⟩ := bind_eq_ok_iff.1 h
  obtain ⟨rp, s₃, h₃, h⟩ := bind_eq_ok_iff.1 h
  obtain ⟨rest₃, hr₃, rfl, hrp⟩ := expect_ok rfl h₃
  obtain ⟨thenB, s₄, h₄, h⟩ := bind_eq_ok_iff.1 h
  obtain ⟨found, s₅, h₅, h⟩ := bind_eq_ok_iff.1 h
  have l₂ := hae.ok h₂
  have l₄ := has.ok h₄
  have e₂ := l₂.errors.length_le
  have e₄ := l₄.errors.length_le
  simp only at e₂ e₄
  cases found with
  | none =>
    obtain ⟨rfl, hnone⟩ := acceptAny_none h₅
    obtain ⟨rfl, rfl⟩ := pure_eq_ok_iff.1 h
    obtain ⟨tc, htc, hcond⟩ := he h₂ (by simp only; omega)
    obtain ⟨tt, o, htt, hthen, -⟩ := hs h₄ (by simp only; omega)
    simp only [l₂.depth] at htc htt hthen
    refine ⟨lp :: (tc ++ rp :: tt), true, ?_, ?_, fun _ helse => ?_⟩
    · rw [hr₁, htc, hr₃, htt]
      simp
    · rw [Stmt.erase]
      exact .ifThen hkw hlp hcond hrp hthen
    · have hr := rest_eq_of_next (s := s₄) rfl (by simp [helse])
      simpa [helse, Kind.same] using hnone _ _ hr
  | some els =>
    obtain ⟨rest₅, hr₅, rfl, hels⟩ := accept_some rfl h₅
    obtain ⟨elseB, s₆, h₆, h⟩ := bind_eq_ok_iff.1 h
    obtain ⟨rfl, rfl⟩ := pure_eq_ok_iff.1 h
    have e₆ := (has.ok h₆).errors.length_le
    simp only at e₆
    obtain ⟨tc, htc, hcond⟩ := he h₂ (by simp only; omega)
    obtain ⟨tt, o, htt, hthen, hopen⟩ := hs h₄ (by simp only; omega)
    obtain ⟨te, o', hte, helse, hlast⟩ := hs h₆ (by simp only; omega)
    simp only [l₄.depth, l₂.depth] at htc htt hthen hte helse
    -- The inner statement saw the `else` first, so it is none that could take it.
    have hnot : o = false := by
      cases o with
      | false => rfl
      | true =>
        refine absurd ?_ (hopen rfl)
        rw [State.next, hr₅]
        exact hels
    refine ⟨lp :: (tc ++ rp :: (tt ++ els :: te)), o', ?_, ?_, hlast⟩
    · rw [hr₁, htc, hr₃, htt, hr₅, hte]
      simp
    · rw [Stmt.erase]
      exact .ifElse hkw hlp hcond hrp hthen (fun _ => hnot) hels helse

/-- What is read behind `for` is a loop, and no `else` is left that it could take. -/
theorem forRule_sound (hae : Advances expression) (has : Advances statement)
    (he : Sound expression (UpToNumbers (Expression maxArity))) (hs : SoundStatement statement 0)
    {s s' : State} {a : Stmt} (h : forRule expression statement s = .ok a s')
    (hq : s'.errors.length = s.errors.length) {kw : Token} (hkw : Word .for_ kw) :
    ∃ ts o, s.rest = ts ++ s'.rest ∧
      Statement true maxArity (maxNesting - s.depth + 1) o (kw :: ts) a.erase ∧
      (o = true → s'.next.kind ≠ .keyword .else_) := by
  obtain ⟨lp, s₁, h₁, h⟩ := bind_eq_ok_iff.1 h
  obtain ⟨rest₁, hr₁, rfl, hlp⟩ := expect_ok rfl h₁
  obtain ⟨init, s₂, h₂, h⟩ := bind_eq_ok_iff.1 h
  obtain ⟨cond, s₃, h₃, h⟩ := bind_eq_ok_iff.1 h
  obtain ⟨semi, s₄, h₄, h⟩ := bind_eq_ok_iff.1 h
  obtain ⟨rest₄, hr₄, rfl, hsemi⟩ := expect_ok rfl h₄
  obtain ⟨step, s₅, h₅, h⟩ := bind_eq_ok_iff.1 h
  obtain ⟨rp, s₆, h₆, h⟩ := bind_eq_ok_iff.1 h
  obtain ⟨rest₆, hr₆, rfl, hrp⟩ := expect_ok rfl h₆
  obtain ⟨body, s₇, h₇, h⟩ := bind_eq_ok_iff.1 h
  obtain ⟨rfl, rfl⟩ := pure_eq_ok_iff.1 h
  have l₂ := (forInit_advances hae).ok h₂
  have l₃ := (optionalBefore_advances hae).ok h₃
  have l₅ := (optionalBefore_advances hae).ok h₅
  have e₂ := l₂.errors.length_le
  have e₃ := l₃.errors.length_le
  have e₅ := l₅.errors.length_le
  have e₇ := (has.ok h₇).errors.length_le
  simp only at e₂ e₅ e₇
  obtain ⟨ti, hti, hinit⟩ := forInit_sound he h₂ (by simp only; omega)
  obtain ⟨tc, htc, hcond⟩ := optionalBefore_sound he h₃ (by omega)
  obtain ⟨ts, hts, hstep⟩ := optionalBefore_sound he h₅ (by simp only; omega)
  obtain ⟨tb, o, htb, hbody, hlast⟩ := hs h₇ (by simp only; omega)
  simp only [l₅.depth, l₃.depth, l₂.depth] at hti hcond hts hstep htb hbody
  refine ⟨lp :: (ti ++ (tc ++ semi :: (ts ++ rp :: tb))), o, ?_, ?_, hlast⟩
  · rw [hr₁, hti, htc, hr₄, hts, hr₆, htb]
    simp
  · rw [erase_forLoop]
    exact .forLoop hkw hlp hinit hcond hsemi hstep hrp hbody

/-- The rule of statements is sound, one level deeper than what its statements are made of. -/
theorem statementRule_sound (hae : Advances expression) (has : Advances statement)
    (he : Sound expression (UpToNumbers (Expression maxArity))) (hs : SoundStatement statement 0)
    (hb : Sound block BlockEnd) : SoundStatement (statementRule expression statement block) 1 := by
  intro s a s' h hq
  unfold statementRule at h
  rw [peek_bind] at h
  generalize hk : s.next.kind = kind at h
  have front : kind ≠ .endOfInput → s.rest = s.next :: s.rest.tail :=
    fun hne => rest_eq_of_next rfl (hk ▸ hne)
  split at h
  case h_7 =>
    obtain ⟨ts, hts, hstmt⟩ := expressionRule_sound he h hq
    exact ⟨ts, false, hts, .expression hstmt, by simp⟩
  all_goals
    have front := front (by simp)
    rw [skip_bind] at h
  case h_1 =>
    obtain ⟨ts, o, hts, hstmt, hlast⟩ := forRule_sound hae has he hs h hq hk
    exact ⟨s.next :: ts, o, front.trans (congrArg (s.next :: ·) hts), hstmt, hlast⟩
  case h_2 =>
    obtain ⟨ts, o, hts, hstmt, hlast⟩ := ifRule_sound hae has he hs h hq hk
    exact ⟨s.next :: ts, o, front.trans (congrArg (s.next :: ·) hts), hstmt, hlast⟩
  case h_3 =>
    obtain ⟨ts, o, hts, hstmt, hlast⟩ := whileRule_sound hae has he hs h hq hk
    exact ⟨s.next :: ts, o, front.trans (congrArg (s.next :: ·) hts), hstmt, hlast⟩
  case h_4 =>
    obtain ⟨value, s₁, h₁, h⟩ := bind_eq_ok_iff.1 h
    obtain ⟨semi, s₂, h₂, h⟩ := bind_eq_ok_iff.1 h
    obtain ⟨rfl, rfl⟩ := pure_eq_ok_iff.1 h
    obtain ⟨rest, hr, rfl, hsemi⟩ := expect_ok rfl h₂
    obtain ⟨ts, hts, hvalue⟩ := optionalBefore_sound he h₁ hq
    simp only at hts
    refine ⟨s.next :: (ts ++ [semi]), false, ?_, ?_, by simp⟩
    · rw [front, hts, hr]
      simp
    · rw [Stmt.erase]
      exact .ret hk hvalue hsemi
  case h_5 =>
    obtain ⟨ss, s₁, h₁, h⟩ := bind_eq_ok_iff.1 h
    obtain ⟨rfl, rfl⟩ := pure_eq_ok_iff.1 h
    obtain ⟨_, hts, ts, rb, rfl, hrb, hdecls⟩ := hb h₁ hq
    refine ⟨s.next :: (ts ++ [rb]), false, front.trans (congrArg (s.next :: ·) hts), ?_, by simp⟩
    rw [Stmt.erase, Stmt.eraseList_eq_map]
    exact .block hk hdecls hrb
  case h_6 =>
    obtain ⟨e, s₁, h₁, h⟩ := bind_eq_ok_iff.1 h
    obtain ⟨semi, s₂, h₂, h⟩ := bind_eq_ok_iff.1 h
    obtain ⟨rfl, rfl⟩ := pure_eq_ok_iff.1 h
    obtain ⟨rest, hr, rfl, hsemi⟩ := expect_ok rfl h₂
    obtain ⟨ts, hts, hexpr⟩ := he h₁ hq
    simp only at hts
    refine ⟨s.next :: (ts ++ [semi]), false, ?_, ?_, by simp⟩
    · rw [front, hts, hr]
      simp
    · rw [Stmt.erase]
      exact .print hk hexpr hsemi

/-- The rule of functions and methods is sound. -/
theorem routineRule_sound {r : Routine} (hab : Advances block) (hb : Sound block BlockEnd) :
    Sound (routineRule r block) fun d ts f => Function true maxArity d ts f.erase := by
  intro s f s' h hq
  obtain ⟨name, s₁, h₁, h⟩ := bind_eq_ok_iff.1 h
  obtain ⟨rest₁, hr₁, rfl, hname⟩ := expect_ok rfl h₁
  obtain ⟨lp, s₂, h₂, h⟩ := bind_eq_ok_iff.1 h
  obtain ⟨rest₂, hr₂, rfl, hlp⟩ := expect_ok rfl h₂
  obtain ⟨⟨params, rp⟩, s₃, h₃, h⟩ := bind_eq_ok_iff.1 h
  obtain ⟨lb, s₄, h₄, h⟩ := bind_eq_ok_iff.1 h
  obtain ⟨rest₄, hr₄, rfl, hlb⟩ := expect_ok rfl h₄
  obtain ⟨body, s₅, h₅, h⟩ := bind_eq_ok_iff.1 h
  obtain ⟨rfl, rfl⟩ := pure_eq_ok_iff.1 h
  have l₃ := (parenthesised_advances expect_advances).ok h₃
  have e₃ := l₃.errors.length_le
  have e₅ := (hab.ok h₅).errors.length_le
  simp only at e₃ e₅
  have parameter : Sound (expect .identifier .parameterName) fun _ ts t => ts = [t] ∧ Name t := by
    intro s t s' h _
    obtain ⟨rest, hr, rfl, ht⟩ := expect_ok rfl h
    exact ⟨[t], hr, rfl, ht⟩
  obtain ⟨_, htp, tp, rfl, hparams, hlen, hrp⟩ :=
    parenthesised_sound (fun _ => ParameterList) (fun _ => Parameters) expect_advances parameter
      (fun h => by obtain ⟨rfl, h⟩ := h; exact .one h)
      (fun h hc hl => by obtain ⟨rfl, h⟩ := h; exact .more h hc hl) .none .some h₃
      (by simp only; omega)
  obtain ⟨_, hts, ts, rb, rfl, hrb, hdecls⟩ := hb h₅ (by simp only; omega)
  simp only [l₃.depth] at hr₂ htp hts hdecls
  refine ⟨name :: lp :: (tp ++ rp :: lb :: (ts ++ [rb])), ?_, ?_⟩
  · rw [hr₁, hr₂, htp, hr₄, hts]
    simp
  · simp only [FunDecl.erase, Stmt.eraseList_eq_map]
    exact .intro hname hlp hparams hlen hrp hlb hdecls hrb

/-- The rule of declarations is sound if the rules it refers to are. -/
theorem declarationRule_sound {function : Parser FunDecl}
    (he : Sound expression (UpToNumbers (Expression maxArity))) (hs : SoundStatement statement 0)
    (hf : Sound function fun d ts f => Function true maxArity d ts f.erase)
    (hm : Sound methods fun d ts fs => Methods true maxArity d ts (fs.map FunDecl.erase)) :
    Sound (declarationRule expression statement function methods) fun d ts s =>
      Declaration true maxArity d ts s.erase := by
  intro s a s' h hq
  unfold declarationRule at h
  rw [peek_bind] at h
  generalize hk : s.next.kind = kind at h
  have front : kind ≠ .endOfInput → s.rest = s.next :: s.rest.tail :=
    fun hne => rest_eq_of_next rfl (hk ▸ hne)
  split at h
  case h_4 =>
    obtain ⟨ts, o, hts, hstmt, -⟩ := hs h hq
    exact ⟨ts, hts, .statement hstmt⟩
  all_goals
    have front := front (by simp)
    rw [skip_bind] at h
  case h_1 =>
    obtain ⟨name, s₁, h₁, h⟩ := bind_eq_ok_iff.1 h
    obtain ⟨rest₁, hr₁, rfl, hname⟩ := expect_ok rfl h₁
    obtain ⟨lb, s₂, h₂, h⟩ := bind_eq_ok_iff.1 h
    obtain ⟨rest₂, hr₂, rfl, hlb⟩ := expect_ok rfl h₂
    obtain ⟨fs, s₃, h₃, h⟩ := bind_eq_ok_iff.1 h
    obtain ⟨rb, s₄, h₄, h⟩ := bind_eq_ok_iff.1 h
    obtain ⟨rfl, rfl⟩ := pure_eq_ok_iff.1 h
    obtain ⟨rest₄, hr₄, rfl, hrb⟩ := expect_ok rfl h₄
    obtain ⟨ts, hts, hmethods⟩ := hm h₃ hq
    simp only at hr₁ hr₂ hts
    refine ⟨s.next :: name :: lb :: (ts ++ [rb]), ?_, ?_⟩
    · rw [front, hr₁, hr₂, hts, hr₄]
      simp
    · simp only [Stmt.erase, FunDecl.eraseList_eq_map]
      exact .classDecl hk hname hlb hmethods hrb
  case h_2 =>
    obtain ⟨f, s₁, h₁, h⟩ := bind_eq_ok_iff.1 h
    obtain ⟨rfl, rfl⟩ := pure_eq_ok_iff.1 h
    obtain ⟨ts, hts, hfun⟩ := hf h₁ hq
    refine ⟨s.next :: ts, front.trans (congrArg (s.next :: ·) hts), ?_⟩
    simp only [Stmt.erase]
    exact .function hk hfun
  case h_3 =>
    obtain ⟨ts, hts, hvar⟩ := varRule_sound he h hq
    exact ⟨s.next :: ts, front.trans (congrArg (s.next :: ·) hts), .var (hvar hk)⟩

/-- What was returned without an error was not given up. -/
theorem recovering_sound {α : Type} {p : Parser α} {rule : Nat → List Token → α → Prop}
    (ha : Advances p) (hp : Sound p rule) :
    Sound (recovering p) fun d ts found => ∃ a, found = some a ∧ rule d ts a := by
  intro s found s' h hq
  unfold recovering at h
  cases h₁ : p s with
  | ok a s₁ =>
    simp only [h₁, EStateM.Result.ok.injEq] at h
    obtain ⟨rfl, rfl⟩ := h
    obtain ⟨ts, hts, hr⟩ := hp h₁ hq
    exact ⟨ts, hts, a, rfl, hr⟩
  | error e s₁ =>
    simp only [h₁, EStateM.Result.ok.injEq] at h
    obtain ⟨rfl, rfl⟩ := h
    have := (ha.error h₁).errors.length_le
    simp at hq
    omega

end Rules

/-- **What the tied parsers accept is derived**, whatever their fuel. -/
theorem statement_declaration_sound : ∀ fuel, SoundStatement (statement fuel) 0 ∧
    (Sound (declaration fuel) fun d ts found =>
      ∃ s, found = some s ∧ Declaration true maxArity d ts s.erase) ∧
    Sound (block fuel) BlockEnd ∧
    Sound (methods fuel) fun d ts fs => Methods true maxArity d ts (fs.map FunDecl.erase)
  | 0 => by
    refine ⟨?_, ?_, ?_, ?_⟩ <;> intro s a s' h <;>
      simp [statement, declaration, block, methods, fail] at h
  | fuel + 1 => by
    obtain ⟨hs, hd, hb, hm⟩ := statement_declaration_sound fuel
    obtain ⟨has, had, hab, ham⟩ := statement_declaration_advances fuel
    have hae := expression_advances fuel
    have he := expression_sound fuel
    refine ⟨fun s a s' h hq => ?_, ?_, fun s a s' h hq => ?_, fun s a s' h hq => ?_⟩
    · obtain ⟨hlt, s₁, h₁, rfl⟩ := nested_ok h
      obtain ⟨ts, o, hts, hstmt, hlast⟩ := statementRule_sound hae has he hs hb h₁ hq
      exact ⟨ts, o, hts, levels_left hlt ▸ hstmt, hlast⟩
    · exact recovering_sound
        (declarationRule_advances hae has (routineRule_advances hab) ham)
        (declarationRule_sound he hs (routineRule_sound hab hb) hm)
    · unfold block at h
      rw [bodyOver_bind] at h
      split at h
      · obtain ⟨rb, s₁, h₁, h⟩ := bind_eq_ok_iff.1 h
        obtain ⟨rfl, rfl⟩ := pure_eq_ok_iff.1 h
        obtain ⟨rest, hr, rfl, hrb⟩ := expect_ok rfl h₁
        exact ⟨[rb], hr, [], rb, rfl, hrb, .nil⟩
      · obtain ⟨found, s₁, h₁, h⟩ := bind_eq_ok_iff.1 h
        obtain ⟨ss, s₂, h₂, h⟩ := bind_eq_ok_iff.1 h
        obtain ⟨rfl, rfl⟩ := pure_eq_ok_iff.1 h
        have l₁ := had.ok h₁
        have e₁ := l₁.errors.length_le
        have e₂ := (hab.ok h₂).errors.length_le
        obtain ⟨ts, hts, a, rfl, hdecl⟩ := hd h₁ (by omega)
        obtain ⟨_, hts', ts', rb, rfl, hrb, hdecls⟩ := hb h₂ (by omega)
        rw [l₁.depth] at hdecls
        refine ⟨ts ++ (ts' ++ [rb]), by rw [hts, hts']; simp, ts ++ ts', rb,
          (List.append_assoc ..).symm, hrb, ?_⟩
        exact .cons hdecl hdecls
    · unfold methods at h
      rw [bodyOver_bind] at h
      split at h
      · obtain ⟨rfl, rfl⟩ := pure_eq_ok_iff.1 h
        exact ⟨[], rfl, .nil⟩
      · obtain ⟨f, s₁, h₁, h⟩ := bind_eq_ok_iff.1 h
        obtain ⟨fs, s₂, h₂, h⟩ := bind_eq_ok_iff.1 h
        obtain ⟨rfl, rfl⟩ := pure_eq_ok_iff.1 h
        have l₁ := (routineRule_advances hab).ok h₁
        have e₁ := l₁.errors.length_le
        have e₂ := (ham.ok h₂).errors.length_le
        obtain ⟨ts, hts, hfun⟩ := routineRule_sound hab hb h₁ (by omega)
        obtain ⟨ts', hts', hfuns⟩ := hm h₂ (by omega)
        rw [l₁.depth] at hfuns
        exact ⟨ts ++ ts', by rw [hts, hts', List.append_assoc], .cons hfun hfuns⟩

end Grammar
end Lox
