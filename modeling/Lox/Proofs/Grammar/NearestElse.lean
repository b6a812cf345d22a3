/-
# Every `else` has a nearest `if`

Giving each `else` to the nearest `if` leaves no program out: whatever the rules derive with some
reading of its `else`s, they derive with that one (`Declarations.nearest`). The step is an `else`
behind a statement that could still take it (`Statement.absorb`): it goes to the innermost `if` at
the end of that statement. Moved inwards an `else` branch may stand deeper than before, so this is
about derivations of any depth.
-/

import Lox.Proofs.Grammar.Rules

namespace Lox
namespace Grammar
namespace Derives

/-! ## Room for more levels -/

section Levels

variable {arity : Nat} {nearest : Bool}

mutual

/-- What is an expression on some levels is one on more of them. -/
theorem Expression.mono : ∀ {d ts e}, Expression arity d ts e → ∀ {d'}, d ≤ d' →
    Expression arity d' ts e
  | _, _, _, .deeper h, _ + 1, hd => .deeper (h.mono (Nat.le_of_succ_le_succ hd))

/-- The same of assignments. -/
theorem Assignment.mono : ∀ {d ts e}, Assignment arity d ts e → ∀ {d'}, d ≤ d' →
    Assignment arity d' ts e
  | _, _, _, .operation h, _, hd => .operation (h.mono hd)
  | _, _, _, .toName hname heq h, _, hd => .toName hname heq (h.mono hd)
  | _, _, _, .toProperty ho hdot hname heq h, _, hd =>
    .toProperty (ho.mono hd) hdot hname heq (h.mono hd)

/-- The same of operations. -/
theorem Operation.mono : ∀ {d tier ts e}, Operation arity d tier ts e → ∀ {d'}, d ≤ d' →
    Operation arity d' tier ts e
  | _, _, _, _, .sign h, _, hd => .sign (h.mono hd)
  | _, _, _, _, .operand ht h, _, hd => .operand ht (h.mono hd)
  | _, _, _, _, .more ht hl hop hr, _, hd => .more ht (hl.mono hd) hop (hr.mono hd)

/-- The same of signs. -/
theorem Unary.mono : ∀ {d ts e}, Unary arity d ts e → ∀ {d'}, d ≤ d' → Unary arity d' ts e
  | _, _, _, .bang hop h, _ + 1, hd => .bang hop (h.mono (Nat.le_of_succ_le_succ hd))
  | _, _, _, .minus hop h, _ + 1, hd => .minus hop (h.mono (Nat.le_of_succ_le_succ hd))
  | _, _, _, .call h, _, hd => .call (h.mono hd)

/-- The same of calls. -/
theorem Call.mono : ∀ {d ts e}, Call arity d ts e → ∀ {d'}, d ≤ d' → Call arity d' ts e
  | _, _, _, .primary h, _, hd => .primary (h.mono hd)
  | _, _, _, .apply h hlp ha hlen hrp, _, hd => .apply (h.mono hd) hlp (ha.mono hd) hlen hrp
  | _, _, _, .property h hdot hname, _, hd => .property (h.mono hd) hdot hname

/-- The same of primary forms. -/
theorem Primary.mono : ∀ {d ts e}, Primary arity d ts e → ∀ {d'}, d ≤ d' → Primary arity d' ts e
  | _, _, _, .number h, _, _ => .number h
  | _, _, _, .string h, _, _ => .string h
  | _, _, _, .true h, _, _ => .true h
  | _, _, _, .false h, _, _ => .false h
  | _, _, _, .nil h, _, _ => .nil h
  | _, _, _, .receiver h, _, _ => .receiver h
  | _, _, _, .name h, _, _ => .name h
  | _, _, _, .group hlp h hrp, _, hd => .group hlp (h.mono hd) hrp

/-- The same of arguments. -/
theorem Arguments.mono : ∀ {d ts es}, Arguments arity d ts es → ∀ {d'}, d ≤ d' →
    Arguments arity d' ts es
  | _, _, _, .none, _, _ => .none
  | _, _, _, .some h, _, hd => .some (h.mono hd)

theorem ArgumentList.mono : ∀ {d ts es}, ArgumentList arity d ts es → ∀ {d'}, d ≤ d' →
    ArgumentList arity d' ts es
  | _, _, _, .one h, _, hd => .one (h.mono hd)
  | _, _, _, .more h hcomma hmore, _, hd => .more (h.mono hd) hcomma (hmore.mono hd)

end

theorem Optional.mono {d d' ts value} (h : Optional (Expression arity d) ts value) (hd : d ≤ d') :
    Optional (Expression arity d') ts value := by
  cases h with
  | none => exact .none
  | some h => exact .some (h.mono hd)

/-- An expression statement may have more levels. -/
theorem ExprStmt.mono {d d' ts s} (h : ExprStmt arity d ts s) (hd : d ≤ d') :
    ExprStmt arity d' ts s := by
  cases h with
  | intro h hsemi => exact .intro (h.mono hd) hsemi

/-- The declaration of a variable may have more levels. -/
theorem VarDecl.mono {d d' ts s} (h : VarDecl arity d ts s) (hd : d ≤ d') :
    VarDecl arity d' ts s := by
  cases h with
  | plain hkw hname hsemi => exact .plain hkw hname hsemi
  | initialized hkw hname heq h hsemi => exact .initialized hkw hname heq (h.mono hd) hsemi

/-- The first clause of a `for` loop may have more levels. -/
theorem ForInit.mono {d d' ts init} (h : ForInit arity d ts init) (hd : d ≤ d') :
    ForInit arity d' ts init := by
  cases h with
  | none hsemi => exact .none hsemi
  | var h => exact .var (h.mono hd)
  | expression h => exact .expression (h.mono hd)

mutual

/-- What is a statement on some levels is one on more of them, and can take an `else` as before. -/
theorem Statement.mono : ∀ {d o ts s}, Statement nearest arity d o ts s → ∀ {d'}, d ≤ d' →
    Statement nearest arity d' o ts s
  | _, _, _, _, .expression h, _ + 1, hd => .expression (h.mono (Nat.le_of_succ_le_succ hd))
  | _, _, _, _, .print hkw h hsemi, _ + 1, hd =>
    .print hkw (h.mono (Nat.le_of_succ_le_succ hd)) hsemi
  | _, _, _, _, .ret hkw h hsemi, _ + 1, hd =>
    .ret hkw (h.mono (Nat.le_of_succ_le_succ hd)) hsemi
  | _, _, _, _, .block hlb h hrb, _ + 1, hd =>
    .block hlb (h.mono (Nat.le_of_succ_le_succ hd)) hrb
  | _, _, _, _, .whileLoop hkw hlp h hrp hs, _ + 1, hd =>
    have hd := Nat.le_of_succ_le_succ hd
    .whileLoop hkw hlp (h.mono hd) hrp (hs.mono hd)
  | _, _, _, _, .ifThen hkw hlp h hrp hs, _ + 1, hd =>
    have hd := Nat.le_of_succ_le_succ hd
    .ifThen hkw hlp (h.mono hd) hrp (hs.mono hd)
  | _, _, _, _, .ifElse hkw hlp h hrp hs ho hels hs', _ + 1, hd =>
    have hd := Nat.le_of_succ_le_succ hd
    .ifElse hkw hlp (h.mono hd) hrp (hs.mono hd) ho hels (hs'.mono hd)
  | _, _, _, _, .forLoop hkw hlp hi hc hsemi hp hrp hs, _ + 1, hd =>
    have hd := Nat.le_of_succ_le_succ hd
    .forLoop hkw hlp (hi.mono hd) (hc.mono hd) hsemi (hp.mono hd) hrp (hs.mono hd)

/-- The same of declarations. -/
theorem Declaration.mono : ∀ {d ts s}, Declaration nearest arity d ts s → ∀ {d'}, d ≤ d' →
    Declaration nearest arity d' ts s
  | _, _, _, .classDecl hkw hname hlb h hrb, _, hd =>
    .classDecl hkw hname hlb (h.mono hd) hrb
  | _, _, _, .function hkw h, _, hd => .function hkw (h.mono hd)
  | _, _, _, .var h, _, hd => .var (h.mono hd)
  | _, _, _, .statement h, _, hd => .statement (h.mono hd)

/-- The same of declarations one after the other. -/
theorem Declarations.mono : ∀ {d ts ss}, Declarations nearest arity d ts ss → ∀ {d'}, d ≤ d' →
    Declarations nearest arity d' ts ss
  | _, _, _, .nil, _, _ => .nil
  | _, _, _, .cons h hmore, _, hd => .cons (h.mono hd) (hmore.mono hd)

/-- The same of functions. -/
theorem Function.mono : ∀ {d ts f}, Function nearest arity d ts f → ∀ {d'}, d ≤ d' →
    Function nearest arity d' ts f
  | _, _, _, .intro hname hlp hp hlen hrp hlb h hrb, _, hd =>
    .intro hname hlp hp hlen hrp hlb (h.mono hd) hrb

/-- The same of methods. -/
theorem Methods.mono : ∀ {d ts fs}, Methods nearest arity d ts fs → ∀ {d'}, d ≤ d' →
    Methods nearest arity d' ts fs
  | _, _, _, .nil, _, _ => .nil
  | _, _, _, .cons h hmore, _, hd => .cons (h.mono hd) (hmore.mono hd)

end

end Levels

/-! ## Moving an `else` inwards -/

section Nearest

variable {arity : Nat} {els : Token} {te : List Token} {elseB : Stmt} {d' : Nat} {o' : Bool}

/-- Some reading of the tokens as a statement gives each `else` to the nearest `if`. -/
def Statement.Nearest (arity : Nat) (ts : List Token) : Prop :=
  ∃ d o s, Statement true arity d o ts s

/-- An `if` whose branch has an `else` behind it: the `else` is its own, unless it went into the
branch. -/
theorem Statement.nearest_if {d o kw lp tc cond rp tt thenB} (hkw : Word .if_ kw)
    (hlp : Mark .leftParen lp) (h : Expression arity d tc cond) (hrp : Mark .rightParen rp)
    (hs : Statement true arity d o tt thenB) (hels : Word .else_ els)
    (he : Statement true arity d' o' te elseB)
    (inside : o = true → Statement.Nearest arity (tt ++ els :: te)) :
    Statement.Nearest arity (kw :: lp :: (tc ++ rp :: (tt ++ els :: te))) := by
  cases o with
  | false =>
    exact ⟨_, _, _, .ifElse hkw hlp (h.mono (Nat.le_max_left d d')) hrp
      (hs.mono (Nat.le_max_left d d')) (fun _ => rfl) hels (he.mono (Nat.le_max_right d d'))⟩
  | true =>
    obtain ⟨d₁, o₁, s₁, h₁⟩ := inside rfl
    exact ⟨_, _, _, .ifThen hkw hlp (h.mono (Nat.le_max_left d d₁)) hrp
      (h₁.mono (Nat.le_max_right d d₁))⟩

/-- An `else` behind a statement that could still take it goes to an `if` inside that statement. -/
theorem Statement.absorb (hels : Word .else_ els) (he : Statement true arity d' o' te elseB) :
    ∀ {d o tt s}, Statement true arity d o tt s → o = true →
      Statement.Nearest arity (tt ++ els :: te)
  | _, _, _, _, .expression _, ho => by cases ho
  | _, _, _, _, .print .., ho => by cases ho
  | _, _, _, _, .ret .., ho => by cases ho
  | _, _, _, _, .block .., ho => by cases ho
  | _, _, _, _, .whileLoop hkw hlp h hrp hs, ho => by
    obtain ⟨d₁, o₁, s₁, h₁⟩ := Statement.absorb hels he hs ho
    have := Statement.whileLoop hkw hlp (h.mono (Nat.le_max_left _ d₁)) hrp
      (h₁.mono (Nat.le_max_right _ d₁))
    exact ⟨_, _, _, by simpa using this⟩
  | _, _, _, _, .ifThen hkw hlp h hrp hs, _ => by
    have := Statement.nearest_if hkw hlp h hrp hs hels he (Statement.absorb hels he hs)
    simpa using this
  | _, _, _, _, .ifElse hkw hlp h hrp hs hn hels' hs', ho => by
    obtain ⟨d₁, o₁, s₁, h₁⟩ := Statement.absorb hels he hs' ho
    have := Statement.ifElse hkw hlp (h.mono (Nat.le_max_left _ d₁)) hrp
      (hs.mono (Nat.le_max_left _ d₁)) hn hels' (h₁.mono (Nat.le_max_right _ d₁))
    exact ⟨_, _, _, by simpa using this⟩
  | _, _, _, _, .forLoop hkw hlp hi hc hsemi hp hrp hs, ho => by
    obtain ⟨d₁, o₁, s₁, h₁⟩ := Statement.absorb hels he hs ho
    have := Statement.forLoop hkw hlp (hi.mono (Nat.le_max_left _ d₁))
      (hc.mono (Nat.le_max_left _ d₁)) hsemi (hp.mono (Nat.le_max_left _ d₁)) hrp
      (h₁.mono (Nat.le_max_right _ d₁))
    exact ⟨_, _, _, by simpa using this⟩

mutual

/-- What is a statement by any reading is one by the reading that gives each `else` to the nearest
`if`. -/
theorem Statement.nearest : ∀ {d o ts s}, Statement false arity d o ts s →
    Statement.Nearest arity ts
  | _, _, _, _, .expression h => ⟨_, _, _, .expression h⟩
  | _, _, _, _, .print hkw h hsemi => ⟨_, _, _, .print hkw h hsemi⟩
  | _, _, _, _, .ret hkw h hsemi => ⟨_, _, _, .ret hkw h hsemi⟩
  | _, _, _, _, .block hlb h hrb => by
    obtain ⟨d₁, ss, h⟩ := h.nearest
    exact ⟨_, _, _, .block hlb h hrb⟩
  | _, _, _, _, .whileLoop hkw hlp h hrp hs => by
    obtain ⟨d₁, o₁, s₁, h₁⟩ := hs.nearest
    exact ⟨_, _, _, .whileLoop hkw hlp (h.mono (Nat.le_max_left _ d₁)) hrp
      (h₁.mono (Nat.le_max_right _ d₁))⟩
  | _, _, _, _, .ifThen hkw hlp h hrp hs => by
    obtain ⟨d₁, o₁, s₁, h₁⟩ := hs.nearest
    exact ⟨_, _, _, .ifThen hkw hlp (h.mono (Nat.le_max_left _ d₁)) hrp
      (h₁.mono (Nat.le_max_right _ d₁))⟩
  | _, _, _, _, .ifElse hkw hlp h hrp hs _ hels hs' => by
    obtain ⟨d₁, o₁, s₁, h₁⟩ := hs.nearest
    obtain ⟨d₂, o₂, s₂, h₂⟩ := hs'.nearest
    exact Statement.nearest_if hkw hlp (h.mono (Nat.le_max_left _ d₁)) hrp
      (h₁.mono (Nat.le_max_right _ d₁)) hels h₂ (Statement.absorb hels h₂ h₁)
  | _, _, _, _, .forLoop hkw hlp hi hc hsemi hp hrp hs => by
    obtain ⟨d₁, o₁, s₁, h₁⟩ := hs.nearest
    exact ⟨_, _, _, .forLoop hkw hlp (hi.mono (Nat.le_max_left _ d₁))
      (hc.mono (Nat.le_max_left _ d₁)) hsemi (hp.mono (Nat.le_max_left _ d₁)) hrp
      (h₁.mono (Nat.le_max_right _ d₁))⟩

/-- The same of declarations. -/
theorem Declaration.nearest : ∀ {d ts s}, Declaration false arity d ts s →
    ∃ d₁ s₁, Declaration true arity d₁ ts s₁
  | _, _, _, .classDecl hkw hname hlb h hrb => by
    obtain ⟨d₁, fs, h⟩ := h.nearest
    exact ⟨_, _, .classDecl hkw hname hlb h hrb⟩
  | _, _, _, .function hkw h => by
    obtain ⟨d₁, f, h⟩ := h.nearest
    exact ⟨_, _, .function hkw h⟩
  | _, _, _, .var h => ⟨_, _, .var h⟩
  | _, _, _, .statement h => by
    obtain ⟨d₁, o₁, s₁, h⟩ := h.nearest
    exact ⟨_, _, .statement h⟩

/-- The same of declarations one after the other. -/
theorem Declarations.nearest : ∀ {d ts ss}, Declarations false arity d ts ss →
    ∃ d₁ ss₁, Declarations true arity d₁ ts ss₁
  | _, _, _, .nil => ⟨0, _, .nil⟩
  | _, _, _, .cons h hmore => by
    obtain ⟨d₁, s₁, h₁⟩ := h.nearest
    obtain ⟨d₂, ss₂, h₂⟩ := hmore.nearest
    exact ⟨_, _, .cons (h₁.mono (Nat.le_max_left d₁ d₂)) (h₂.mono (Nat.le_max_right d₁ d₂))⟩

/-- The same of functions. -/
theorem Function.nearest : ∀ {d ts f}, Function false arity d ts f →
    ∃ d₁ f₁, Function true arity d₁ ts f₁
  | _, _, _, .intro hname hlp hp hlen hrp hlb h hrb => by
    obtain ⟨d₁, ss, h⟩ := h.nearest
    exact ⟨_, _, .intro hname hlp hp hlen hrp hlb h hrb⟩

/-- The same of methods. -/
theorem Methods.nearest : ∀ {d ts fs}, Methods false arity d ts fs →
    ∃ d₁ fs₁, Methods true arity d₁ ts fs₁
  | _, _, _, .nil => ⟨0, _, .nil⟩
  | _, _, _, .cons h hmore => by
    obtain ⟨d₁, f₁, h₁⟩ := h.nearest
    obtain ⟨d₂, fs₂, h₂⟩ := hmore.nearest
    exact ⟨_, _, .cons (h₁.mono (Nat.le_max_left d₁ d₂)) (h₂.mono (Nat.le_max_right d₁ d₂))⟩

end

mutual

/-- To give each `else` to the nearest `if` is one of the readings of a statement. -/
theorem Statement.anyReading : ∀ {d o ts s}, Statement true arity d o ts s →
    Statement false arity d o ts s
  | _, _, _, _, .expression h => .expression h
  | _, _, _, _, .print hkw h hsemi => .print hkw h hsemi
  | _, _, _, _, .ret hkw h hsemi => .ret hkw h hsemi
  | _, _, _, _, .block hlb h hrb => .block hlb h.anyReading hrb
  | _, _, _, _, .whileLoop hkw hlp h hrp hs => .whileLoop hkw hlp h hrp hs.anyReading
  | _, _, _, _, .ifThen hkw hlp h hrp hs => .ifThen hkw hlp h hrp hs.anyReading
  | _, _, _, _, .ifElse hkw hlp h hrp hs _ hels hs' =>
    .ifElse hkw hlp h hrp hs.anyReading (by simp) hels hs'.anyReading
  | _, _, _, _, .forLoop hkw hlp hi hc hsemi hp hrp hs =>
    .forLoop hkw hlp hi hc hsemi hp hrp hs.anyReading

/-- The same of declarations. -/
theorem Declaration.anyReading : ∀ {d ts s}, Declaration true arity d ts s →
    Declaration false arity d ts s
  | _, _, _, .classDecl hkw hname hlb h hrb => .classDecl hkw hname hlb h.anyReading hrb
  | _, _, _, .function hkw h => .function hkw h.anyReading
  | _, _, _, .var h => .var h
  | _, _, _, .statement h => .statement h.anyReading

/-- The same of declarations one after the other. -/
theorem Declarations.anyReading : ∀ {d ts ss}, Declarations true arity d ts ss →
    Declarations false arity d ts ss
  | _, _, _, .nil => .nil
  | _, _, _, .cons h hmore => .cons h.anyReading hmore.anyReading

/-- The same of functions. -/
theorem Function.anyReading : ∀ {d ts f}, Function true arity d ts f →
    Function false arity d ts f
  | _, _, _, .intro hname hlp hp hlen hrp hlb h hrb =>
    .intro hname hlp hp hlen hrp hlb h.anyReading hrb

theorem Methods.anyReading : ∀ {d ts fs}, Methods true arity d ts fs →
    Methods false arity d ts fs
  | _, _, _, .nil => .nil
  | _, _, _, .cons h hmore => .cons h.anyReading hmore.anyReading

end

end Nearest

end Derives
end Grammar
end Lox
