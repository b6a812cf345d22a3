/-
# What evaluation comes to

The expressions and statements that a running program comes to on its way, each with the machine it
finds there (`Eval.Visits`). One rule of evaluation starts its parts in order, the later ones on the
machine that the earlier ones leave, and a call starts the statements of a body inside a new frame
(`Eval.Starts`). A name that is read without being bound stops the program, so that such a read is
always the last thing it comes to (`undefined_visits`).
-/

import Lox.Proofs.Eval.Keeps

namespace Lox

/-- Something to evaluate. -/
inductive Task where
  | eval (e : Expr)
  | exec (s : Stmt)

namespace Eval

/-- Calling `c` on `m` comes to run the statements, starting on the machine `m'`. -/
inductive Enters (args : List Value) : Callable → Machine → List Stmt → Machine → Prop where
  | function {f : Function} {m m' : Machine} {r : FrameRef} (hf : callFrame f args m = .ok r m') :
    Enters args (.function f) m f.decl.body { m' with frame := r }
  | construct {ref : ClassRef} {c : Class} {f bound : Function} {o : ObjectRef}
      {m m₁ m₂ m₃ : Machine} {r : FrameRef} (hi : c.initializer? = some f)
      (ho : onHeap (fun h => h.newObject ref) m = .ok o m₁)
      (hb : onHeap (fun h => h.bind f o) m₁ = .ok bound m₂)
      (hf : callFrame bound args m₂ = .ok r m₃) :
    Enters args (.construct ref c) m bound.decl.body { m₃ with frame := r }

section

variable (p : Setting) (fuel : Nat)

/-- A task on the machine `m` starts another one on the machine `m'`; the parts have the given
fuel. A body starts on a machine that counts its call, as the evaluator counts it (`Eval.counted`).
-/
inductive Starts : Task → Machine → Task → Machine → Prop where
  | grouping {m e} : Starts (.eval (.grouping e)) m (.eval e) m
  | operand {m op e} : Starts (.eval (.unary op e)) m (.eval e) m
  | left {m l op r} : Starts (.eval (.binary l op r)) m (.eval l) m
  | right {m m' l op r v} (hl : eval p fuel l m = .ok v m') :
    Starts (.eval (.binary l op r)) m (.eval r) m'
  | first {m l op r} : Starts (.eval (.logical l op r)) m (.eval l) m
  | second {m m' l op r v} (hl : eval p fuel l m = .ok v m') (hd : decides op v = false) :
    Starts (.eval (.logical l op r)) m (.eval r) m'
  | assigned {m id name e} : Starts (.eval (.assign id name e)) m (.eval e) m
  | callee {m e paren args} : Starts (.eval (.call e paren args)) m (.eval e) m
  | argument {m m₁ m₂ callee paren pre e post f vs} (hf : eval p fuel callee m = .ok f m₁)
      (hv : each (eval p fuel) pre m₁ = .ok vs m₂) :
    Starts (.eval (.call callee paren (pre ++ e :: post))) m (.eval e) m₂
  | body {m m₁ m₂ m₃ m₄ m₅ callee paren args f vs c pre s post}
      (hf : eval p fuel callee m = .ok f m₁) (hv : each (eval p fuel) args m₁ = .ok vs m₂)
      (hc : checkCall f vs.length paren m₂ = .ok c m₃)
      (hb : Enters vs c { m₃ with calls := m₃.calls + 1 } (pre ++ s :: post) m₄)
      (hs : inOrder (exec p fuel) pre m₄ = .ok .normal m₅) :
    Starts (.eval (.call callee paren args)) m (.exec s) m₅
  | getObject {m e name} : Starts (.eval (.get e name)) m (.eval e) m
  | setObject {m e name value} : Starts (.eval (.set e name value)) m (.eval e) m
  | setValue {m m' e name value o} (ho : eval p fuel e m = .ok (.object o) m') :
    Starts (.eval (.set e name value)) m (.eval value) m'
  | expression {m e} : Starts (.exec (.expression e)) m (.eval e) m
  | print {m e} : Starts (.exec (.print e)) m (.eval e) m
  | initializer {m name e} : Starts (.exec (.var name (some e))) m (.eval e) m
  | inner {m m₁ m₂ pre s post r} (hf : innerFrame m = .ok r m₁)
      (hs : inOrder (exec p fuel) pre { m₁ with frame := r } = .ok .normal m₂) :
    Starts (.exec (.block (pre ++ s :: post))) m (.exec s) m₂
  | condition {m cond thenB elseB} : Starts (.exec (.branch cond thenB elseB)) m (.eval cond) m
  | thenBranch {m m' cond thenB elseB v} (hc : eval p fuel cond m = .ok v m')
      (hv : v.isTruthy = true) : Starts (.exec (.branch cond thenB elseB)) m (.exec thenB) m'
  | elseBranch {m m' cond thenB elseB v} (hc : eval p fuel cond m = .ok v m')
      (hv : v.isTruthy = false) :
    Starts (.exec (.branch cond thenB (some elseB))) m (.exec elseB) m'
  | guard {m cond body} : Starts (.exec (.loop cond body)) m (.eval cond) m
  | round {m m' cond body v} (hc : eval p fuel cond m = .ok v m') (hv : v.isTruthy = true) :
    Starts (.exec (.loop cond body)) m (.exec body) m'
  | again {m m₁ m₂ cond body v} (hc : eval p fuel cond m = .ok v m₁) (hv : v.isTruthy = true)
      (hb : exec p fuel body m₁ = .ok .normal m₂) :
    Starts (.exec (.loop cond body)) m (.exec (.loop cond body)) m₂
  | returned {m keyword e} : Starts (.exec (.ret keyword (some e))) m (.eval e) m

end

/-- Running a task on `m` with the given fuel comes to another task on the machine `m'`. -/
inductive Visits (p : Setting) : Nat → Task → Machine → Task → Machine → Prop where
  | self {fuel : Nat} {t : Task} {m : Machine} : Visits p (fuel + 1) t m t m
  | part {fuel : Nat} {t t' t'' : Task} {m m' m'' : Machine} (hs : Starts p fuel t m t' m')
      (hv : Visits p fuel t' m' t'' m'') : Visits p (fuel + 1) t m t'' m''

/-- Running the statements of a program on `m` comes to a task on the machine `m'`. -/
def ProgramVisits (p : Setting) (fuel : Nat) (statements : List Stmt) (m : Machine) (t : Task)
    (m' : Machine) : Prop :=
  ∃ pre s post m₁, statements = pre ++ s :: post ∧ execProgram p fuel pre m = .ok () m₁ ∧
    Visits p fuel (.exec s) m₁ t m'

/-! ## Reads of unbound names -/

/-- The computation ends in the stop. -/
def Fails {α : Type} (stop : Stop) (c : Eval α) (m : Machine) : Prop := ∃ m', c m = .error stop m'

section Fails

variable {α β : Type} {stop : Stop} {c : Eval α} {f : α → Eval β} {m : Machine}

/-- Two computations one behind the other fail in the first or in the second. -/
theorem Fails.of_bind (h : Fails stop (c >>= f) m) :
    Fails stop c m ∨ ∃ a m₁, c m = .ok a m₁ ∧ Fails stop (f a) m₁ := by
  obtain ⟨m', h⟩ := h
  change EStateM.bind c f m = _ at h
  unfold EStateM.bind at h
  cases hc : c m with
  | ok a m₁ =>
    rw [hc] at h
    exact .inr ⟨a, m₁, rfl, m', h⟩
  | error e m₁ =>
    rw [hc] at h
    cases h
    exact .inl ⟨m', hc⟩

/-- What fails in a frame fails when started there. -/
theorem Fails.of_inFrame {r : FrameRef} (h : Fails stop (inFrame r c) m) :
    Fails stop c { m with frame := r } := by
  obtain ⟨m', h⟩ := h
  unfold inFrame at h
  cases hc : c { m with frame := r } with
  | ok a m₁ =>
    rw [hc] at h
    cases h
  | error e m₁ =>
    rw [hc] at h
    cases h
    exact ⟨m₁, hc⟩

/-- A call fails in its callee, with one call more in progress. -/
theorem Fails.of_counted (h : Fails stop (counted c) m) :
    Fails stop c { m with calls := m.calls + 1 } := by
  obtain ⟨m', h⟩ := h
  unfold counted at h
  cases hc : c { m with calls := m.calls + 1 } with
  | ok a m₁ =>
    rw [hc] at h
    cases h
  | error e m₁ =>
    rw [hc] at h
    cases h
    exact ⟨m₁, hc⟩

/-- To return a value is no failure. -/
theorem not_fails_pure {a : α} : ¬ Fails stop (pure a : Eval α) m := fun ⟨_, h⟩ => by cases h

/-- A list fails at an item, behind others that return. -/
theorem Fails.of_each {f : α → Eval β} : ∀ {as : List α} {m : Machine},
    Fails stop (each f as) m → ∃ pre a post bs m₁, as = pre ++ a :: post ∧
      each f pre m = .ok bs m₁ ∧ Fails stop (f a) m₁
  | [], _, h => absurd h not_fails_pure
  | a :: as, m, h => by
    obtain h | ⟨b, m₁, hb, h⟩ := h.of_bind
    · exact ⟨[], a, as, [], m, rfl, rfl, h⟩
    · obtain h | ⟨bs, m₂, hbs, h⟩ := h.of_bind
      · obtain ⟨pre, a', post, bs, m₂, rfl, hpre, h⟩ := Fails.of_each h
        refine ⟨a :: pre, a', post, b :: bs, m₂, rfl, ?_, h⟩
        exact (bind_of_ok hb).trans (bind_of_ok hpre)
      · exact absurd h not_fails_pure

/-- Statements in order fail at one of them, behind others that end normally. -/
theorem Fails.of_inOrder {exec : Stmt → Eval Flow} : ∀ {ss : List Stmt} {m : Machine},
    Fails stop (inOrder exec ss) m → ∃ pre s post m₁, ss = pre ++ s :: post ∧
      inOrder exec pre m = .ok .normal m₁ ∧ Fails stop (exec s) m₁
  | [], _, h => absurd h not_fails_pure
  | s :: ss, m, h => by
    obtain h | ⟨flow, m₁, hs, h⟩ := h.of_bind
    · exact ⟨[], s, ss, m, rfl, rfl, h⟩
    · cases flow with
      | returned v => exact absurd h not_fails_pure
      | normal =>
        obtain ⟨pre, s', post, m₂, rfl, hpre, h⟩ := Fails.of_inOrder h
        refine ⟨s :: pre, s', post, m₂, rfl, ?_, h⟩
        exact (bind_of_ok hs).trans hpre

/-- An operation fails for one of its causes. -/
theorem Fails.cause {causes : Trouble → Prop} {changes : Heap → Heap → Prop} {cause : Trouble}
    {token : Token} (h : Fails (.fault (.trouble cause token)) c m)
    (hc : Operates causes changes c) : causes cause := by
  obtain ⟨m', h⟩ := h
  have ends := hc.ends m
  rw [h] at ends
  cases ends with
  | trouble allowed => exact allowed

/-- Printing fails for the output only. -/
theorem not_fails_print {v : Value} {cause : Trouble} {token : Token} :
    ¬ Fails (.fault (.trouble cause token)) (print v) m := by
  rintro ⟨m', h⟩
  obtain ⟨sink, hp | hp⟩ := print_ends v m <;> rw [hp] at h <;> cases h

end Fails

section Undefined

variable {use : NameUse} {place : Place} {name : String} {token : Token} {α : Type} {m : Machine}

variable (use place name token) in
/-- The program reads a name that is not bound. -/
def unbound : Stop := .fault (.trouble (.undefined use place name) token)

/-- A read of a name fails where the name is not bound. -/
theorem of_fails_readName {use' : NameUse} {place' : Place} {t : Token}
    (h : Fails (unbound use place name token) (readName use' place' t) m) :
    use = use' ∧ place = place' ∧ name = t.lexeme ∧ token = t ∧
      valueAt? m place' t.lexeme = none := by
  obtain ⟨m', h⟩ := h
  unfold readName at h
  split at h
  · cases h
  · rename_i hn
    cases h
    exact ⟨rfl, rfl, rfl, rfl, hn⟩

variable {p : Setting} {fuel : Nat}

variable (p fuel) in
/-- The task ends in the stop. -/
def TaskFails (stop : Stop) : Task → Machine → Prop
  | .eval e, m => Fails stop (eval p fuel e) m
  | .exec s, m => Fails stop (exec p fuel s) m

/-- The task is to read a name that is not bound at its place. -/
def Misses (p : Setting) (use : NameUse) (place : Place) (name : String) (token : Token) (t : Task)
    (m : Machine) : Prop :=
  ∃ id, (use = .read ∧ t = .eval (.ident id token) ∨
      use = .receiver ∧ t = .eval (.receiver id token)) ∧
    place = placeOf p.distances id ∧ name = token.lexeme ∧ valueAt? m place name = none

/-- A call of a function that reads an unbound name does so in its body. -/
theorem Fails.of_invoke {exec : Stmt → Eval Flow} {f : Function}
    {args : List Value} (h : Fails (unbound use place name token) (invoke exec f args) m) :
    ∃ r m₁, callFrame f args m = .ok r m₁ ∧
      Fails (unbound use place name token) (inOrder exec f.decl.body) { m₁ with frame := r } := by
  obtain ⟨_, h⟩ | ⟨r, m₁, hr, h⟩ := h.of_bind
  · cases h
  · obtain h | ⟨flow, m₂, -, h⟩ := h.of_bind
    · exact ⟨r, m₁, hr, h.of_inFrame⟩
    · exact (h.cause (callResult_asks f flow)).elim

/-- A call that fails comes to a statement of the body that fails. -/
theorem Fails.of_apply {clock : Nat → Float} {exec : Stmt → Eval Flow}
    {args : List Value} {c : Callable}
    (h : Fails (unbound use place name token) (apply clock exec args c) m) :
    ∃ pre s post m₁ m₂, Enters args c m (pre ++ s :: post) m₁ ∧
      inOrder exec pre m₁ = .ok .normal m₂ ∧ Fails (unbound use place name token) (exec s) m₂ := by
  cases c with
  | native f =>
    cases f
    obtain ⟨_, h⟩ := h
    cases h
  | function f =>
    obtain ⟨r, m₁, hr, h⟩ := Fails.of_invoke h
    obtain ⟨pre, s, post, m₂, hb, hpre, h⟩ := h.of_inOrder
    exact ⟨pre, s, post, _, m₂, hb ▸ .function hr, hpre, h⟩
  | construct ref c =>
    unfold apply construct at h
    obtain ⟨_, h⟩ | ⟨o, m₁, ho, h⟩ := h.of_bind
    · cases h
    · cases hi : c.initializer? with
      | none =>
        rw [hi] at h
        exact absurd h not_fails_pure
      | some f =>
        rw [hi] at h
        obtain ⟨_, h⟩ | ⟨bound, m₂, hb, h⟩ := h.of_bind
        · cases h
        · obtain h | ⟨_, _, _, h⟩ := h.of_bind
          · obtain ⟨r, m₃, hr, h⟩ := Fails.of_invoke h
            obtain ⟨pre, s, post, m₄, hbody, hpre, h⟩ := h.of_inOrder
            exact ⟨pre, s, post, _, m₄, hbody ▸ .construct hi ho hb hr, hpre, h⟩
          · exact absurd h not_fails_pure

/-- An expression that fails at an unbound name is the use of it, or starts a part that fails there.
-/
theorem eval_fails_starts (hu : use ≠ .write) : ∀ {e : Expr} {m : Machine},
    Fails (unbound use place name token) (eval p (fuel + 1) e) m →
      Misses p use place name token (.eval e) m ∨ ∃ t m', Starts p fuel (.eval e) m t m' ∧
        TaskFails p fuel (unbound use place name token) t m'
  | .literal l, m, h => by cases l <;> exact absurd h not_fails_pure
  | .grouping _, m, h => .inr ⟨_, m, .grouping, h⟩
  | .unary op _, m, h => by
    obtain h | ⟨v, m₁, -, h⟩ := Fails.of_bind h
    · exact .inr ⟨_, m, .operand, h⟩
    · exact absurd (h.cause (applyUnary_asks op v)) (by simp)
  | .binary _ op _, m, h => by
    obtain h | ⟨l, m₁, hl, h⟩ := Fails.of_bind h
    · exact .inr ⟨_, m, .left, h⟩
    · obtain h | ⟨r, m₂, -, h⟩ := h.of_bind
      · exact .inr ⟨_, m₁, .right hl, h⟩
      · exact absurd (h.cause (applyBinary_asks op l r)) (by simp)
  | .logical _ op _, m, h => by
    obtain h | ⟨l, m₁, hl, h⟩ := Fails.of_bind h
    · exact .inr ⟨_, m, .first, h⟩
    · cases hd : decides op l
      · rw [hd] at h
        exact .inr ⟨_, m₁, .second hl hd, h⟩
      · rw [hd] at h
        exact absurd h not_fails_pure
  | .ident id t, m, h => by
    obtain ⟨rfl, rfl, rfl, rfl, hn⟩ := of_fails_readName h
    exact .inl ⟨id, .inl ⟨rfl, rfl⟩, rfl, rfl, hn⟩
  | .receiver id t, m, h => by
    obtain ⟨rfl, rfl, rfl, rfl, hn⟩ := of_fails_readName h
    exact .inl ⟨id, .inr ⟨rfl, rfl⟩, rfl, rfl, hn⟩
  | .assign id t _, m, h => by
    obtain h | ⟨v, m₁, -, h⟩ := Fails.of_bind h
    · exact .inr ⟨_, m, .assigned, h⟩
    · obtain h | ⟨_, _, -, h⟩ := h.of_bind
      · have written := h.cause (assignName_operates (placeOf p.distances id) t v)
        exact absurd (Trouble.undefined.inj written).1 hu
      · exact absurd h not_fails_pure
  | .call _ paren args, m, h => by
    obtain h | ⟨f, m₁, hf, h⟩ := Fails.of_bind h
    · exact .inr ⟨_, m, .callee, h⟩
    · obtain h | ⟨vs, m₂, hv, h⟩ := h.of_bind
      · obtain ⟨pre, e, post, us, m₂, rfl, hpre, h⟩ := h.of_each
        exact .inr ⟨_, m₂, .argument hf hpre, h⟩
      · obtain h | ⟨c, m₃, hc, h⟩ := h.of_bind
        · exact absurd (h.cause (checkCall_asks ..)) (by simp)
        · obtain ⟨pre, s, post, m₄, m₅, hb, hs, h⟩ := Fails.of_apply h.of_counted
          exact .inr ⟨_, m₅, .body hf hv hc hb hs, h⟩
  | .get _ t, m, h => by
    obtain h | ⟨v, m₁, -, h⟩ := Fails.of_bind h
    · exact .inr ⟨_, m, .getObject, h⟩
    · cases v with
      | object o => exact absurd (h.cause (getProperty_operates o t)) (by simp)
      | _ =>
        obtain ⟨_, h⟩ := h
        cases h
  | .set _ t _, m, h => by
    obtain h | ⟨v, m₁, hv, h⟩ := Fails.of_bind h
    · exact .inr ⟨_, m, .setObject, h⟩
    · cases v with
      | object o =>
        obtain h | ⟨_, _, -, h⟩ := h.of_bind
        · exact .inr ⟨_, m₁, .setValue hv, h⟩
        · obtain ⟨_, h⟩ | ⟨_, _, -, h⟩ := h.of_bind
          · cases h
          · exact absurd h not_fails_pure
      | _ =>
        obtain ⟨_, h⟩ := h
        cases h

/-- A statement that fails at an unbound name starts a part that fails there. -/
theorem exec_fails_starts : ∀ {s : Stmt} {m : Machine},
    Fails (unbound use place name token) (exec p (fuel + 1) s) m →
      ∃ t m', Starts p fuel (.exec s) m t m' ∧
        TaskFails p fuel (unbound use place name token) t m'
  | .expression _, m, h => by
    obtain h | ⟨_, _, -, h⟩ := Fails.of_bind h
    · exact ⟨_, m, .expression, h⟩
    · exact absurd h not_fails_pure
  | .print _, m, h => by
    obtain h | ⟨v, _, -, h⟩ := Fails.of_bind h
    · exact ⟨_, m, .print, h⟩
    · obtain h | ⟨_, _, -, h⟩ := h.of_bind
      · exact absurd h not_fails_print
      · exact absurd h not_fails_pure
  | .var _ init, m, h => by
    obtain h | ⟨_, _, -, h⟩ := Fails.of_bind h
    · cases init with
      | none => exact absurd h not_fails_pure
      | some e => exact ⟨_, m, .initializer, h⟩
    · obtain ⟨_, h⟩ | ⟨_, _, -, h⟩ := h.of_bind
      · cases h
      · exact absurd h not_fails_pure
  | .block body, m, h => by
    obtain ⟨_, h⟩ | ⟨r, m₁, hr, h⟩ := Fails.of_bind h
    · cases h
    · obtain ⟨pre, s, post, m₂, rfl, hs, h⟩ := h.of_inFrame.of_inOrder
      exact ⟨_, m₂, .inner hr hs, h⟩
  | .branch _ _ elseB, m, h => by
    obtain h | ⟨v, m₁, hc, h⟩ := Fails.of_bind h
    · exact ⟨_, m, .condition, h⟩
    · cases hv : v.isTruthy
      · rw [hv] at h
        cases elseB with
        | none => exact absurd h not_fails_pure
        | some s => exact ⟨_, m₁, .elseBranch hc hv, h⟩
      · rw [hv] at h
        exact ⟨_, m₁, .thenBranch hc hv, h⟩
  | .loop _ _, m, h => by
    obtain h | ⟨v, m₁, hc, h⟩ := Fails.of_bind h
    · exact ⟨_, m, .guard, h⟩
    · cases hv : v.isTruthy
      · rw [hv] at h
        exact absurd h not_fails_pure
      · rw [hv] at h
        obtain h | ⟨flow, m₂, hb, h⟩ := Fails.of_bind h
        · exact ⟨_, m₁, .round hc hv, h⟩
        · cases flow with
          | normal => exact ⟨_, m₂, .again hc hv hb, h⟩
          | returned v => exact absurd h not_fails_pure
  | .function _, m, h => by
    obtain ⟨_, h⟩ | ⟨_, _, -, h⟩ := Fails.of_bind h
    · cases h
    · exact absurd h not_fails_pure
  | .ret _ value, m, h => by
    obtain h | ⟨_, _, -, h⟩ := Fails.of_bind h
    · cases value with
      | none => exact absurd h not_fails_pure
      | some e => exact ⟨_, m, .returned, h⟩
    · exact absurd h not_fails_pure
  | .classDecl _ _, m, h => by
    obtain ⟨_, h⟩ | ⟨_, _, -, h⟩ := Fails.of_bind h
    · cases h
    · exact absurd h not_fails_pure

/-- A task that reads an unbound name comes to a node whose name is not bound at its place. -/
theorem undefined_visits (hu : use ≠ .write) : ∀ {fuel : Nat} {t : Task} {m : Machine},
    TaskFails p fuel (unbound use place name token) t m →
      ∃ t' m', Visits p fuel t m t' m' ∧ Misses p use place name token t' m'
  | 0, .eval _, _, ⟨_, h⟩ => by cases h
  | 0, .exec _, _, ⟨_, h⟩ => by cases h
  | fuel + 1, .eval e, m, h => by
    obtain h | ⟨t, m₁, hs, h⟩ := eval_fails_starts hu h
    · exact ⟨_, m, .self, h⟩
    · obtain ⟨t', m', hv, h⟩ := undefined_visits hu h
      exact ⟨t', m', .part hs hv, h⟩
  | fuel + 1, .exec s, m, h => by
    obtain ⟨t, m₁, hs, h⟩ := exec_fails_starts h
    obtain ⟨t', m', hv, h⟩ := undefined_visits hu h
    exact ⟨t', m', .part hs hv, h⟩

/-- A program that fails at an unbound name comes to the use of it. -/
theorem program_undefined_visits (hu : use ≠ .write) : ∀ {ss : List Stmt} {m : Machine},
    Fails (unbound use place name token) (execProgram p fuel ss) m →
      ∃ t' m', ProgramVisits p fuel ss m t' m' ∧ Misses p use place name token t' m'
  | [], _, h => absurd h not_fails_pure
  | s :: ss, m, h => by
    obtain h | ⟨flow, m₁, hs, h⟩ := Fails.of_bind h
    · obtain ⟨t, m', hv, h⟩ := undefined_visits (t := .exec s) hu h
      exact ⟨t, m', ⟨[], s, ss, m, rfl, rfl, hv⟩, h⟩
    · obtain ⟨t, m', ⟨pre, s', post, m₂, rfl, hpre, hv⟩, hm⟩ := program_undefined_visits hu h
      exact ⟨t, m', ⟨s :: pre, s', post, m₂, rfl, (bind_of_ok hs).trans hpre, hv⟩, hm⟩

end Undefined

end Eval

end Lox
