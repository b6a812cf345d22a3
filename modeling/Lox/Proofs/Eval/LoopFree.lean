/-
# Evaluation without loops ends

Only loops can go on for ever. Without them, evaluation nests as deep as the tree is high, and from
there into the bodies of functions, which may be higher than the tree that calls them. But a body is
entered only while fewer than `maxCalls` calls are in progress, and all bodies on the heap come from
trees that had no loops. So fuel that lasts for `maxCalls` times the highest body lasts for
everything (`eval_exec_agree`), and having more makes no difference.
-/

import Lox.Proofs.Eval.Invariant
import Lox.Proofs.Tree.LoopFree

namespace Lox

/-- No function on the heap has a loop or is higher than the bound. -/
def Invariant.low (bound : Nat) : Invariant Unit where
  rules := .low bound
  own _ := True
  leads _ _ := True
  value _ _ := True
  frame _ _ _ := True
  receives _ _ := True
  leads_refl _ := trivial
  leads_trans _ _ := trivial
  value_leads _ _ := trivial
  frame_leads _ _ := trivial
  receives_leads _ _ := trivial
  plain _ := trivial
  binding _ _ := trivial
  field _ _ _ := trivial
  assigned _ := trivial
  define _ _ _ := ⟨trivial, trivial⟩
  openFrame _ _ _ := ⟨trivial, trivial, trivial⟩
  bindFrame _ _ _ _ := ⟨trivial, trivial, trivial, trivial⟩
  newFunction _ _ := ⟨trivial, trivial, trivial⟩
  newClass _ _ := ⟨trivial, trivial, trivial⟩
  newObject _ _ := ⟨trivial, trivial, trivial⟩
  setField _ _ := ⟨trivial, trivial⟩

namespace Eval

section Agree

variable {α β : Type} {c c' : Eval α} {f f' : α → Eval β} {m : Machine}

/-- The two computations do the same on the machine, and do not run out of fuel. -/
structure Agree (c c' : Eval α) (m : Machine) : Prop where
  same : c' m = c m
  ends : ∀ m', c m ≠ .error .outOfFuel m'

/-- The computation never runs out of fuel. -/
def Definite (c : Eval α) : Prop := ∀ m m', c m ≠ .error .outOfFuel m'

/-- A computation that never runs out of fuel does the same as itself. -/
theorem Definite.agree (hc : Definite c) : Agree c c m := ⟨rfl, hc m⟩

/-- Computations one behind the other do the same if both parts do. -/
theorem Agree.bind (hc : Agree c c' m) (hf : ∀ a m₁, c m = .ok a m₁ → Agree (f a) (f' a) m₁) :
    Agree (c >>= f) (c' >>= f') m := by
  have same := hc.same
  have ends := hc.ends
  cases h : c m with
  | ok a m₁ =>
    rw [h] at same
    obtain ⟨same₁, ends₁⟩ := hf a m₁ h
    refine ⟨?_, ?_⟩
    · rw [bind_of_ok h, bind_of_ok same, same₁]
    · rw [bind_of_ok h]
      exact ends₁
  | error e m₁ =>
    rw [h] at same ends
    refine ⟨(bind_of_error same).trans (bind_of_error h).symm, fun m' he => ?_⟩
    rw [bind_of_error h] at he
    cases he
    exact ends m₁ rfl

/-- They do the same in a given frame if they do there. -/
theorem Agree.inFrame {r : FrameRef} (hc : Agree c c' { m with frame := r }) :
    Agree (Eval.inFrame r c) (Eval.inFrame r c') m := by
  have same := hc.same
  have ends := hc.ends
  refine ⟨?_, fun m' => ?_⟩
  · unfold Eval.inFrame
    rw [same]
  · unfold Eval.inFrame
    cases h : c { m with frame := r } with
    | ok a m₁ =>
      intro he
      cases he
    | error e m₁ =>
      intro he
      cases he
      exact ends m₁ h

/-- They do the same as a call if they do with one call more in progress. -/
theorem Agree.counted (hc : Agree c c' { m with calls := m.calls + 1 }) :
    Agree (Eval.counted c) (Eval.counted c') m := by
  have same := hc.same
  have ends := hc.ends
  refine ⟨?_, fun m' => ?_⟩
  · unfold Eval.counted
    rw [same]
  · unfold Eval.counted
    cases h : c { m with calls := m.calls + 1 } with
    | ok a m₁ =>
      intro he
      cases he
    | error e m₁ =>
      intro he
      cases he
      exact ends m₁ h

/-- To return a value takes no fuel. -/
theorem pure_definite (a : α) : Definite (pure a : Eval α) := fun _ _ h => by cases h

/-- To fail is not to be out of fuel. -/
theorem fail_definite (cause : Trouble) (token : Token) : Definite (fail cause token : Eval α) :=
  fun _ _ h => by cases h

/-- An operation takes no fuel. -/
theorem Operates.definite {causes : Trouble → Prop} {changes : Heap → Heap → Prop}
    (hc : Operates causes changes c) : Definite c := by
  intro m m' h
  have ends := hc.ends m
  rw [h] at ends
  cases ends

end Agree

/-- To print takes no fuel. -/
theorem print_definite (v : Value) : Definite (print v) := by
  intro m m' h
  obtain ⟨sink, hp | hp⟩ := print_ends v m
  · rw [hp] at h
    cases h
  · rw [hp] at h
    cases h

/-- To hand on the output takes no fuel. -/
theorem flush_definite : Definite flush := by
  intro m m' h
  obtain ok | error := flush_ends m
  · rw [ok] at h
    cases h
  · rw [error] at h
    cases h

/-! ## Enough fuel -/

section Ample

variable {bound n k : Nat} {p : Setting} {fuel fuel' : Nat} {m m' : Machine}

variable (bound n fuel) in
/-- The fuel lasts for a tree of height `n` and for all the calls that may still be made inside one
another. -/
structure Ample (m : Machine) : Prop where
  holds : (Invariant.low bound).Holds m.heap
  room : n + (maxCalls - m.calls) * bound ≤ fuel

namespace Ample

/-- All trees without loops may run where the fuel lasts. -/
theorem stands (h : Ample bound n fuel m) : (Invariant.low bound).Stands () m := ⟨h.holds, trivial⟩

/-- One step down the tree and the fuel are one less. -/
theorem part (h : Ample bound n (fuel + 1) m) (hk : k + 1 ≤ n) : Ample bound k fuel m := by
  have room := h.room
  exact ⟨h.holds, by omega⟩

/-- Fuel for a tree lasts for a lower one. -/
theorem mono (h : Ample bound n fuel m) (hk : k ≤ n) : Ample bound k fuel m := by
  have room := h.room
  exact ⟨h.holds, by omega⟩

/-- It lasts on a machine that follows, with as many calls in progress. -/
theorem follows (h : Ample bound n fuel m) (hf : (Invariant.low bound).Follows m m')
    (hc : m'.calls = m.calls) : Ample bound n fuel m' := by
  have room := h.room
  exact ⟨hf.holds, by rw [hc]; exact room⟩

/-- It lasts behind an expression. -/
theorem eval {e : Expr} {v : Value} (h : Ample bound n fuel m)
    (he : Eval.eval p k e m = .ok v m') : Ample bound n fuel m' := by
  have hs := (Invariant.low bound).eval_sustains p k e () m h.stands e.obeys_low
  exact h.follows (hs.ok he).1 ((eval_keeps p k e).ok he).calls

/-- It lasts behind a statement without loops. -/
theorem exec {s : Stmt} {flow : Flow} (h : Ample bound n fuel m) (ho : s.Obeys (.low bound) ())
    (he : Eval.exec p k s m = .ok flow m') : Ample bound n fuel m' := by
  have hs := (Invariant.low bound).exec_sustains p k s () m h.stands ho
  exact h.follows (hs.ok he).1 ((exec_keeps p k s).ok he).calls

/-- One call more in progress: what was kept for it is there for its body. -/
theorem call (h : Ample bound n (fuel + 1) m) (hn : 1 ≤ n) (hc : m.calls < maxCalls) :
    Ample bound bound fuel { m with calls := m.calls + 1 } := by
  have room := h.room
  have left : maxCalls - m.calls = (maxCalls - (m.calls + 1)) + 1 := by omega
  rw [left, Nat.succ_mul] at room
  refine ⟨h.holds, ?_⟩
  show bound + (maxCalls - (m.calls + 1)) * bound ≤ fuel
  omega

end Ample

/-! ## Rules -/

variable (bound p fuel fuel') in
/-- With either fuel an expression does the same. -/
def EvalAgrees : Prop :=
  ∀ (e : Expr) (m : Machine), Ample bound e.height fuel m →
    Agree (eval p fuel e) (eval p fuel' e) m

variable (bound p fuel fuel') in
/-- With either fuel a statement without loops does the same. -/
def ExecAgrees : Prop :=
  ∀ (s : Stmt) (m : Machine), s.Obeys (.low bound) () → Ample bound s.height fuel m →
    Agree (exec p fuel s) (exec p fuel' s) m

/-- Expressions one after the other have the same values with either fuel. -/
theorem each_agree (he : EvalAgrees bound p fuel fuel') : ∀ (es : List Expr) (m : Machine),
    Ample bound (Expr.heightList es) fuel m →
      Agree (each (eval p fuel) es) (each (eval p fuel') es) m
  | [], _, _ => (pure_definite _).agree
  | e :: es, m, h => by
    rw [Expr.heightList] at h
    refine (he e m (h.mono (by omega))).bind fun v m₁ hv => ?_
    refine (each_agree he es m₁ ((h.mono (by omega)).eval hv)).bind fun vs m₂ _ => ?_
    exact (pure_definite _).agree

/-- So has an expression that may be missing. -/
theorem orNil_agree (he : EvalAgrees bound p fuel fuel') : ∀ {e : Option Expr},
    Ample bound (Expr.heightOption e) fuel m →
      Agree (orNil (eval p fuel) e) (orNil (eval p fuel') e) m
  | none, _ => (pure_definite _).agree
  | some e, h => he e m h

/-- Statements without loops in order do the same with either fuel. -/
theorem inOrder_agree (hx : ExecAgrees bound p fuel fuel') : ∀ (ss : List Stmt) (m : Machine),
    (∀ s ∈ ss, s.Obeys (.low bound) () ∧ s.height ≤ n) → Ample bound n fuel m →
      Agree (inOrder (exec p fuel) ss) (inOrder (exec p fuel') ss) m
  | [], _, _, _ => (pure_definite _).agree
  | s :: ss, m, hs, h => by
    obtain ⟨ho, hn⟩ := hs s (by simp)
    refine (hx s m ho (h.mono hn)).bind fun flow m₁ hflow => ?_
    cases flow with
    | normal => exact inOrder_agree hx ss m₁ (fun s h => hs s (by simp [h])) (h.exec ho hflow)
    | returned v => exact (pure_definite _).agree

/-- A call of a function does the same if the fuel lasts for a body of the highest kind. -/
theorem invoke_agree (hx : ExecAgrees bound p fuel fuel') {f : Function}
    (hf : (Invariant.low bound).Callee m.heap f) (args : List Value)
    (h : Ample bound bound fuel m) :
    Agree (invoke (exec p fuel) f args) (invoke (exec p fuel') f args) m := by
  have frame := Invariant.callFrame_sustains h.holds hf fun v (_ : v ∈ args) => trivial
  obtain ⟨_, hd, -, -⟩ := hf
  have body : ∀ s ∈ f.decl.body, s.Obeys (.low bound) () ∧ s.height ≤ bound := fun s hs =>
    ⟨hd.body s hs, Nat.le_trans (FunDecl.height_body s hs) hd.function⟩
  refine (callFrame_operates f args).definite.agree.bind fun r m₁ hr => ?_
  have h₁ : Ample bound bound fuel m₁ := by
    refine h.follows (frame.ok hr).1 ?_
    cases hr
    rfl
  have inside := inOrder_agree hx f.decl.body { m₁ with frame := r } body ⟨h₁.holds, h₁.room⟩
  exact inside.inFrame.bind fun flow m₂ _ => (callResult_asks f flow).definite.agree

/-- So does a call of a class. -/
theorem construct_agree (hx : ExecAgrees bound p fuel fuel') {ref : ClassRef} {c : Class}
    (hc : m.heap.class? ref = some c) (args : List Value) (h : Ample bound bound fuel m) :
    Agree (construct (exec p fuel) ref c args) (construct (exec p fuel') ref c args) m := by
  refine (onHeap_operates (Heap.newObject_grows ..)).definite.agree.bind fun o m₁ ho => ?_
  cases hi : c.initializer? with
  | none => exact (pure_definite _).agree
  | some f =>
    obtain ⟨holds, -, callee⟩ := h.holds.initializer trivial hc hi
    cases ho
    refine (onHeap_operates (Heap.bind_grows ..)).definite.agree.bind fun bound' m₂ hb => ?_
    cases hb
    have invoked := invoke_agree (m := { m with heap := _ }) hx callee args ⟨holds, h.room⟩
    exact invoked.bind fun _ _ _ => (pure_definite _).agree

/-- So does any call. -/
theorem apply_agree (hx : ExecAgrees bound p fuel fuel') (args : List Value)
    (h : Ample bound bound fuel m) : ∀ {c : Callable}, (Invariant.low bound).Callables m.heap c →
      Agree (apply p.clock (exec p fuel) args c) (apply p.clock (exec p fuel') args c) m
  | .native .clock, _ => ⟨rfl, fun _ h => by cases h⟩
  | .function _, hc => invoke_agree hx hc args h
  | .construct _ _, hc => construct_agree hx hc.2 args h

/-- One step of evaluation does the same with either fuel, if what it refers to does. -/
theorem evalRule_agree (he : EvalAgrees bound p fuel fuel') (hx : ExecAgrees bound p fuel fuel')
    (e : Expr) (m : Machine) (h : Ample bound e.height (fuel + 1) m) :
    Agree (evalRule p (eval p fuel) (exec p fuel) e)
      (evalRule p (eval p fuel') (exec p fuel') e) m := by
  cases e with
  | literal l => cases l <;> exact (pure_definite _).agree
  | grouping inner =>
    rw [Expr.height] at h
    exact he inner m (h.part (by omega))
  | unary op operand =>
    rw [Expr.height] at h
    exact (he operand m (h.part (by omega))).bind fun v _ _ =>
      (applyUnary_asks op v).definite.agree
  | binary left op right =>
    rw [Expr.height] at h
    refine (he left m (h.part (by omega))).bind fun l m₁ hl => ?_
    have h₁ := h.eval hl
    exact (he right m₁ (h₁.part (by omega))).bind fun r _ _ =>
      (applyBinary_asks op l r).definite.agree
  | logical left op right =>
    rw [Expr.height] at h
    refine (he left m (h.part (by omega))).bind fun l m₁ hl => ?_
    have h₁ := h.eval hl
    cases hd : decides op l
    · exact he right m₁ (h₁.part (by omega))
    · exact (pure_definite l).agree
  | ident id name => exact (readName_asks ..).definite.agree
  | receiver id keyword => exact (readName_asks ..).definite.agree
  | assign id name value =>
    rw [Expr.height] at h
    refine (he value m (h.part (by omega))).bind fun v _ _ => ?_
    exact (assignName_operates _ name v).definite.agree.bind fun _ _ _ => (pure_definite v).agree
  | call callee paren args =>
    rw [Expr.height] at h
    refine (he callee m (h.part (by omega))).bind fun f m₁ hf => ?_
    have h₁ := h.eval hf
    refine (each_agree he args m₁ (h₁.part (by omega))).bind fun vs m₂ hvs => ?_
    have all := Invariant.each_sustains ((Invariant.low bound).eval_sustains p fuel) args m₁
      h₁.stands fun e _ => e.obeys_low
    have h₂ := h₁.follows (all.ok hvs).1 ((each_keeps (eval_keeps p fuel) args).ok hvs).calls
    refine (checkCall_asks f vs.length paren).definite.agree.bind fun c m₃ hc => ?_
    obtain ⟨rfl, hcallable, -, hcalls⟩ := of_checkCall hc
    have callable := h₂.holds.callable (v := f) trivial hcallable
    exact (apply_agree hx vs (h₂.call (by omega) hcalls) callable).counted
  | get object name =>
    rw [Expr.height] at h
    refine (he object m (h.part (by omega))).bind fun v _ _ => ?_
    cases v with
    | object o => exact (getProperty_operates o name).definite.agree
    | _ => exact (fail_definite _ _).agree
  | set object name value =>
    rw [Expr.height] at h
    refine (he object m (h.part (by omega))).bind fun v m₁ hv => ?_
    have h₁ := h.eval hv
    cases v with
    | object o =>
      refine (he value m₁ (h₁.part (by omega))).bind fun v _ _ => ?_
      exact (setProperty_operates o name v).definite.agree.bind fun _ _ _ =>
        (pure_definite v).agree
    | _ => exact (fail_definite _ _).agree

/-- One step of execution does the same with either fuel, if what it refers to does. -/
theorem execRule_agree (he : EvalAgrees bound p fuel fuel') (hx : ExecAgrees bound p fuel fuel')
    (s : Stmt) (m : Machine) (ho : s.Obeys (.low bound) ())
    (h : Ample bound s.height (fuel + 1) m) :
    Agree (execRule (eval p fuel) (exec p fuel) s)
      (execRule (eval p fuel') (exec p fuel') s) m := by
  cases s with
  | expression e =>
    rw [Stmt.height] at h
    exact (he e m (h.part (by omega))).bind fun _ _ _ => (pure_definite _).agree
  | print e =>
    rw [Stmt.height] at h
    refine (he e m (h.part (by omega))).bind fun v _ _ => ?_
    exact (print_definite v).agree.bind fun _ _ _ => (pure_definite _).agree
  | var name init =>
    rw [Stmt.height] at h
    refine (orNil_agree he (h.part (by omega))).bind fun v _ _ => ?_
    have define : Definite (define name.lexeme v) := fun _ _ h => by cases h
    exact define.agree.bind fun _ _ _ => (pure_definite _).agree
  | block body =>
    rw [Stmt.height] at h
    rw [Stmt.Obeys, Stmt.obeysList_iff] at ho
    have opens : Definite innerFrame := fun _ _ h => by cases h
    refine opens.agree.bind fun r m₁ hr => ?_
    have h₁ := h.follows ((Invariant.innerFrame_sustains h.stands).ok hr).1 (by cases hr; rfl)
    have inside : ∀ s ∈ body, s.Obeys (.low bound) () ∧ s.height ≤ Stmt.heightList body :=
      fun s hs => ⟨ho s hs, Stmt.height_le_of_mem hs⟩
    have h₂ := h₁.part (k := Stmt.heightList body) (by omega)
    exact (inOrder_agree hx body { m₁ with frame := r } inside ⟨h₂.holds, h₂.room⟩).inFrame
  | branch cond thenB elseB =>
    cases elseB with
    | none =>
      rw [Stmt.height] at h
      rw [Stmt.Obeys] at ho
      refine (he cond m (h.part (by omega))).bind fun v m₁ hv => ?_
      have h₁ := h.eval hv
      cases ht : v.isTruthy
      · exact (pure_definite Flow.normal).agree
      · exact hx thenB m₁ ho.2 (h₁.part (by omega))
    | some elseB =>
      rw [Stmt.height] at h
      rw [Stmt.Obeys] at ho
      refine (he cond m (h.part (by omega))).bind fun v m₁ hv => ?_
      have h₁ := h.eval hv
      cases ht : v.isTruthy
      · exact hx elseB m₁ ho.2.2 (h₁.part (by omega))
      · exact hx thenB m₁ ho.2.1 (h₁.part (by omega))
  | loop cond body =>
    rw [Stmt.Obeys] at ho
    exact ho.1.elim
  | function decl =>
    have declare : Definite (declareFunction decl) := fun _ _ h => by cases h
    exact declare.agree.bind fun _ _ _ => (pure_definite _).agree
  | ret keyword value =>
    rw [Stmt.height] at h
    exact (orNil_agree he (h.part (by omega))).bind fun _ _ _ => (pure_definite _).agree
  | classDecl name methods =>
    have declare : Definite (declareClass name methods) := fun _ _ h => by cases h
    exact declare.agree.bind fun _ _ _ => (pure_definite _).agree

end Ample

/-- Without fuel there is enough for a tree without height only. -/
theorem Ample.pos {bound n : Nat} {m : Machine} (h : Ample bound n 0 m) : n = 0 := by
  have room := h.room
  omega

/-- **Evaluation without loops ends**, and more fuel makes no difference. -/
theorem eval_exec_agree (bound : Nat) (p : Setting) : ∀ {fuel fuel' : Nat}, fuel ≤ fuel' →
    EvalAgrees bound p fuel fuel' ∧ ExecAgrees bound p fuel fuel'
  | 0, _, _ => by
    refine ⟨fun e m h => ?_, fun s m _ h => ?_⟩
    · have := h.pos
      have := Expr.height_pos e
      omega
    · have := h.pos
      have := Stmt.height_pos s
      omega
  | fuel + 1, 0, h => by omega
  | fuel + 1, fuel' + 1, h => by
    obtain ⟨he, hx⟩ := eval_exec_agree bound p (Nat.le_of_succ_le_succ h)
    exact ⟨evalRule_agree he hx, execRule_agree he hx⟩

/-- A program without loops does the same with either fuel, if it lasts for each of its statements.
-/
theorem execProgram_agree {bound fuel fuel' : Nat} (p : Setting) (hle : fuel ≤ fuel') :
    ∀ (ss : List Stmt) (m : Machine), (∀ s ∈ ss, s.Obeys (.low bound) () ∧ s.height ≤ bound) →
      Ample bound bound fuel m → Agree (execProgram p fuel ss) (execProgram p fuel' ss) m
  | [], _, _, _ => (pure_definite _).agree
  | s :: ss, m, hs, h => by
    obtain ⟨ho, hn⟩ := hs s (by simp)
    refine ((eval_exec_agree bound p hle).2 s m ho (h.mono hn)).bind fun flow m₁ hflow => ?_
    exact execProgram_agree p hle ss m₁ (fun s h => hs s (by simp [h])) (h.exec ho hflow)

/-- It does the same with either fuel if its output is handed on behind it. -/
theorem interpret_agree {bound fuel fuel' : Nat} (p : Setting) (hle : fuel ≤ fuel')
    {ss : List Stmt} {m : Machine} (hs : ∀ s ∈ ss, s.Obeys (.low bound) () ∧ s.height ≤ bound)
    (h : Ample bound bound fuel m) : Agree (interpret p fuel ss) (interpret p fuel' ss) m :=
  (execProgram_agree p hle ss m hs h).bind fun _ _ _ => flush_definite.agree

end Eval

end Lox
