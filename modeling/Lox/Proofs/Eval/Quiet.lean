/-
# Expressions that print nothing

Nothing is printed but by statements, and an expression runs statements only in the bodies of the
functions that it calls. As long as no function on the heap has anything in its body, which is so
on a new machine, an expression leaves the sink as it is (`eval_quiet`), and fuel for its height is
all it needs (`eval_of_height`).
-/

import Lox.Proofs.Eval.LoopFree
import Lox.Proofs.Eval.Truncated

namespace Lox

/-- The bodies of all functions on the heap are empty. -/
abbrev Heap.Idle (h : Heap) : Prop := (Invariant.low 0).Holds h

/-- There is no function with a body on a new heap. -/
theorem Heap.idle_initial : Machine.initialHeap.Idle :=
  ⟨fun _ _ h => (by cases h), fun _ _ h => (by cases h), trivial⟩

namespace Eval

variable {α β : Type} {c : Eval α} {f : α → Eval β} {p : Setting} {fuel : Nat} {e : Expr}
  {m m' : Machine}

/-- The computation leaves the sink as it is. -/
def Quiet (c : Eval α) (m : Machine) : Prop := (after c m).sink = m.sink

/-- What has nothing to do with the sink leaves it as it is. -/
theorem Silent.quiet (hc : Silent c) : Quiet c m := by
  have same : after c m = left (c m) := by
    unfold after left
    cases c m <;> rfl
  rw [Quiet, same, hc.sink]

/-- Computations one behind the other leave the sink if both parts do. -/
theorem Quiet.bind (hc : Quiet c m) (hf : ∀ a m₁, c m = .ok a m₁ → Quiet (f a) m₁) :
    Quiet (c >>= f) m := by
  cases h : c m with
  | ok a m₁ =>
    have first : m₁.sink = m.sink := after_ok h ▸ hc
    have rest : (after (f a) m₁).sink = m₁.sink := hf a m₁ h
    rw [Quiet, after, bind_of_ok h, ← first, ← rest, after]
  | error x m₁ =>
    have first : m₁.sink = m.sink := after_error h ▸ hc
    rw [Quiet, after_error (bind_of_error h), first]

/-- The sink is left in any frame. -/
theorem Quiet.inFrame {r : FrameRef} (hc : Quiet c { m with frame := r }) :
    Quiet (Eval.inFrame r c) m := by
  unfold Quiet after at hc ⊢
  unfold Eval.inFrame
  cases h : c { m with frame := r } <;> rw [h] at hc <;> exact hc

/-- The sink is left in a call. -/
theorem Quiet.counted (hc : Quiet c { m with calls := m.calls + 1 }) :
    Quiet (Eval.counted c) m := by
  unfold Quiet after at hc ⊢
  unfold Eval.counted
  cases h : c { m with calls := m.calls + 1 } <;> rw [h] at hc <;> exact hc

/-! ## Calls -/

/-- A call of a function with an empty body leaves the sink. -/
theorem invoke_quiet {exec : Stmt → Eval Flow} {fn : Function}
    (hf : (Invariant.low 0).Callee m.heap fn) (args : List Value) :
    Quiet (invoke exec fn args) m := by
  obtain ⟨_, hd, -, -⟩ := hf
  have empty : fn.decl.body = [] := by
    refine List.eq_nil_iff_forall_not_mem.2 fun s hs => ?_
    have low : s.height ≤ 0 := Nat.le_trans (FunDecl.height_body s hs) hd.function
    exact absurd s.height_pos (Nat.not_lt.2 low)
  refine (callFrame_operates fn args).silent.quiet.bind fun r m₁ _ => ?_
  rw [empty]
  exact (pure_silent Flow.normal).quiet.inFrame.bind fun flow m₂ _ =>
    (callResult_asks fn flow).silent.quiet

/-- So does a call of a class. -/
theorem construct_quiet {exec : Stmt → Eval Flow} {ref : ClassRef} {cls : Class} (hm : m.heap.Idle)
    (hc : m.heap.class? ref = some cls) (args : List Value) :
    Quiet (construct exec ref cls args) m := by
  refine (onHeap_operates (Heap.newObject_grows ..)).silent.quiet.bind fun o m₁ ho => ?_
  cases hi : cls.initializer? with
  | none => exact (pure_silent _).quiet
  | some fn =>
    obtain ⟨-, -, callee⟩ := hm.initializer trivial hc hi
    cases ho
    refine (onHeap_operates (Heap.bind_grows ..)).silent.quiet.bind fun bound m₂ hb => ?_
    cases hb
    exact (invoke_quiet callee args).bind fun _ _ _ => (pure_silent _).quiet

/-- So does any call. -/
theorem apply_quiet {exec : Stmt → Eval Flow} (clock : Nat → Float) (hm : m.heap.Idle)
    (args : List Value) : ∀ {c : Callable}, (Invariant.low 0).Callables m.heap c →
      Quiet (apply clock exec args c) m
  | .native .clock, _ => rfl
  | .function _, hc => invoke_quiet hc args
  | .construct _ _, hc => construct_quiet hm hc.2 args

/-! ## Expressions -/

/-- Behind an expression all bodies are still empty. -/
theorem idle_of_eval (hm : m.heap.Idle) {v : Value} (he : Eval.eval p fuel e m = .ok v m') :
    m'.heap.Idle :=
  (((Invariant.low 0).eval_sustains p fuel e () m ⟨hm, trivial⟩ e.obeys_low).ok he).1.holds

/-- So they are behind several of them. -/
theorem idle_of_each (hm : m.heap.Idle) {es : List Expr} {vs : List Value}
    (he : Eval.each (Eval.eval p fuel) es m = .ok vs m') : m'.heap.Idle :=
  ((Invariant.each_sustains ((Invariant.low 0).eval_sustains p fuel) es m ⟨hm, trivial⟩
    fun e _ => e.obeys_low).ok he).1.holds

/-- Expressions one after the other leave the sink if each does. -/
theorem each_quiet (he : ∀ e m, m.heap.Idle → Quiet (eval p fuel e) m) :
    ∀ (es : List Expr) {m : Machine}, m.heap.Idle → Quiet (each (eval p fuel) es) m
  | [], _, _ => (pure_silent _).quiet
  | e :: es, m, hm => (he e m hm).bind fun _ _ hv =>
    (each_quiet he es (idle_of_eval hm hv)).bind fun _ _ _ => (pure_silent _).quiet

/-- One step of evaluation leaves the sink, if what it refers to does. -/
theorem evalRule_quiet (he : ∀ e m, m.heap.Idle → Quiet (eval p fuel e) m) (e : Expr)
    {m : Machine} (hm : m.heap.Idle) : Quiet (evalRule p (eval p fuel) (exec p fuel) e) m := by
  cases e with
  | literal l => cases l <;> exact (pure_silent _).quiet
  | grouping inner => exact he inner m hm
  | unary op operand =>
    exact (he operand m hm).bind fun v _ _ => (applyUnary_asks op v).silent.quiet
  | binary left op right =>
    exact (he left m hm).bind fun l m₁ hl => (he right m₁ (idle_of_eval hm hl)).bind fun r _ _ =>
      (applyBinary_asks op l r).silent.quiet
  | logical left op right =>
    refine (he left m hm).bind fun l m₁ hl => ?_
    cases decides op l
    · exact he right m₁ (idle_of_eval hm hl)
    · exact (pure_silent l).quiet
  | ident id name => exact (readName_asks _ _ name).silent.quiet
  | receiver id keyword => exact (readName_asks _ _ keyword).silent.quiet
  | assign id name value =>
    refine (he value m hm).bind fun v _ _ => ?_
    exact (assignName_operates _ name v).silent.quiet.bind fun _ _ _ => (pure_silent v).quiet
  | call callee paren args =>
    refine (he callee m hm).bind fun f m₁ hf => ?_
    have h₁ := idle_of_eval hm hf
    refine (each_quiet he args h₁).bind fun vs m₂ hvs => ?_
    have h₂ := idle_of_each h₁ hvs
    refine (checkCall_asks f vs.length paren).silent.quiet.bind fun c m₃ hc => ?_
    obtain ⟨rfl, hcallable, -, -⟩ := of_checkCall hc
    have callable := h₂.callable (v := f) trivial hcallable
    exact .counted (apply_quiet p.clock (m := { m₃ with calls := m₃.calls + 1 }) h₂ vs callable)
  | get object name =>
    refine (he object m hm).bind fun v _ _ => ?_
    cases v with
    | object o => exact (getProperty_operates o name).silent.quiet
    | _ => exact (fail_silent _ _).quiet
  | set object name value =>
    refine (he object m hm).bind fun v m₁ hv => ?_
    cases v with
    | object o => exact (he value m₁ (idle_of_eval hm hv)).bind fun v _ _ => rfl
    | _ => exact (fail_silent _ _).quiet

/-- **Where all bodies are empty, expressions print nothing**, whatever their end. -/
theorem eval_quiet (p : Setting) : ∀ fuel e {m : Machine}, m.heap.Idle → Quiet (eval p fuel e) m
  | 0, _, _, _ => rfl
  | fuel + 1, e, _, hm => evalRule_quiet (fun e _ hm => eval_quiet p fuel e hm) e hm

/-- Where all bodies are empty, fuel for the height of an expression is all it needs. -/
theorem eval_of_height (p : Setting) (hm : m.heap.Idle) (hf : e.height ≤ fuel) :
    eval p fuel e m = eval p e.height e m ∧ ∀ m', eval p e.height e m ≠ .error .outOfFuel m' := by
  have ample : Ample 0 e.height e.height m := ⟨hm, by simp⟩
  obtain ⟨same, ends⟩ := (eval_exec_agree 0 p hf).1 e m ample
  exact ⟨same, ends⟩

end Eval
end Lox
