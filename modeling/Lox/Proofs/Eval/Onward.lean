/-
# Invariants on the way

An invariant holds at all that evaluation comes to on its way (`Invariant.visits`), not only at its
end. And whatever a running program comes to, it goes on from there to its end: the heap that a part
of a task leaves is followed by the heap that the whole task leaves (`Invariant.starts_onward`), and
so is every heap that it comes to (`Invariant.visits_onward`, `Invariant.programVisits`).
-/

import Lox.Proofs.Eval.Invariant
import Lox.Proofs.Eval.Visits

namespace Lox

/-- The machine that running the task leaves, however it ends. -/
def Task.after (p : Setting) (fuel : Nat) : Task → Machine → Machine
  | .eval e, m => Eval.after (Eval.eval p fuel e) m
  | .exec s, m => Eval.after (Eval.exec p fuel s) m

namespace Invariant

variable {κ : Type}

/-! ## What evaluation comes to -/

section Visits

variable {I : Invariant κ} {p : Setting} {fuel : Nat} {m m' : Machine}

variable (I) in
/-- The task stands where it can run. -/
def Fits : Task → Machine → Prop
  | .eval e, m => ∃ k, I.Stands k m ∧ e.Obeys I.rules k
  | .exec s, m => ∃ k, I.Stands k m ∧ s.Obeys I.rules k

/-- What a task leaves is later than where it started. -/
theorem Fits.after (p : Setting) (fuel : Nat) : ∀ {t : Task}, I.Fits t m →
    I.leads m.heap (t.after p fuel m).heap
  | .eval e, ⟨k, hs, ho⟩ => (I.eval_sustains p fuel e k m hs ho).1.leads
  | .exec s, ⟨k, hs, ho⟩ => (I.exec_sustains p fuel s k m hs ho).1.leads

/-- What a call enters is later, and its body stands where it can run. -/
theorem enters (hm : I.Holds m.heap) {args : List Value} (ha : ∀ v ∈ args, I.value m.heap v)
    {c : Callable} (hc : I.Callables m.heap c) {body : List Stmt}
    (h : Eval.Enters args c m body m') :
    I.leads m.heap m'.heap ∧ ∃ k, I.Stands k m' ∧ ∀ s ∈ body, s.Obeys I.rules k := by
  cases h with
  | @function f _ m₁ r hf =>
    obtain ⟨hm₁, k, hr, hbody⟩ := (callFrame_sustains hm hc ha).ok hf
    exact ⟨hm₁.leads, k, ⟨hm₁.holds, hr⟩, hbody⟩
  | @construct ref c f bound o _ m₁ m₂ m₃ r hi ho hb hf =>
    obtain ⟨hh, hl, hcallee⟩ := hm.initializer hc.1 hc.2 hi
    cases ho
    cases hb
    have args' : ∀ v ∈ args, I.value _ v := fun v hv => I.value_leads hl (ha v hv)
    obtain ⟨hm₃, k, hr, hbody⟩ := (callFrame_sustains hh hcallee args').ok hf
    exact ⟨I.leads_trans hl hm₃.leads, k, ⟨hm₃.holds, hr⟩, hbody⟩

/-- Behind the statements before it a statement stands where it can run. -/
theorem inOrder_fits {k : κ} {pre post : List Stmt} {s : Stmt} (hs : I.Stands k m)
    (ho : ∀ s' ∈ pre ++ s :: post, s'.Obeys I.rules k)
    (h : Eval.inOrder (Eval.exec p fuel) pre m = .ok .normal m') :
    I.leads m.heap m'.heap ∧ I.Fits (.exec s) m' := by
  have hpre := inOrder_sustains (I.exec_sustains p fuel) pre m hs fun s' h => ho s' (by simp [h])
  obtain ⟨hm, -⟩ := hpre.ok h
  exact ⟨hm.leads, k, hs.follows hm, ho s (by simp)⟩

/-- What a task starts stands where it can run. -/
theorem starts {t t' : Task} (h : Eval.Starts p fuel t m t' m') (ht : I.Fits t m) :
    I.leads m.heap m'.heap ∧ I.Fits t' m' := by
  have he := I.eval_sustains p fuel
  have hx := I.exec_sustains p fuel
  cases t with
  | eval e =>
    obtain ⟨k, hs, ho⟩ := ht
    cases h with
    | grouping | operand | left | first | assigned | callee | getObject | setObject =>
      exact ⟨I.leads_refl _, k, hs, ho.part (by simp [Expr.names])⟩
    | right hl | second hl | setValue hl =>
      obtain ⟨hm, -⟩ := (he _ k m hs (ho.part (by simp [Expr.names]))).ok hl
      exact ⟨hm.leads, k, hs.follows hm, ho.part (by simp [Expr.names])⟩
    | @argument _ m₁ _ callee paren pre e post f vs hf hv =>
      obtain ⟨hm₁, -⟩ := (he _ k m hs (ho.part (by simp [Expr.names]))).ok hf
      have before := each_sustains he pre m₁ (hs.follows hm₁) fun e h => ho.argument e (by simp [h])
      obtain ⟨hm₂, -⟩ := before.ok hv
      exact ⟨(hm₁.trans hm₂).leads, k, hs.follows (hm₁.trans hm₂), ho.argument _ (by simp)⟩
    | @body _ m₁ m₂ m₃ m₄ m₅ callee paren args f vs c pre s post hf hv hc hb hpre =>
      obtain ⟨hm₃, hcallable, hvs⟩ := called he hs ho hf hv hc
      obtain ⟨hl₄, k₄, hs₄, hbody⟩ := enters (m := { m₃ with calls := m₃.calls + 1 }) hm₃.holds hvs
        hcallable hb
      obtain ⟨hl₅, hfits⟩ := inOrder_fits hs₄ hbody hpre
      exact ⟨I.leads_trans hm₃.leads (I.leads_trans hl₄ hl₅), hfits⟩
  | exec s =>
    obtain ⟨k, hs, ho⟩ := ht
    cases h with
    | expression | print =>
      rw [Stmt.Obeys] at ho
      exact ⟨I.leads_refl _, k, hs, ho⟩
    | initializer =>
      rw [Stmt.Obeys] at ho
      exact ⟨I.leads_refl _, k, hs, ho.2 _ rfl⟩
    | @inner _ m₁ _ pre s post r hf hpre =>
      rw [Stmt.Obeys, Stmt.obeysList_iff] at ho
      obtain ⟨hm₁, hr⟩ := (innerFrame_sustains hs).ok hf
      obtain ⟨hl, hfits⟩ := inOrder_fits (m := { m₁ with frame := r }) ⟨hm₁.holds, hr⟩ ho hpre
      exact ⟨I.leads_trans hm₁.leads hl, hfits⟩
    | @condition _ cond thenB elseB =>
      cases elseB <;> rw [Stmt.Obeys] at ho <;> exact ⟨I.leads_refl _, k, hs, ho.1⟩
    | @thenBranch _ _ cond thenB elseB v hc hv =>
      obtain ⟨hcond, hthen⟩ : cond.Obeys I.rules k ∧ thenB.Obeys I.rules k := by
        cases elseB <;> rw [Stmt.Obeys] at ho
        · exact ho
        · exact ⟨ho.1, ho.2.1⟩
      obtain ⟨hm, -⟩ := (he _ k m hs hcond).ok hc
      exact ⟨hm.leads, k, hs.follows hm, hthen⟩
    | elseBranch hc hv =>
      rw [Stmt.Obeys] at ho
      obtain ⟨hm, -⟩ := (he _ k m hs ho.1).ok hc
      exact ⟨hm.leads, k, hs.follows hm, ho.2.2⟩
    | guard =>
      rw [Stmt.Obeys] at ho
      exact ⟨I.leads_refl _, k, hs, ho.2.1⟩
    | round hc hv =>
      rw [Stmt.Obeys] at ho
      obtain ⟨hm, -⟩ := (he _ k m hs ho.2.1).ok hc
      exact ⟨hm.leads, k, hs.follows hm, ho.2.2⟩
    | again hc hv hb =>
      have ho' := ho
      rw [Stmt.Obeys] at ho'
      obtain ⟨hm₁, -⟩ := (he _ k m hs ho'.2.1).ok hc
      obtain ⟨hm₂, -⟩ := (hx _ k _ (hs.follows hm₁) ho'.2.2).ok hb
      exact ⟨(hm₁.trans hm₂).leads, k, hs.follows (hm₁.trans hm₂), ho⟩
    | returned =>
      rw [Stmt.Obeys] at ho
      exact ⟨I.leads_refl _, k, hs, ho _ rfl⟩

/-- **An invariant holds at everything that evaluation comes to.** -/
theorem visits {t t' : Task} (h : Eval.Visits p fuel t m t' m') (ht : I.Fits t m) :
    I.leads m.heap m'.heap ∧ I.Fits t' m' := by
  induction h with
  | self => exact ⟨I.leads_refl _, ht⟩
  | part hs _ ih =>
    obtain ⟨hl, ht₁⟩ := starts hs ht
    obtain ⟨hl', ht'⟩ := ih ht₁
    exact ⟨I.leads_trans hl hl', ht'⟩

end Visits

/-! ## What it goes on to -/

variable {I : Invariant κ} {k : κ} {x m m₁ m₂ : Machine}

/-! ### Computations -/

section Computations

variable {α β : Type} {c : Eval α} {f : α → Eval β}

variable (I) in
/-- The computation goes on from `x`: what it leaves is later. -/
def Passes (x : Machine) (c : Eval α) (m : Machine) : Prop := I.leads x.heap (Eval.after c m).heap

/-- A computation that keeps the invariant goes on from where it started. -/
theorem Sustains.passes {mid : α → Heap → Prop} (h : I.Sustains c mid m) : I.Passes m c m :=
  h.1.leads

/-- A computation goes on from what it leaves. -/
theorem Passes.self : I.Passes (Eval.after c m) c m := I.leads_refl _

/-- To return a value leaves the machine. -/
theorem Passes.pure (a : α) : I.Passes m (Pure.pure a) m := I.leads_refl _

/-- Where the first of two computations leaves a machine, the second goes on. -/
theorem Passes.bind (h : I.Passes x c m)
    (hf : ∀ a m₁, c m = .ok a m₁ → I.Passes m₁ (f a) m₁) : I.Passes x (c >>= f) m := by
  unfold Passes at h hf ⊢
  change I.leads x.heap (Eval.after (EStateM.bind c f) m).heap
  cases hc : c m with
  | ok a m₁ =>
    rw [Eval.after_ok hc] at h
    have rest := hf a m₁ hc
    simp only [Eval.after, EStateM.bind, hc] at rest ⊢
    exact I.leads_trans h rest
  | error e m₁ =>
    rw [Eval.after_error hc] at h
    simpa only [Eval.after, EStateM.bind, hc] using h

/-- What goes on after a computation that keeps the invariant may rely on it. -/
theorem Sustains.onward {mid : α → Heap → Prop} (hc : I.Sustains c mid m) (hx : I.Passes x c m)
    (hf : ∀ a m₁, I.Follows m m₁ → mid a m₁.heap → I.Passes m₁ (f a) m₁) :
    I.Passes x (c >>= f) m :=
  hx.bind fun a m₁ h => hf a m₁ (hc.ok h).1 (hc.ok h).2

/-- The first part is over when the computation comes to `x`. -/
theorem Passes.past {a : α} (hc : c m = .ok a m₁) (h : I.Passes x (f a) m₁) :
    I.Passes x (c >>= f) m := by
  unfold Passes Eval.after at h ⊢
  rwa [Eval.bind_of_ok hc]

/-- What a computation goes on from in a frame it goes on from. -/
theorem Passes.inFrame {r : FrameRef} (h : I.Passes x c { m with frame := r }) :
    I.Passes x (Eval.inFrame r c) m := by
  unfold Passes Eval.after at h ⊢
  unfold Eval.inFrame
  cases hc : c { m with frame := r } <;> simpa only [hc] using h

/-- What a call goes on from with one call more in progress it goes on from. -/
theorem Passes.counted (h : I.Passes x c { m with calls := m.calls + 1 }) :
    I.Passes x (Eval.counted c) m := by
  unfold Passes Eval.after at h ⊢
  unfold Eval.counted
  cases hc : c { m with calls := m.calls + 1 } <;> simpa only [hc] using h

end Computations

/-! ### Operations -/

section Operations

variable {eval : Expr → Eval Value} {exec : Stmt → Eval Flow} {s : Stmt} {pre post : List Stmt}

/-- A list goes on from what one of its expressions goes on from. -/
theorem each_passes (he : I.EvalSustains eval) {e : Expr} {after : List Expr} :
    ∀ {before : List Expr} {m : Machine} {vs : List Value}, I.Stands k m →
      (∀ e' ∈ before ++ e :: after, e'.Obeys I.rules k) →
      Eval.each eval before m = .ok vs m₁ → I.Passes x (eval e) m₁ →
        I.Passes x (Eval.each eval (before ++ e :: after)) m
  | [], _, _, hs, ho, hpre, h => by
    cases hpre
    refine (he e k m₁ hs (ho e (by simp))).onward h fun v m₂ hm₂ _ => ?_
    have rest := each_sustains he after m₂ (hs.follows hm₂) fun e' h => ho e' (by simp [h])
    exact rest.passes.bind fun _ _ _ => .pure _
  | e' :: before, m, _, hs, ho, hpre, h => by
    obtain ⟨v, m₂, hv, hpre⟩ := Eval.ok_of_bind hpre
    obtain ⟨vs, m₃, hvs, hpre⟩ := Eval.ok_of_bind hpre
    cases hpre
    have hm₂ := ((he e' k m hs (ho e' (by simp))).ok hv).1
    have rest := each_passes he (hs.follows hm₂) (fun e h => ho e (List.mem_cons_of_mem _ h)) hvs h
    exact .past hv (rest.bind fun _ _ _ => .pure _)

/-- Statements go on from what one of them goes on from. -/
theorem inOrder_passes (hx : I.ExecSustains exec) : ∀ {pre : List Stmt} {m : Machine},
    I.Stands k m → (∀ s' ∈ pre ++ s :: post, s'.Obeys I.rules k) →
      Eval.inOrder exec pre m = .ok .normal m₁ → I.Passes x (exec s) m₁ →
        I.Passes x (Eval.inOrder exec (pre ++ s :: post)) m
  | [], _, hs, ho, hpre, h => by
    cases hpre
    refine (hx s k m₁ hs (ho s (by simp))).onward h fun flow m₂ hm₂ _ => ?_
    cases flow with
    | normal =>
      exact (inOrder_sustains hx post m₂ (hs.follows hm₂) fun s' h => ho s' (by simp [h])).passes
    | returned v => exact .pure _
  | s' :: pre, m, hs, ho, hpre, h => by
    obtain ⟨flow, m₂, hflow, hpre⟩ := Eval.ok_of_bind hpre
    cases flow with
    | normal =>
      have hm₂ := ((hx s' k m hs (ho s' (by simp))).ok hflow).1
      exact .past hflow (inOrder_passes hx (hs.follows hm₂)
        (fun s h => ho s (List.mem_cons_of_mem _ h)) hpre h)
    | returned v => cases hpre

/-- A call of a function goes on from what a statement of its body goes on from. -/
theorem invoke_passes (hx : I.ExecSustains exec) (hm : I.Holds m.heap) {f : Function}
    (hf : I.Callee m.heap f) {args : List Value} (ha : ∀ v ∈ args, I.value m.heap v) {r : FrameRef}
    (hr : Eval.callFrame f args m = .ok r m₁) (hb : f.decl.body = pre ++ s :: post)
    (hpre : Eval.inOrder exec pre { m₁ with frame := r } = .ok .normal m₂)
    (h : I.Passes x (exec s) m₂) : I.Passes x (Eval.invoke exec f args) m := by
  obtain ⟨hm₁, k, hframe, hbody⟩ := (callFrame_sustains hm hf ha).ok hr
  have stands : I.Stands k { m₁ with frame := r } := ⟨hm₁.holds, hframe⟩
  have inside := inOrder_passes hx stands (hb ▸ hbody) hpre h
  rw [← hb] at inside
  have body := (inOrder_sustains hx f.decl.body _ stands hbody).inFrame
  exact .past hr (body.onward inside.inFrame fun flow m₃ hm₃ hresult =>
    (callResult_sustains hm₃.holds f hresult).passes)

/-- So does any call. -/
theorem apply_passes (clock : Nat → Float) (hx : I.ExecSustains exec) (hm : I.Holds m.heap)
    {args : List Value} (ha : ∀ v ∈ args, I.value m.heap v) {c : Callable}
    (hc : I.Callables m.heap c) (hb : Eval.Enters args c m (pre ++ s :: post) m₁)
    (hpre : Eval.inOrder exec pre m₁ = .ok .normal m₂) (h : I.Passes x (exec s) m₂) :
    I.Passes x (Eval.apply clock exec args c) m := by
  generalize hbody : pre ++ s :: post = body at hb
  cases hb with
  | function hf => exact invoke_passes hx hm hc ha hf hbody.symm hpre h
  | @construct ref c f bound o _ m₃ m₄ m₅ r hi ho hbind hf =>
    obtain ⟨hh, hl, hcallee⟩ := hm.initializer hc.1 hc.2 hi
    cases ho
    cases hbind
    have args' : ∀ v ∈ args, I.value _ v := fun v hv => I.value_leads hl (ha v hv)
    have inside := invoke_passes (m := { m with heap := _ }) hx hh hcallee args' hf hbody.symm
      hpre h
    refine .past rfl ?_
    rw [hi]
    exact .past rfl (inside.bind fun _ _ _ => .pure _)

end Operations

/-! ### Tasks -/

section Tasks

variable {p : Setting} {fuel : Nat} {m' : Machine}

/-- What an expression starts is followed by what the expression leaves. -/
theorem evalStarts_onward {e : Expr} {t' : Task} (h : Eval.Starts p fuel (.eval e) m t' m')
    (hs : I.Stands k m) (ho : e.Obeys I.rules k) :
    I.leads (t'.after p fuel m').heap (Eval.after (Eval.eval p (fuel + 1) e) m).heap := by
  have he := I.eval_sustains p fuel
  have hx := I.exec_sustains p fuel
  cases h with
  | grouping => exact I.leads_refl _
  | @operand _ op e =>
    have first := he e k m hs (ho.part (by simp [Expr.names]))
    exact first.onward .self fun v m₁ hm₁ _ => (applyUnary_sustains hm₁.holds op v).passes
  | @left _ l op r =>
    have first := he l k m hs (ho.part (by simp [Expr.names]))
    refine first.onward .self fun v m₁ hm₁ _ => ?_
    have second := he r k m₁ (hs.follows hm₁) (ho.part (by simp [Expr.names]))
    exact second.onward second.passes fun w m₂ hm₂ _ =>
      (applyBinary_sustains hm₂.holds op v w).passes
  | @right _ m₁ l op r v hl =>
    have hm₁ := ((he l k m hs (ho.part (by simp [Expr.names]))).ok hl).1
    have second := he r k m' (hs.follows hm₁) (ho.part (by simp [Expr.names]))
    exact Passes.past hl (second.onward .self fun w m₂ hm₂ _ =>
      (applyBinary_sustains hm₂.holds op v w).passes)
  | @first _ l op r =>
    have first := he l k m hs (ho.part (by simp [Expr.names]))
    refine first.onward .self fun v m₁ hm₁ _ => ?_
    cases Eval.decides op v
    · exact (he r k m₁ (hs.follows hm₁) (ho.part (by simp [Expr.names]))).passes
    · exact .pure _
  | second hl hd =>
    refine Passes.past hl ?_
    rw [hd]
    exact .self
  | @assigned _ id name e =>
    have hn : I.rules.name name.lexeme := I.assigned (ho ⟨.write, id, name⟩ (by simp [Expr.names]))
    have first := he e k m hs (ho.part (by simp [Expr.names]))
    exact first.onward .self fun v m₁ hm₁ hv =>
      (assignName_sustains hm₁.holds _ hv hn).passes.bind fun _ _ _ => .pure _
  | @callee _ e paren args =>
    have first := he e k m hs (ho.part (by simp [Expr.names]))
    exact first.onward .self fun f m₁ hm₁ hf =>
      (calling_sustains p he hx (hs.follows hm₁) hf paren ho.argument).passes
  | @argument _ m₁ _ callee paren pre e post f vs hf hv =>
    obtain ⟨hm₁, hf₁⟩ := (he callee k m hs (ho.part (by simp [Expr.names]))).ok hf
    have hs₁ := hs.follows hm₁
    have values := each_sustains he (pre ++ e :: post) m₁ hs₁ ho.argument
    exact Passes.past hf (values.onward (each_passes he hs₁ ho.argument hv .self)
      fun us m₂ hm₂ hus =>
        (checked_sustains p.clock hx hm₂.holds (I.value_leads hm₂.leads hf₁) paren hus).passes)
  | @body _ m₁ m₂ m₃ m₄ m₅ callee paren args f vs c pre s post hf hv hc hb hpre =>
    obtain ⟨hm₃, hcallable, hvs⟩ := called he hs ho hf hv hc
    have inside := apply_passes (m := { m₃ with calls := m₃.calls + 1 }) p.clock hx hm₃.holds hvs
      hcallable hb hpre .self
    exact Passes.past hf (.past hv (.past hc inside.counted))
  | @getObject _ e name =>
    have first := he e k m hs (ho.part (by simp [Expr.names]))
    refine first.onward .self fun v m₁ hm₁ hv => ?_
    cases v with
    | object o => exact (getProperty_sustains hm₁.holds hv name).passes
    | _ => exact I.leads_refl _
  | @setObject _ e name value =>
    have first := he e k m hs (ho.part (by simp [Expr.names]))
    refine first.onward .self fun v m₁ hm₁ _ => ?_
    cases v with
    | object o =>
      have second := he value k m₁ (hs.follows hm₁) (ho.part (by simp [Expr.names]))
      exact second.onward second.passes fun w m₂ hm₂ hw =>
        (setProperty_sustains hm₂.holds o name hw).passes.bind fun _ _ _ => .pure _
    | _ => exact I.leads_refl _
  | @setValue _ _ e name value o hv =>
    have hm₁ := ((he e k m hs (ho.part (by simp [Expr.names]))).ok hv).1
    have second := he value k m' (hs.follows hm₁) (ho.part (by simp [Expr.names]))
    exact Passes.past hv (second.onward .self fun w m₂ hm₂ hw =>
      (setProperty_sustains hm₂.holds o name hw).passes.bind fun _ _ _ => .pure _)

/-- What a statement starts is followed by what the statement leaves. -/
theorem execStarts_onward {s : Stmt} {t' : Task} (h : Eval.Starts p fuel (.exec s) m t' m')
    (hs : I.Stands k m) (ho : s.Obeys I.rules k) :
    I.leads (t'.after p fuel m').heap (Eval.after (Eval.exec p (fuel + 1) s) m).heap := by
  have he := I.eval_sustains p fuel
  have hx := I.exec_sustains p fuel
  cases h with
  | expression => exact Passes.self.bind fun _ _ _ => .pure _
  | @print _ e =>
    rw [Stmt.Obeys] at ho
    exact (he e k m hs ho).onward .self fun v m₁ hm₁ _ =>
      (print_sustains hm₁.holds v).passes.bind fun _ _ _ => .pure _
  | @initializer _ name e =>
    rw [Stmt.Obeys] at ho
    exact (he e k m hs (ho.2 e rfl)).onward .self fun v m₁ hm₁ hv =>
      (define_sustains hm₁.holds ho.1 hv).passes.bind fun _ _ _ => .pure _
  | @inner _ m₁ _ pre s post r hf hpre =>
    rw [Stmt.Obeys, Stmt.obeysList_iff] at ho
    obtain ⟨hm₁, hr⟩ := (innerFrame_sustains hs).ok hf
    have inside := inOrder_passes (m := { m₁ with frame := r }) hx ⟨hm₁.holds, hr⟩ ho hpre .self
    exact Passes.past hf inside.inFrame
  | @condition _ cond thenB elseB =>
    cases elseB with
    | none =>
      rw [Stmt.Obeys] at ho
      refine (he cond k m hs ho.1).onward .self fun v m₁ hm₁ _ => ?_
      cases v.isTruthy
      · exact .pure _
      · exact (hx thenB k m₁ (hs.follows hm₁) ho.2).passes
    | some elseB =>
      rw [Stmt.Obeys] at ho
      refine (he cond k m hs ho.1).onward .self fun v m₁ hm₁ _ => ?_
      cases v.isTruthy
      · exact (hx elseB k m₁ (hs.follows hm₁) ho.2.2).passes
      · exact (hx thenB k m₁ (hs.follows hm₁) ho.2.1).passes
  | thenBranch hc hv | elseBranch hc hv =>
    refine Passes.past hc ?_
    rw [hv]
    exact .self
  | @guard _ cond body =>
    have again := ho
    rw [Stmt.Obeys] at ho
    refine (he cond k m hs ho.2.1).onward .self fun v m₁ hm₁ _ => ?_
    have hs₁ := hs.follows hm₁
    cases v.isTruthy
    · exact .pure _
    · have round := hx body k m₁ hs₁ ho.2.2
      refine round.onward round.passes fun flow m₂ hm₂ _ => ?_
      cases flow with
      | normal => exact (hx _ k m₂ (hs₁.follows hm₂) again).passes
      | returned v => exact .pure _
  | @round _ _ cond body v hc hv =>
    have again := ho
    rw [Stmt.Obeys] at ho
    have hs₁ := hs.follows ((he cond k m hs ho.2.1).ok hc).1
    refine Passes.past hc ?_
    rw [hv]
    refine (hx body k m' hs₁ ho.2.2).onward .self fun flow m₂ hm₂ _ => ?_
    cases flow with
    | normal => exact (hx _ k m₂ (hs₁.follows hm₂) again).passes
    | returned v => exact .pure _
  | again hc hv hb =>
    refine Passes.past hc ?_
    rw [hv]
    exact Passes.past hb .self
  | returned => exact Passes.self.bind fun _ _ _ => .pure _

/-- What a task starts is followed by what the task leaves. -/
theorem starts_onward {t t' : Task} (h : Eval.Starts p fuel t m t' m') (ht : I.Fits t m) :
    I.leads (t'.after p fuel m').heap (t.after p (fuel + 1) m).heap := by
  cases t with
  | eval e =>
    obtain ⟨k, hs, ho⟩ := ht
    exact evalStarts_onward h hs ho
  | exec s =>
    obtain ⟨k, hs, ho⟩ := ht
    exact execStarts_onward h hs ho

/-- **Evaluation goes on from everything that it comes to.** -/
theorem visits_onward {t t' : Task} (h : Eval.Visits p fuel t m t' m') (ht : I.Fits t m) :
    I.leads m'.heap (t.after p fuel m).heap := by
  induction h with
  | self => exact ht.after p _
  | part hs _ ih => exact I.leads_trans (ih (starts hs ht).2) (starts_onward hs ht)

/-! ### Programs -/

/-- A program goes on from what one of its statements goes on from. -/
theorem execProgram_passes {s : Stmt} {post : List Stmt} : ∀ {pre : List Stmt} {m : Machine},
    I.Stands k m → (∀ s' ∈ pre ++ s :: post, s'.Obeys I.rules k) →
      Eval.execProgram p fuel pre m = .ok () m₁ → I.Passes x (Eval.exec p fuel s) m₁ →
        I.Passes x (Eval.execProgram p fuel (pre ++ s :: post)) m
  | [], _, hs, ho, hpre, h => by
    cases hpre
    refine (I.exec_sustains p fuel s k m₁ hs (ho s (by simp))).onward h fun _ m₂ hm₂ _ => ?_
    exact (execProgram_sustains p fuel post m₂ (hs.follows hm₂) fun s' h =>
      ho s' (by simp [h])).passes
  | s' :: pre, m, hs, ho, hpre, h => by
    obtain ⟨_, m₂, hflow, hpre⟩ := Eval.ok_of_bind hpre
    have hm₂ := ((I.exec_sustains p fuel s' k m hs (ho s' (by simp))).ok hflow).1
    exact .past hflow (execProgram_passes (hs.follows hm₂)
      (fun s h => ho s (List.mem_cons_of_mem _ h)) hpre h)

/-- What a program comes to stands where it can run, after the start and before the end. -/
theorem programVisits {statements : List Stmt} {t : Task} (hs : I.Stands k m)
    (ho : ∀ s ∈ statements, s.Obeys I.rules k)
    (h : Eval.ProgramVisits p fuel statements m t m') :
    I.Fits t m' ∧ I.leads m.heap m'.heap ∧
      I.leads m'.heap (Eval.after (Eval.execProgram p fuel statements) m).heap := by
  obtain ⟨pre, s, post, m₁, rfl, hpre, hv⟩ := h
  obtain ⟨hm₁, -⟩ := (execProgram_sustains p fuel pre m hs fun s' h => ho s' (by simp [h])).ok hpre
  have start : I.Fits (.exec s) m₁ := ⟨k, hs.follows hm₁, ho s (by simp)⟩
  obtain ⟨hl, ht⟩ := visits hv start
  have first : I.leads m'.heap (Eval.after (Eval.exec p fuel s) m₁).heap := visits_onward hv start
  exact ⟨ht, I.leads_trans hm₁.leads hl, execProgram_passes hs ho hpre first⟩

end Tasks

end Invariant
end Lox
