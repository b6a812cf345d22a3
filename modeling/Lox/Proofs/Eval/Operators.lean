/-
# Operators that no rule knows

Evaluation fails at an operator node whose token is not one of its operators. A well-formed tree has
no such node, and neither have the functions and methods on a heap if they come from well-formed
trees (`Invariant.formed`). So evaluating well-formed trees on such a heap never fails in that way
(`Eval.eval_exec_knows`).
-/

import Lox.Proofs.Eval.LoopFree
import Lox.Proofs.Eval.Visits
import Lox.Proofs.Tree.Formed

namespace Lox

/-! ## Well-formed functions on the heap -/

/-- Functions are well formed. -/
def TreeRules.formed : TreeRules Unit :=
  { TreeRules.any with function := FunDecl.Formed fun _ => True }

mutual

/-- The functions in a well-formed statement are well formed. -/
theorem Stmt.Formed.obeys : ∀ {s : Stmt}, s.Formed (fun _ => True) → s.Obeys .formed ()
  | .expression _, _ | .print _, _ => by
    rw [Stmt.Obeys]
    exact fun _ _ => trivial
  | .var _ _, _ => by
    rw [Stmt.Obeys]
    exact ⟨trivial, fun _ _ _ _ => trivial⟩
  | .block _, h => by
    rw [Stmt.Formed] at h
    rw [Stmt.Obeys]
    exact h.obeys
  | .branch _ _ none, h => by
    rw [Stmt.Formed] at h
    rw [Stmt.Obeys]
    exact ⟨fun _ _ => trivial, h.2.2.obeys⟩
  | .branch _ _ (some _), h => by
    rw [Stmt.Formed] at h
    rw [Stmt.Obeys]
    exact ⟨fun _ _ => trivial, h.2.1.2.obeys, h.2.2.2.obeys⟩
  | .loop _ _, h => by
    rw [Stmt.Formed] at h
    rw [Stmt.Obeys]
    exact ⟨trivial, fun _ _ => trivial, h.2.2.obeys⟩
  | .function _, h => by
    rw [Stmt.Formed] at h
    rw [Stmt.Obeys]
    exact ⟨trivial, h.obeys⟩
  | .ret _ _, _ => by
    rw [Stmt.Obeys]
    exact fun _ _ _ _ => trivial
  | .classDecl _ _, h => by
    rw [Stmt.Formed] at h
    rw [Stmt.Obeys]
    exact ⟨trivial, h.2.obeys⟩

/-- The same of a list of statements. -/
theorem Stmt.FormedList.obeys : ∀ {ss : List Stmt}, Stmt.FormedList (fun _ => True) ss →
    Stmt.ObeysList .formed () ss
  | [], _ => by rw [Stmt.ObeysList]; trivial
  | _ :: _, h => by
    rw [Stmt.FormedList] at h
    rw [Stmt.ObeysList]
    exact ⟨h.1.obeys, h.2.obeys⟩

/-- A well-formed function obeys the rules, with the functions inside it. -/
theorem FunDecl.Formed.obeys : ∀ {f : FunDecl}, f.Formed (fun _ => True) → f.Obeys .formed ()
  | ⟨_, _, _⟩, h => by
    rw [FunDecl.Obeys]
    refine ⟨h, fun _ _ => trivial, ?_⟩
    rw [FunDecl.Formed] at h
    exact h.2.2.obeys

/-- The same of the methods of a class. -/
theorem FunDecl.FormedList.obeys : ∀ {fs : List FunDecl}, FunDecl.FormedList (fun _ => True) fs →
    FunDecl.ObeysList .formed () fs
  | [], _ => by rw [FunDecl.ObeysList]; trivial
  | _ :: _, h => by
    rw [FunDecl.FormedList] at h
    rw [FunDecl.ObeysList]
    exact ⟨h.1.obeys, h.2.obeys⟩

end

/-- The functions on the heap and the methods of its classes are well formed. Of frames, values and
objects nothing is asked, as with low trees. -/
def Invariant.formed : Invariant Unit :=
  { Invariant.low 0 with
    rules := .formed
    assigned := fun _ => trivial
    define := fun _ _ _ => ⟨trivial, trivial⟩
    openFrame := fun _ _ _ => ⟨trivial, trivial, trivial⟩
    bindFrame := fun _ _ _ _ => ⟨trivial, trivial, trivial, trivial⟩ }

/-- The body of a function that can be called is well formed. -/
theorem Invariant.Callee.formed {h : Heap} {f : Function} (hf : Invariant.formed.Callee h f) :
    ∀ s ∈ f.decl.body, s.Formed fun _ => True := by
  obtain ⟨_, hd, -⟩ := hf
  have formed : f.decl.Formed fun _ => True := hd.function
  revert formed
  obtain ⟨name, params, body⟩ := f.decl
  intro formed
  rw [FunDecl.Formed, Stmt.formedList_iff] at formed
  exact formed.2.2

namespace Trouble

/-- Whether the trouble is an operator that no rule knows. -/
def unknownOperator : Trouble → Bool
  | .unknownUnary => true
  | .unknownBinary => true
  | _ => false

/-- No other trouble has one of these messages. -/
theorem unknownOperator_of_message {cause : Trouble}
    (h : cause.message ∈ ["Invalid unary operator.", "Invalid binary operator."]) :
    cause.unknownOperator = true := by
  -- The first letter of each text is enough to tell.
  have start : ∀ {s t : String}, s.toList ≠ [] → (s ++ t).toList.head? = some 'I' →
      s.toList.head? = some 'I' := by
    intro s t hs h
    rw [String.toList_append, List.head?_append, List.head?_eq_some_head hs] at h
    rw [List.head?_eq_some_head hs]
    exact h
  have first : cause.message.toList.head? = some 'I' := by
    simp only [List.mem_cons, List.not_mem_nil, or_false] at h
    rcases h with h | h <;> rw [h] <;> decide
  cases cause with
  | unknownUnary => rfl
  | unknownBinary => rfl
  | undefined _ _ name | undefinedProperty name | wrongArity expected got =>
    unfold message at first
    simp only [String.append_assoc] at first
    exact absurd (start (by decide) first) (by decide)
  | _ => exact absurd first (by decide)

end Trouble

namespace Eval

/-! ## Computations -/

section Knows

variable {α β : Type} {c : Eval α} {f : α → Eval β} {m : Machine}

/-- The computation does not fail at an operator that no rule knows. -/
def Knows (c : Eval α) (m : Machine) : Prop :=
  ∀ cause token, cause.unknownOperator = true → ¬ Fails (.fault (.trouble cause token)) c m

/-- To return a value is no failure. -/
theorem pure_knows (a : α) : Knows (pure a : Eval α) m := fun _ _ _ => not_fails_pure

/-- To fail in another way is no such failure. -/
theorem fail_knows {cause : Trouble} (h : cause.unknownOperator = false) (token : Token) :
    Knows (fail cause token : Eval α) m := by
  rintro cause' token' h' ⟨m', he⟩
  cases he
  rw [h] at h'
  cases h'

/-- Computations one behind the other know their operators if both parts do. -/
theorem Knows.bind (hc : Knows c m) (hf : ∀ a m₁, c m = .ok a m₁ → Knows (f a) m₁) :
    Knows (c >>= f) m := by
  intro cause token h hfails
  obtain hfails | ⟨a, m₁, ha, hfails⟩ := hfails.of_bind
  · exact hc cause token h hfails
  · exact hf a m₁ ha cause token h hfails

/-- A computation knows its operators in any frame. -/
theorem Knows.inFrame {r : FrameRef} (hc : Knows c { m with frame := r }) :
    Knows (Eval.inFrame r c) m := fun cause token h hfails => hc cause token h hfails.of_inFrame

/-- So does a call, whose callee runs with one call more in progress. -/
theorem Knows.counted (hc : Knows c { m with calls := m.calls + 1 }) :
    Knows (Eval.counted c) m := fun cause token h hfails => hc cause token h hfails.of_counted

/-- A computation that always has a result. -/
theorem Knows.of_ok (h : ∃ a m', c m = .ok a m') : Knows c m := by
  rintro cause token - ⟨m₁, he⟩
  obtain ⟨a, m', h⟩ := h
  rw [h] at he
  cases he

end Knows

/-! ## Operations -/

section Operations

variable {m : Machine}

/-- An operation knows its operators if none of its causes is an operator. -/
theorem Operates.knows {α : Type} {causes : Trouble → Prop} {changes : Heap → Heap → Prop}
    {c : Eval α} (hc : Operates causes changes c)
    (h : ∀ cause, causes cause → cause.unknownOperator = false) : Knows c m := by
  intro cause token unknown hf
  rw [h cause (hf.cause hc)] at unknown
  cases unknown

/-- A sign that is one is known. -/
theorem applyUnary_knows {op : Token} (h : op.kind ∈ [Kind.punct .bang, Kind.punct .minus])
    (v : Value) : Knows (applyUnary op v) m := by
  refine (applyUnary_asks op v).knows ?_
  rintro _ (rfl | ⟨-, unknown⟩)
  · rfl
  · exact absurd h unknown

/-- An operator that is one is known, for numbers and for other values. -/
theorem applyBinary_knows {op : Token} (h : op.kind ∈ binaryOps) (l r : Value) :
    Knows (applyBinary op l r) m := by
  refine (applyBinary_asks op l r).knows ?_
  rintro _ (rfl | rfl | ⟨-, unknown⟩)
  · rfl
  · rfl
  · exact absurd h unknown

/-- A name that is not bound is no operator. -/
theorem readName_knows (use : NameUse) (place : Place) (name : Token) :
    Knows (readName use place name) m := (readName_asks use place name).knows <| by
  rintro _ rfl
  rfl

/-- Nor is a call that fails its check. -/
theorem checkCall_knows (callee : Value) (count : Nat) (paren : Token) :
    Knows (checkCall callee count paren) m := by
  refine (checkCall_asks callee count paren).knows ?_
  rintro _ (rfl | ⟨_, rfl⟩ | rfl) <;> rfl

/-- Handing on the output fails in another way, if at all. -/
theorem flush_knows : Knows flush m := by
  rintro cause token - ⟨m', h⟩
  obtain ok | error := flush_ends m
  · rw [ok] at h
    cases h
  · rw [error] at h
    cases h

end Operations

/-! ## Rules -/

section Rules

variable {m : Machine} {eval : Expr → Eval Value} {exec : Stmt → Eval Flow}

/-- Everything on the heap of the machine is well formed. -/
abbrev Formed (m : Machine) : Prop := Invariant.formed.Holds m.heap

variable (eval) in
/-- Well-formed expressions are evaluated by rules that know their operators, and leave a heap where
everything is well formed. -/
structure EvalKnows : Prop where
  sustains : Invariant.formed.EvalSustains eval
  knows : ∀ (e : Expr) (m : Machine), e.Formed (fun _ => True) → Formed m → Knows (eval e) m

variable (exec) in
/-- So are well-formed statements. -/
structure ExecKnows : Prop where
  sustains : Invariant.formed.ExecSustains exec
  knows : ∀ (s : Stmt) (m : Machine), s.Formed (fun _ => True) → Formed m → Knows (exec s) m

/-- Behind a well-formed expression everything is well formed. -/
theorem EvalKnows.ok (he : EvalKnows eval) {e : Expr} {v : Value} {m' : Machine} (hm : Formed m)
    (h : eval e m = .ok v m') : Formed m' :=
  ((he.sustains e () m ⟨hm, trivial⟩ fun _ _ => trivial).ok h).1.holds

/-- Behind a well-formed statement everything is well formed. -/
theorem ExecKnows.ok (hx : ExecKnows exec) {s : Stmt} (hs : s.Formed fun _ => True) {flow : Flow}
    {m' : Machine} (hm : Formed m) (h : exec s m = .ok flow m') : Formed m' :=
  ((hx.sustains s () m ⟨hm, trivial⟩ hs.obeys).ok h).1.holds

/-- Well-formed expressions one after the other know their operators. -/
theorem each_knows (he : EvalKnows eval) : ∀ (es : List Expr) (m : Machine),
    (∀ e ∈ es, e.Formed fun _ => True) → Formed m → Knows (each eval es) m
  | [], _, _, _ => pure_knows _
  | e :: es, m, hes, hm => by
    refine (he.knows e m (hes e (by simp)) hm).bind fun v m₁ h₁ => ?_
    exact (each_knows he es m₁ (fun e h => hes e (by simp [h])) (he.ok hm h₁)).bind
      fun vs m₂ _ => pure_knows _

/-- So do well-formed statements in order. -/
theorem inOrder_knows (hx : ExecKnows exec) : ∀ (ss : List Stmt) (m : Machine),
    (∀ s ∈ ss, s.Formed fun _ => True) → Formed m → Knows (inOrder exec ss) m
  | [], _, _, _ => pure_knows _
  | s :: ss, m, hss, hm => by
    have hs := hss s (by simp)
    refine (hx.knows s m hs hm).bind fun flow m₁ h₁ => ?_
    cases flow with
    | normal => exact inOrder_knows hx ss m₁ (fun s h => hss s (by simp [h])) (hx.ok hs hm h₁)
    | returned v => exact pure_knows _

/-- So does a call of a function with a well-formed body. -/
theorem invoke_knows (hx : ExecKnows exec) {f : Function}
    (hf : Invariant.formed.Callee m.heap f) (hm : Formed m) (args : List Value) :
    Knows (invoke exec f args) m := by
  have values : ∀ v ∈ args, Invariant.formed.value m.heap v := fun _ _ => trivial
  have opened := Invariant.callFrame_sustains hm hf values
  refine Knows.bind (.of_ok ⟨_, _, rfl⟩) fun r m₁ h₁ => ?_
  have body := inOrder_knows hx f.decl.body { m₁ with frame := r } hf.formed (opened.ok h₁).1.holds
  exact body.inFrame.bind fun flow m₂ _ =>
    (callResult_asks f flow).knows fun _ => False.elim

/-- So does a call of a class that is on the heap. -/
theorem construct_knows (hx : ExecKnows exec) {ref : ClassRef} {c : Class}
    (hc : m.heap.class? ref = some c) (hm : Formed m) (args : List Value) :
    Knows (construct exec ref c args) m := by
  refine Knows.bind (.of_ok ⟨_, _, rfl⟩) fun o m₁ h₁ => ?_
  cases hi : c.initializer? with
  | none => exact pure_knows _
  | some f =>
    obtain ⟨hh, -, hf⟩ := hm.initializer trivial hc hi
    cases h₁
    refine Knows.bind (.of_ok ⟨_, _, rfl⟩) fun bound m₂ h₂ => ?_
    cases h₂
    exact (invoke_knows hx hf hh args).bind fun _ _ _ => pure_knows _

/-- So does any call. -/
theorem apply_knows (clock : Nat → Float) (hx : ExecKnows exec) (hm : Formed m)
    (args : List Value) : ∀ {c : Callable}, Invariant.formed.Callables m.heap c →
      Knows (apply clock exec args c) m
  | .native .clock, _ => .of_ok ⟨_, _, rfl⟩
  | .function _, hc => invoke_knows hx hc hm args
  | .construct _ _, hc => construct_knows hx hc.2 hm args

/-- So does an expression that may be missing. -/
theorem orNil_knows (he : EvalKnows eval) (hm : Formed m) : ∀ {e : Option Expr},
    (∀ e' ∈ e, e'.Formed fun _ => True) → Knows (orNil eval e) m
  | none, _ => pure_knows _
  | some e, h => he.knows e m (h e rfl) hm

/-- One step of evaluation knows its operators, if what it refers to does. -/
theorem evalRule_knows (p : Setting) (he : EvalKnows eval) (hx : ExecKnows exec) (e : Expr)
    (m : Machine) (hf : e.Formed fun _ => True) (hm : Formed m) :
    Knows (evalRule p eval exec e) m := by
  cases e with
  | literal l => cases l <;> exact pure_knows _
  | grouping inner =>
    rw [Expr.Formed] at hf
    exact he.knows inner m hf hm
  | unary op operand =>
    rw [Expr.Formed] at hf
    exact (he.knows operand m hf.2 hm).bind fun v m₁ _ => applyUnary_knows hf.1 v
  | binary left op right =>
    rw [Expr.Formed] at hf
    refine (he.knows left m hf.2.1 hm).bind fun l m₁ h₁ => ?_
    exact (he.knows right m₁ hf.2.2 (he.ok hm h₁)).bind fun r m₂ _ => applyBinary_knows hf.1 l r
  | logical left op right =>
    rw [Expr.Formed] at hf
    refine (he.knows left m hf.2.1 hm).bind fun l m₁ h₁ => ?_
    cases hd : decides op l
    · exact he.knows right m₁ hf.2.2 (he.ok hm h₁)
    · exact pure_knows l
  | ident id name => exact readName_knows _ _ _
  | receiver id keyword => exact readName_knows _ _ _
  | assign id name value =>
    rw [Expr.Formed] at hf
    refine (he.knows value m hf.2 hm).bind fun v m₁ _ => ?_
    have assigned : Knows (assignName (placeOf p.distances id) name v) m₁ :=
      (assignName_operates ..).knows (by rintro _ rfl; rfl)
    exact assigned.bind fun _ _ _ => pure_knows v
  | call callee paren args =>
    rw [Expr.Formed, Expr.formedList_iff] at hf
    refine (he.knows callee m hf.1 hm).bind fun f m₁ h₁ => ?_
    have hm₁ := he.ok hm h₁
    refine (each_knows he args m₁ hf.2 hm₁).bind fun vs m₂ h₂ => ?_
    have hm₂ := ((Invariant.each_sustains (k := ()) he.sustains args m₁ ⟨hm₁, trivial⟩
      fun _ _ _ _ => trivial).ok h₂).1.holds
    refine (checkCall_knows f vs.length paren).bind fun c m₃ h₃ => ?_
    obtain ⟨rfl, hc, -⟩ := of_checkCall h₃
    exact (apply_knows (m := { m₃ with calls := m₃.calls + 1 }) p.clock hx hm₂ vs
      (hm₂.callable trivial hc)).counted
  | get object name =>
    rw [Expr.Formed] at hf
    refine (he.knows object m hf.1 hm).bind fun v m₁ _ => ?_
    cases v with
    | object o => exact (getProperty_operates o name).knows (by rintro _ rfl; rfl)
    | _ => exact fail_knows rfl name
  | set object name value =>
    rw [Expr.Formed] at hf
    refine (he.knows object m hf.1 hm).bind fun v m₁ h₁ => ?_
    cases v with
    | object o =>
      refine (he.knows value m₁ hf.2.2 (he.ok hm h₁)).bind fun v m₂ _ => ?_
      exact Knows.bind (.of_ok ⟨_, _, rfl⟩) fun _ _ _ => pure_knows v
    | _ => exact fail_knows rfl name

/-- One step of execution knows its operators, if what it refers to does. -/
theorem execRule_knows (he : EvalKnows eval) (hx : ExecKnows exec) (s : Stmt) (m : Machine)
    (hf : s.Formed fun _ => True) (hm : Formed m) : Knows (execRule eval exec s) m := by
  cases s with
  | expression e =>
    rw [Stmt.Formed] at hf
    exact (he.knows e m hf hm).bind fun _ _ _ => pure_knows _
  | print e =>
    rw [Stmt.Formed] at hf
    refine (he.knows e m hf hm).bind fun v m₁ _ => ?_
    have printed : Knows (Eval.print v) m₁ := fun _ _ _ => not_fails_print
    exact printed.bind fun _ _ _ => pure_knows _
  | var name init =>
    rw [Stmt.Formed] at hf
    refine (orNil_knows he hm hf.2).bind fun v m₁ _ => ?_
    exact Knows.bind (.of_ok ⟨_, _, rfl⟩) fun _ _ _ => pure_knows _
  | block body =>
    rw [Stmt.Formed, Stmt.formedList_iff] at hf
    refine Knows.bind (.of_ok ⟨_, _, rfl⟩) fun r m₁ h₁ => ?_
    have opened := Invariant.innerFrame_sustains (I := .formed) (k := ()) ⟨hm, trivial⟩
    exact (inOrder_knows hx body { m₁ with frame := r } hf (opened.ok h₁).1.holds).inFrame
  | branch cond thenB elseB =>
    cases elseB with
    | none =>
      rw [Stmt.Formed] at hf
      refine (he.knows cond m hf.1 hm).bind fun v m₁ h₁ => ?_
      cases hv : v.isTruthy
      · exact pure_knows _
      · exact hx.knows thenB m₁ hf.2.2 (he.ok hm h₁)
    | some elseB =>
      rw [Stmt.Formed] at hf
      refine (he.knows cond m hf.1 hm).bind fun v m₁ h₁ => ?_
      cases hv : v.isTruthy
      · exact hx.knows elseB m₁ hf.2.2.2 (he.ok hm h₁)
      · exact hx.knows thenB m₁ hf.2.1.2 (he.ok hm h₁)
  | loop cond body =>
    have again := hf
    rw [Stmt.Formed] at hf
    refine (he.knows cond m hf.1 hm).bind fun v m₁ h₁ => ?_
    have hm₁ := he.ok hm h₁
    cases hv : v.isTruthy
    · exact pure_knows _
    · simp only [if_true]
      refine (hx.knows body m₁ hf.2.2 hm₁).bind fun flow m₂ h₂ => ?_
      cases flow with
      | normal => exact hx.knows _ m₂ again (hx.ok hf.2.2 hm₁ h₂)
      | returned v => exact pure_knows _
  | function decl => exact Knows.bind (.of_ok ⟨_, _, rfl⟩) fun _ _ _ => pure_knows _
  | ret keyword value =>
    rw [Stmt.Formed] at hf
    exact (orNil_knows he hm hf).bind fun _ _ _ => pure_knows _
  | classDecl name methods => exact Knows.bind (.of_ok ⟨_, _, rfl⟩) fun _ _ _ => pure_knows _

end Rules

/-- **Evaluating a well-formed tree never comes to an operator that no rule knows**, if the
functions on the heap are well formed too. -/
theorem eval_exec_knows (p : Setting) : ∀ fuel,
    EvalKnows (eval p fuel) ∧ ExecKnows (exec p fuel)
  | 0 => by
    have never : ∀ {α : Type} (m : Machine), Knows (throw .outOfFuel : Eval α) m := by
      rintro α m cause token - ⟨m', h⟩
      cases h
    exact ⟨⟨Invariant.formed.eval_sustains p 0, fun _ m _ _ => never m⟩,
      ⟨Invariant.formed.exec_sustains p 0, fun _ m _ _ => never m⟩⟩
  | fuel + 1 => by
    obtain ⟨he, hx⟩ := eval_exec_knows p fuel
    exact ⟨⟨Invariant.formed.eval_sustains p _, evalRule_knows p he hx⟩,
      ⟨Invariant.formed.exec_sustains p _, execRule_knows he hx⟩⟩

/-- A well-formed program knows its operators. -/
theorem interpret_knows (p : Setting) (fuel : Nat) (ss : List Stmt) (m : Machine)
    (hf : ∀ s ∈ ss, s.Formed fun _ => True) (hm : Formed m) : Knows (interpret p fuel ss) m := by
  have program : ∀ (ss : List Stmt) (m : Machine), (∀ s ∈ ss, s.Formed fun _ => True) →
      Formed m → Knows (execProgram p fuel ss) m := by
    intro ss
    induction ss with
    | nil => exact fun _ _ _ => pure_knows _
    | cons s ss ih =>
      intro m hf hm
      have hx := (eval_exec_knows p fuel).2
      have hs := hf s (by simp)
      exact (hx.knows s m hs hm).bind fun _ m₁ h₁ =>
        ih m₁ (fun s h => hf s (by simp [h])) (hx.ok hs hm h₁)
  exact (program ss m hf hm).bind fun _ _ _ => flush_knows

end Eval

end Lox
