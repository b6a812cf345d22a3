/-
# Statements in step

What a declaration adds to the active frame of the one evaluator stands in a frame of its own in the
other's heap (`declare_openFrame`), and both go on at the same place. All other statements are run
by the same rules, so by induction on the fuel the two evaluators do not differ on trees whose names
are in their places (`eval_exec_sim`).
-/

import Lox.Proofs.Lexical.Simulation

namespace Lox

open Scope (Scopes)

namespace Lexical

open Eval (Keeps)

variable {T : Distances → Prop}

/-! ## Declarations -/

/-- A frame in which a name is declared has no names but those of its scope. -/
theorem Exact.define {h : Heap} {scopes : Scopes} {r : FrameRef} (he : Exact h scopes r)
    (hr : (h.frame? r).isSome = true) (name : String) (v : Value) :
    Exact (h.define r name v) (scopes.put name .defined) r := by
  cases scopes with
  | nil => trivial
  | cons scope outer =>
    intro n hn
    rw [Heap.getLocal?_define _ _ _ _ _ _ hr] at hn
    rw [Bindings.contains_insert, Bool.or_eq_true, decide_eq_true_eq]
    split at hn
    · rename_i hc
      exact .inl hc.2
    · exact .inr (he n hn)

/-- A name that the scope does not have is not bound in the frame. -/
theorem Exact.lacks {h : Heap} {scopes : Scopes} {r : FrameRef} (he : Exact h scopes r)
    {name : String} (hl : scopes.Lacks name) (hs : scopes ≠ []) :
    ¬ (h.getLocal? r name).isSome = true := by
  cases scopes with
  | nil => exact absurd rfl hs
  | cons scope outer =>
    intro hb
    have := he name hb
    rw [show scope.contains name = false from hl] at this
    cases this

/-- What a declaration does on both sides: the lexical evaluator first opens a frame, unless it is
in the global one. -/
theorem declare_openFrame {scopes : Scopes} {home : FrameRef → String → FrameRef}
    {m m' : Machine} (hr : Rel T home m m') (ha : At scopes (pair home m m') m.frame m'.frame)
    {name : String} (hl : scopes.Lacks name) (v : Value) :
    ∃ home₁ m₁', openFrame m' = .ok () m₁' ∧
      m₁'.heap.functions = m'.heap.functions ∧ m₁'.heap.classes = m'.heap.classes ∧
      Rel T home₁ { m with heap := m.heap.define m.frame name v }
        { m₁' with heap := m₁'.heap.define m₁'.frame name v } ∧
      (pair home m m').Later
        ⟨m.heap.define m.frame name v, m₁'.heap.define m₁'.frame name v, home₁⟩ ∧
      At (scopes.put name .defined)
        ⟨m.heap.define m.frame name v, m₁'.heap.define m₁'.frame name v, home₁⟩
        m.frame m₁'.frame ∧
      home₁ m.frame name = m₁'.frame := by
  by_cases hs : scopes = []
  · obtain ⟨hf, hf'⟩ := ha.view.outermost hs
    have hlater := Pairing.declareGlobal_later (pair home m m') name v
    have hview := ha.view.later hlater
    refine ⟨home, m', if_pos hf', rfl, rfl, ?_, ?_, ?_, ?_⟩
    · rw [hf, hf']
      exact ⟨hr.matched.declareGlobal name v, hr.calls, hr.sink, hr.readings⟩
    · rw [hf, hf']
      exact hlater
    · subst hs
      rw [hf, hf'] at hview ⊢
      exact ⟨hview, trivial⟩
    · rw [hf, hf']
      exact hr.matched.home name
  · have hn : ¬ (pair home m m').Bound m.frame name := ha.exact.lacks hl hs
    obtain ⟨hf, hf'⟩ := ha.view.inner hs
    refine ⟨((pair home m m').declare m.frame m'.frame name v).home, { m' with
      heap := (m'.heap.newFrame m'.frame ∅).2, frame := ⟨m'.heap.frames.size⟩ },
      if_neg hf', rfl, rfl, ?_, ?_, ?_, if_pos ⟨rfl, rfl⟩⟩
    · exact ⟨hr.matched.declare ha.view.present hf hn v, hr.calls, hr.sink, hr.readings⟩
    · exact Pairing.declare_later _ _ hn v
    · exact ⟨ha.view.declare hs hn v hr.matched.lexical_global,
        ha.exact.define ha.view.present name v⟩

/-- The statement of a declaration: in both evaluators control goes on behind it. -/
def Declares (T : Distances → Prop) (scopes : Scopes) (name : String) (c c' : Eval Unit) : Prop :=
  Sim T (At scopes) c (openFrame >>= fun _ => c') fun _ _ => At (scopes.put name .defined)

/-- Declaring a variable is done in step. -/
theorem declares_define {scopes : Scopes} {name : String} (hl : scopes.Lacks name) (v : Value) :
    Declares T scopes name (Eval.define name v) (Eval.define name v) := by
  intro home m m' hr ha
  obtain ⟨home₁, m₁', ho, -, -, hr₁, hl₁, ha₁, -⟩ := declare_openFrame hr ha hl v
  rw [Eval.bind_of_ok ho]
  exact .ok hr₁ hl₁ ha₁

/-- Declaring a function is done in step: it sees itself. -/
theorem declares_function {scopes : Scopes} {decl : FunDecl} (hl : scopes.Lacks decl.name.lexeme)
    (hp : decl.Placed true T (scopes.put decl.name.lexeme .defined)) :
    Declares T scopes decl.name.lexeme (Eval.declareFunction decl) (Eval.declareFunction decl) := by
  intro home m m' hr ha
  obtain ⟨home₁, m₁', ho, hfs, -, hr₁, hl₁, ha₁, -⟩ :=
    declare_openFrame hr ha hl (.function ⟨m.heap.functions.size⟩)
  have hsize : m₁'.heap.functions.size = m.heap.functions.size := by
    rw [hfs]
    exact hr.matched.alike.functionCount
  have hf : (pair home₁ { m with heap := m.heap.define m.frame decl.name.lexeme _ }
      { m₁' with heap := m₁'.heap.define m₁'.frame decl.name.lexeme _ }).FunctionMatch T
      ⟨decl, m.frame, false⟩ ⟨decl, m₁'.frame, false⟩ :=
    ⟨rfl, rfl, ⟨_, hp, ha₁.view⟩, fun h => (by cases h)⟩
  -- The name is bound after the function is made; bound first, the heap would be the same.
  obtain ⟨hm₂, hl₂⟩ := hr₁.matched.newFunction hf
  have ha₂ := ha₁.later hl₂ (Heap.newFunction_grows ..)
  rw [Eval.bind_of_ok ho]
  unfold Eval.declareFunction Heap.newFunction
  dsimp only
  rw [hsize]
  exact .ok ⟨hm₂, hr₁.calls, hr₁.sink, hr₁.readings⟩ (hl₁.trans hl₂) ha₂

/-- Classes with the same method declarations, made at the same place, are alike. -/
theorem alike_class {w : Pairing} {scopes : Scopes} {r e : FrameRef} (hv : w.View scopes r e)
    {decls : List FunDecl} (hp : FunDecl.PlacedList true T decls (Scope.ofClass :: scopes))
    (name : String) :
    Class.Alike (w.MethodMatch T) ⟨name, Eval.methodTable r decls⟩
      ⟨name, Eval.methodTable e decls⟩ := by
  refine ⟨rfl, Bindings.insertMany_rel ?_ fun _ => .none⟩
  rw [List.forall₂_map_left_iff, List.forall₂_map_right_iff, List.forall₂_same]
  intro d hd
  exact ⟨rfl, rfl, rfl, scopes, FunDecl.placedList_iff.1 hp d hd, hv⟩

/-- Binding a class comes to two definitions of its name. -/
theorem declareClass_eq {m : Machine} {name : Token} (decls : List FunDecl)
    (hb : ((m.heap.define m.frame name.lexeme .nil).getLocal? m.frame name.lexeme).isSome = true) :
    Eval.declareClass name decls m = .ok () { m with
      heap := ((m.heap.define m.frame name.lexeme .nil).newClass
        ⟨name.lexeme, Eval.methodTable m.frame decls⟩).2.define m.frame name.lexeme
          (.ofClass ⟨m.heap.classes.size⟩) } := by
  have : ((m.heap.define m.frame name.lexeme .nil).newClass
      ⟨name.lexeme, Eval.methodTable m.frame decls⟩).2.assignLocal m.frame name.lexeme
        (.ofClass ⟨m.heap.classes.size⟩) = _ := if_pos hb
  exact congrArg (fun h : Bool × Heap => EStateM.Result.ok () { m with heap := h.2 }) this

/-- Declaring a class is done in step: its methods see it. -/
theorem declares_class {scopes : Scopes} {name : Token} {decls : List FunDecl}
    (hl : scopes.Lacks name.lexeme)
    (hp : FunDecl.PlacedList true T decls (Scope.ofClass :: scopes.put name.lexeme .defined)) :
    Declares T scopes name.lexeme (Eval.declareClass name decls)
      (Eval.declareClass name decls) := by
  intro home m m' hr ha
  obtain ⟨home₁, m₁', ho, -, hcs, hr₁, hl₁, ha₁, hh⟩ := declare_openFrame hr ha hl .nil
  have hsize : m₁'.heap.classes.size = m.heap.classes.size := by
    rw [hcs]
    exact hr.matched.alike.classCount
  have hb : (pair home₁ { m with heap := m.heap.define m.frame name.lexeme .nil }
      { m₁' with heap := m₁'.heap.define m₁'.frame name.lexeme .nil }).Bound m.frame
        name.lexeme := by
    rw [Pairing.Bound, Heap.getLocal?_define _ _ _ _ _ _ ha.view.present, if_pos ⟨rfl, rfl⟩]
    rfl
  have hb' := hr₁.matched.home_bound hb
  simp only [hh] at hb'
  obtain ⟨hm₂, hl₂⟩ := hr₁.matched.newClass (alike_class ha₁.view hp name.lexeme)
  have ha₂ := ha₁.later hl₂ (Heap.newClass_grows ..)
  have hr₂ : Rel T home₁
      { m with heap := ((m.heap.define m.frame name.lexeme .nil).newClass _).2 }
      { m₁' with heap := ((m₁'.heap.define m₁'.frame name.lexeme .nil).newClass _).2 } :=
    ⟨hm₂, hr₁.calls, hr₁.sink, hr₁.readings⟩
  have hr₃ := hr₂.assign hb (.ofClass ⟨m.heap.classes.size⟩)
  have hl₃ := Pairing.assign_later hm₂.toPaired hb (.ofClass ⟨m.heap.classes.size⟩)
  have ha₃ := ha₂.assign hr₂ hb (.ofClass ⟨m.heap.classes.size⟩)
  rw [Pairing.assign] at ha₃ hl₃
  simp only [hh] at hr₃ ha₃ hl₃
  rw [Eval.bind_of_ok ho, declareClass_eq decls hb, declareClass_eq decls hb', hsize]
  exact .ok hr₃ (hl₁.trans (hl₂.trans hl₃)) ha₃

/-! ## Rules -/

section Rules

variable {eval eval' : Expr → Eval Value} {exec exec' : Stmt → Eval Flow}

/-- Control goes on behind a declaration, in the scopes with its name. -/
theorem Declares.flow {scopes : Scopes} {name : String} {c c' : Eval Unit}
    (h : Declares T scopes name c c') :
    Sim T (At scopes) (c >>= fun _ => pure Flow.normal)
      (openFrame >>= fun _ => c' >>= fun _ => pure Flow.normal)
      (Same (At (scopes.put name .defined))) := by
  rw [← bind_assoc]
  exact h.bind fun _ _ => sim_return Flow.normal

/-- A statement that declares nothing ends where it began. -/
theorem ExecSim.plain (hx : ExecSim T exec exec') {s : Stmt} {scopes : Scopes}
    (hd : s.declares = false) (hp : s.Placed true T scopes) :
    Sim T (At scopes) (exec s) (exec' s) (Same (At scopes)) := by
  have h := hx s scopes hp
  rwa [Stmt.scopesAfter_plain hd] at h

/-- One step of execution is in step, if what it refers to is. -/
theorem sim_execRule (he : EvalSim T eval eval') (hx : ExecSim T exec exec')
    (kx : ∀ s, Keeps True (exec s)) :
    ExecSim T (Eval.execRule eval exec) (execRule eval' exec') := by
  intro s scopes hp
  cases s with
  | expression e =>
    rw [Stmt.Placed] at hp
    exact (he e scopes hp.located).same fun _ => sim_return _
  | print e =>
    rw [Stmt.Placed] at hp
    exact (he e scopes hp.located).same fun v => (sim_print v).same fun _ => sim_return _
  | var name init =>
    rw [Stmt.Placed] at hp
    refine (sim_orNil he init fun e hi => (hp.2 e hi).located_initializer).same fun v => ?_
    exact (declares_define hp.1 v).flow
  | block body =>
    rw [Stmt.Placed] at hp
    intro home m m' hr ha
    exact ends_inFrame hr ha ha.view (fun _ => rfl) (Eval.inOrder_keeps kx body)
      (sim_inOrder hx body _ hp)
  | branch cond thenB elseB =>
    cases elseB with
    | none =>
      rw [Stmt.Placed] at hp
      refine (he cond scopes hp.1.located).same fun v => ?_
      cases v.isTruthy
      · exact sim_return _
      · exact hx.plain hp.2.1 hp.2.2
    | some elseB =>
      rw [Stmt.Placed] at hp
      refine (he cond scopes hp.1.located).same fun v => ?_
      cases v.isTruthy
      · exact hx.plain hp.2.2.1 hp.2.2.2
      · exact hx.plain hp.2.1.1 hp.2.1.2
  | loop cond body =>
    have hloop := hx (.loop cond body) scopes hp
    rw [Stmt.Placed] at hp
    refine (he cond scopes hp.1.located).same fun v => ?_
    cases v.isTruthy
    · exact sim_return _
    · refine (hx.plain hp.2.1 hp.2.2).same fun flow => ?_
      cases flow with
      | normal => exact hloop
      | returned v => exact sim_return _
  | function decl =>
    rw [Stmt.Placed] at hp
    exact (declares_function hp.1 hp.2).flow
  | ret keyword value =>
    rw [Stmt.Placed] at hp
    exact (sim_orNil he value fun e hv => (hp e hv).located).same fun _ => sim_return _
  | classDecl name decls =>
    rw [Stmt.Placed] at hp
    exact (declares_class hp.1 hp.2).flow

end Rules

/-- Both evaluators, given the same fuel, are in step. -/
theorem eval_exec_sim {p : Setting} (hT : T p.distances) : ∀ fuel,
    EvalSim T (Eval.eval p fuel) (eval p.clock fuel) ∧
      ExecSim T (Eval.exec p fuel) (exec p.clock fuel)
  | 0 => by
    refine ⟨fun e scopes _ => ?_, fun s scopes _ => ?_⟩
    · simp only [Eval.eval, eval]
      exact sim_throw _
    · simp only [Eval.exec, exec]
      exact sim_throw _
  | fuel + 1 => by
    obtain ⟨he, hx⟩ := eval_exec_sim hT fuel
    have kx := Eval.exec_keeps p fuel
    refine ⟨fun e scopes hl => ?_, fun s scopes hp => ?_⟩
    · simp only [Eval.eval, eval]
      exact sim_evalRule hT he hx kx e scopes hl
    · simp only [Eval.exec, exec]
      exact sim_execRule he hx kx s scopes hp

end Lexical

end Lox
