/-
# Frames mirror scopes

The scopes around a node tell what the frames of the running program bind when the node is reached:
frame by frame outward, each binds at least the names of its scope (`Heap.Mirrors`). Every function
and every class on the heap was declared where the frames mirror the scopes of its declaration, and
stays so (`Heap.Bound`): heaps only grow. `eval_exec_binds` shows that evaluation keeps this, to
whatever end it comes.
-/

import Lox.Proofs.Eval.Keeps
import Lox.Proofs.Scope.Placed

namespace Lox

open Scope (Scopes)

namespace Heap

/-- The frames from `r` outward bind the names of the scopes, and behind them comes the global
frame. -/
def Mirrors (h : Heap) : Scopes → FrameRef → Prop
  | [], r => r = .global
  | scope :: outer, r => ∃ f parent, h.frame? r = some f ∧ f.parent = some parent ∧
      scope.Within f.values ∧ h.Mirrors outer parent

section

variable {h h' : Heap}

/-- Frames that mirror scopes do so while the heap grows. -/
theorem Mirrors.grows (g : h.Grows (fun _ => True) h') : ∀ {scopes : Scopes} {r : FrameRef},
    h.Mirrors scopes r → h'.Mirrors scopes r
  | [], _, hm => hm
  | _ :: _, r, ⟨f, parent, hf, hp, hw, hm⟩ => by
    obtain ⟨f', hf', hp', hw', -⟩ := g.frames r f hf
    exact ⟨f', parent, hf', hp'.trans hp, fun n hn => hw' n (hw n hn), hm.grows g⟩

/-- A new frame inside a mirrored one mirrors one scope more. -/
theorem Mirrors.newFrame {scopes : Scopes} {parent : FrameRef} (hm : h.Mirrors scopes parent)
    {scope : Bindings Scope.Status} {values : Bindings Value} (hw : scope.Within values) :
    (h.newFrame parent values).2.Mirrors (scope :: scopes) ⟨h.frames.size⟩ :=
  ⟨⟨values, some parent⟩, parent, by simp [Heap.newFrame, frame?], rfl, hw,
    hm.grows (newFrame_grows h parent values)⟩

/-- They mirror the scopes with one more name, if the first frame binds it. -/
theorem Mirrors.put {scopes : Scopes} {r : FrameRef} (hm : h.Mirrors scopes r) {name : String}
    (hb : scopes ≠ [] → (h.getLocal? r name).isSome = true) :
    h.Mirrors (scopes.put name .defined) r := by
  cases scopes with
  | nil => exact hm
  | cons scope outer =>
    obtain ⟨f, parent, hf, hp, hw, hm⟩ := hm
    refine ⟨f, parent, hf, hp, fun n hn => ?_, hm⟩
    rw [Bindings.contains_insert, Bool.or_eq_true, decide_eq_true_eq] at hn
    rcases hn with rfl | hn
    · simpa [getLocal?, hf, Bindings.contains] using hb (by simp)
    · exact hw n hn

/-- A name that the scopes have at some distance is bound in the frame at that distance. -/
theorem Mirrors.bound {name : String} : ∀ {scopes : Scopes} {r : FrameRef} {d : Nat},
    h.Mirrors scopes r → scopes.distance? name = some d →
      ∃ a, h.ancestor? r d = some a ∧ (h.getLocal? a name).isSome = true
  | [], _, _, _, hd => by simp [Scopes.distance?] at hd
  | scope :: outer, r, d, ⟨f, parent, hf, hp, hw, hm⟩, hd => by
    rw [Scopes.distance?, List.findIdx?_cons] at hd
    split at hd
    · rename_i hc
      cases hd
      refine ⟨r, by simp [ancestor?, hf], ?_⟩
      simpa [getLocal?, hf, Bindings.contains] using hw name hc
    · obtain ⟨d', hd', rfl⟩ := Option.map_eq_some_iff.1 hd
      obtain ⟨a, ha, hb⟩ := hm.bound hd'
      exact ⟨a, by simp [ancestor?, hf, hp, ha], hb⟩

end

end Heap

section Bound

variable (T : Distances → Prop)

/-- The frames around the function mirror the scopes of its declaration. -/
def Function.Bound (h : Heap) (f : Function) : Prop :=
  ∃ scopes, f.decl.Placed false T scopes ∧ h.Mirrors scopes f.closure

/-- The frames around the class mirror the scopes of its declaration; its methods also see their
receiver. -/
def Class.Bound (h : Heap) (c : Class) : Prop :=
  ∀ name f, c.methods.get? name = some f →
    ∃ scopes, f.decl.Placed false T (Scope.ofClass :: scopes) ∧ h.Mirrors scopes f.closure

/-- The functions and the classes on the heap stand where they were declared. -/
structure Heap.Bound (h : Heap) : Prop where
  functions : ∀ r f, h.function? r = some f → f.Bound T h
  classes : ∀ r c, h.class? r = some c → c.Bound T h

end Bound

section

variable {T : Distances → Prop} {h h' : Heap}

/-- A function stays where it was declared while the heap grows. -/
theorem Function.Bound.grows {f : Function} (hf : f.Bound T h) (g : h.Grows (fun _ => True) h') :
    f.Bound T h' := by
  obtain ⟨scopes, hp, hm⟩ := hf
  exact ⟨scopes, hp, hm.grows g⟩

/-- A class stays where it was declared while the heap grows. -/
theorem Class.Bound.grows {c : Class} (hc : c.Bound T h) (g : h.Grows (fun _ => True) h') :
    c.Bound T h' := fun name f hf => by
  obtain ⟨scopes, hp, hm⟩ := hc name f hf
  exact ⟨scopes, hp, hm.grows g⟩

namespace Heap.Bound

/-- Nothing but new functions and classes can break it. -/
theorem grows (hb : h.Bound T) (g : h.Grows (fun _ => True) h') (hf : h'.functions = h.functions)
    (hc : h'.classes = h.classes) : h'.Bound T where
  functions r f hr := (hb.functions r f (by rwa [function?, ← hf])).grows g
  classes r c hr := (hb.classes r c (by rwa [class?, ← hc])).grows g

/-- A new function may stand where it was declared. -/
theorem newFunction (hb : h.Bound T) {f : Function} (hf : f.Bound T h) :
    (h.newFunction f).2.Bound T where
  functions r f' hr := by
    have g : h.Grows (fun _ => True) (h.newFunction f).2 := newFunction_grows h f
    simp only [Heap.newFunction, function?, Array.getElem?_push] at hr
    split at hr
    · cases hr
      exact hf.grows g
    · exact (hb.functions r f' hr).grows g
  classes r c hr := (hb.classes r c hr).grows (newFunction_grows h f)

/-- A new class may stand where it was declared. -/
theorem newClass (hb : h.Bound T) {c : Class} (hc : c.Bound T h) :
    (h.newClass c).2.Bound T where
  functions r f hr := (hb.functions r f hr).grows (newClass_grows h c)
  classes r c' hr := by
    have g : h.Grows (fun _ => True) (h.newClass c).2 := newClass_grows h c
    simp only [Heap.newClass, class?, Array.getElem?_push] at hr
    split at hr
    · cases hr
      exact hc.grows g
    · exact (hb.classes r c' hr).grows g

/-- Binding a name leaves functions and classes where they stand. -/
theorem define (hb : h.Bound T) (r : FrameRef) (name : String) (v : Value) :
    (h.define r name v).Bound T :=
  hb.grows (define_grows _ _ _ _ (.inl trivial)) rfl rfl

/-- It is enough that the tables still say what they said. -/
theorem mono {T' : Distances → Prop} (hb : h.Bound T) (hT : ∀ D, T' D → T D) : h.Bound T' where
  functions r f hr := by
    obtain ⟨scopes, hp, hm⟩ := hb.functions r f hr
    exact ⟨scopes, hp.mono hT, hm⟩
  classes r c hr name f hf := by
    obtain ⟨scopes, hp, hm⟩ := hb.classes r c hr name f hf
    exact ⟨scopes, hp.mono hT, hm⟩

end Heap.Bound

end

/-- The frames from the active one outward mirror the scopes. -/
def Machine.Stands (scopes : Scopes) (m : Machine) : Prop := m.heap.Mirrors scopes m.frame

/-- The active frame mirrors the scopes after any computation. -/
theorem Machine.Stands.kept {gains : FrameRef → Prop} {scopes : Scopes} {m m' : Machine}
    (h : m.Stands scopes) (k : m.Kept gains m') : m'.Stands scopes := by
  rw [Stands, k.frame]
  exact h.grows k.heap.all

namespace Eval

/-- Started on a machine that meets `pre` and has a bound heap, the computation leaves a bound heap,
and if it has a result, then `post` holds. -/
def Binds {α : Type} (T : Distances → Prop) (pre : Machine → Prop) (c : Eval α)
    (post : α → Machine → Prop) : Prop :=
  ∀ m : Machine, m.heap.Bound T → pre m →
    (after c m).heap.Bound T ∧ ∀ a m', c m = .ok a m' → post a m'

section

variable {T : Distances → Prop} {α β : Type} {c : Eval α} {f : α → Eval β}
  {pre pre' : Machine → Prop} {mid : α → Machine → Prop} {post post' : β → Machine → Prop}

/-- What the first of two computations leaves, the second starts on. -/
theorem Binds.bind (hc : Binds T pre c mid) (hf : ∀ a, Binds T (mid a) (f a) post) :
    Binds T pre (c >>= f) post := by
  intro m hb hm
  obtain ⟨hb₁, hmid⟩ := hc m hb hm
  change (after (EStateM.bind c f) m).heap.Bound T ∧
    ∀ b m', EStateM.bind c f m = .ok b m' → post b m'
  unfold after at hb₁ ⊢
  unfold EStateM.bind
  cases h : c m with
  | ok a m₁ =>
    rw [h] at hb₁
    exact hf a m₁ hb₁ (hmid a m₁ h)
  | error e m₁ =>
    rw [h] at hb₁
    exact ⟨hb₁, fun _ _ h => by cases h⟩

/-- More may be asked before, and less behind. -/
theorem Binds.weaken {c : Eval β} (hc : Binds T pre c post) (hpre : ∀ m, pre' m → pre m)
    (hpost : ∀ b m, post b m → post' b m) : Binds T pre' c post' := fun m hb hm =>
  ⟨(hc m hb (hpre m hm)).1, fun a m' h => hpost a m' ((hc m hb (hpre m hm)).2 a m' h)⟩

/-- What the frames mirror at the start they mirror at the end. -/
theorem Binds.standing {declares : Prop} {c : Eval β} (hc : Binds T pre c post)
    (hk : Keeps declares c) (scopes : Scopes) :
    Binds T (fun m => pre m ∧ m.Stands scopes) c fun b m => post b m ∧ m.Stands scopes :=
  fun m hb hm => ⟨(hc m hb hm.1).1, fun b m' h =>
    ⟨(hc m hb hm.1).2 b m' h, hm.2.kept (hk.ok h)⟩⟩

/-- To return a value leaves the heap bound. -/
theorem pure_binds (a : α) : Binds T pre (pure a : Eval α) fun _ _ => True :=
  fun _ hb _ => ⟨hb, fun _ _ _ => trivial⟩

/-- To fail leaves the heap bound, and there is no result to say anything of. -/
theorem fail_binds (cause : Trouble) (token : Token) :
    Binds T pre (fail cause token : Eval β) post := fun _ hb _ => ⟨hb, fun _ _ h => by cases h⟩

/-- An operation that makes no function and no class leaves the heap bound. -/
theorem Operates.binds {causes : Trouble → Prop} (hc : Operates causes SameCode c) :
    Binds T pre c fun _ _ => True := by
  intro m hb _
  refine ⟨?_, fun _ _ _ => trivial⟩
  have ends := hc.ends m
  unfold after
  generalize c m = r at ends ⊢
  cases ends with
  | ok grows code => exact hb.grows (grows _) code.1 code.2
  | trouble _ grows code => exact hb.grows (grows _) code.1 code.2

/-- So does one that changes nothing. -/
theorem asks_binds {causes : Trouble → Prop} (hc : Asks causes c) :
    Binds T pre c fun _ _ => True := fun m hb _ =>
  ⟨(hc.after_eq m).symm ▸ hb, fun _ _ _ => trivial⟩

/-- So does printing. -/
theorem print_binds (v : Value) : Binds T pre (print v) fun _ _ => True := by
  intro m hb _
  refine ⟨?_, fun _ _ _ => trivial⟩
  obtain ⟨sink, h | h⟩ := print_ends v m
  · exact after_ok h ▸ hb
  · exact after_error h ▸ hb

end

/-! ## Calls -/

end Eval

/-- What is called stands where it was declared. -/
def Callable.Bound (T : Distances → Prop) (h : Heap) : Callable → Prop
  | .native _ => True
  | .function f => f.Bound T h
  | .construct _ c => c.Bound T h

/-- What a value is called as stands where it was declared. -/
theorem Heap.Bound.callable {T : Distances → Prop} {h : Heap} (hb : h.Bound T) {v : Value}
    {c : Callable} (hc : h.callable? v = some c) : c.Bound T h := by
  cases v with
  | native f =>
    cases hc
    trivial
  | function r =>
    obtain ⟨f, hf, rfl⟩ := Option.map_eq_some_iff.1 hc
    exact hb.functions r f hf
  | ofClass r =>
    obtain ⟨c, hr, rfl⟩ := Option.map_eq_some_iff.1 hc
    exact hb.classes r c hr
  | _ => cases hc

/-- A method bound to an object stands in one scope more, that of the receiver. -/
theorem Function.Bound.bind {T : Distances → Prop} {h : Heap} {f : Function} {scopes : Scopes}
    (hp : f.decl.Placed false T (Scope.ofClass :: scopes)) (hm : h.Mirrors scopes f.closure)
    (o : ObjectRef) : (h.bind f o).1.Bound T (h.bind f o).2 := by
  refine ⟨Scope.ofClass :: scopes, hp, hm.newFrame fun n hn => ?_⟩
  rw [Scope.ofClass, Bindings.contains_insert] at hn
  rw [Bindings.contains_insert]
  exact hn

namespace Eval

section

variable {T : Distances → Prop} {α : Type} {eval : Expr → Eval Value} {exec : Stmt → Eval Flow}

/-- Running a computation inside a new frame. -/
theorem inNewFrame_binds {pre : Machine → Prop} {mk : Eval FrameRef} {c : Eval α}
    (hmk : ∀ m : Machine, pre m → ∃ scope scopes parent values,
      m.heap.Mirrors scopes parent ∧ scope.Within values ∧
        mk m = .ok ⟨m.heap.frames.size⟩ { m with heap := (m.heap.newFrame parent values).2 } ∧
        Binds T (Machine.Stands (scope :: scopes)) c fun _ _ => True) :
    Binds T pre (mk >>= fun r => inFrame r c) fun _ _ => True := by
  intro m hb hm
  obtain ⟨scope, scopes, parent, values, hmir, hw, hmk, hc⟩ := hmk m hm
  have hb₁ : (m.heap.newFrame parent values).2.Bound T :=
    hb.grows (Heap.newFrame_grows ..) rfl rfl
  have hb₂ := (hc { m with
    heap := (m.heap.newFrame parent values).2, frame := ⟨m.heap.frames.size⟩ }
    hb₁ (hmir.newFrame hw)).1
  refine ⟨?_, fun _ _ _ => trivial⟩
  change (after (EStateM.bind mk fun r => inFrame r c) m).heap.Bound T
  unfold after at hb₂
  unfold after EStateM.bind inFrame
  rw [hmk]
  dsimp only
  cases h : c { m with
      heap := (m.heap.newFrame parent values).2, frame := ⟨m.heap.frames.size⟩ } with
  | ok a m' =>
    rw [h] at hb₂
    exact hb₂
  | error e m' =>
    rw [h] at hb₂
    exact hb₂

/-- The number of calls has nothing to do with where functions stand. -/
theorem counted_binds {P : Heap → Prop} {c : Eval α}
    (hc : Binds T (fun m => P m.heap) c fun _ _ => True) :
    Binds T (fun m => P m.heap) (counted c) fun _ _ => True := by
  intro m hb hm
  have hb₁ := (hc { m with calls := m.calls + 1 } hb hm).1
  refine ⟨?_, fun _ _ _ => trivial⟩
  unfold after at hb₁ ⊢
  unfold counted
  cases h : c { m with calls := m.calls + 1 } with
  | ok a m' =>
    rw [h] at hb₁
    exact hb₁
  | error e m' =>
    rw [h] at hb₁
    exact hb₁

variable (T exec) in
/-- Running a statement keeps the heap bound, and the scopes behind it are mirrored when control
goes on behind it. -/
def ExecBinds : Prop :=
  ∀ (s : Stmt) (scopes : Scopes), s.Placed false T scopes →
    Binds T (Machine.Stands scopes) (exec s) fun flow m =>
      flow = .normal → m.Stands (s.scopesAfter scopes)

/-- Statements in order, placed in scopes that are mirrored, leave the heap bound. -/
theorem inOrder_binds (hx : ExecBinds T exec) : ∀ (ss : List Stmt) (scopes : Scopes),
    Stmt.PlacedList false T ss scopes →
      Binds T (Machine.Stands scopes) (inOrder exec ss) fun _ _ => True
  | [], _, _ => pure_binds _
  | s :: ss, scopes, hp => by
    rw [Stmt.PlacedList] at hp
    refine (hx s scopes hp.1).bind fun flow => ?_
    cases flow with
    | normal => exact (inOrder_binds hx ss _ hp.2).weaken (fun _ h => h rfl) fun _ _ h => h
    | returned v => exact pure_binds _

/-- A call of a function that stands where it was declared leaves the heap bound. -/
theorem invoke_binds (hx : ExecBinds T exec) (f : Function) (args : List Value) :
    Binds T (fun m => f.Bound T m.heap ∧ args.length = f.arity) (invoke exec f args)
      fun _ _ => True := by
  have body : Binds T (fun m => f.Bound T m.heap ∧ args.length = f.arity)
      (callFrame f args >>= fun r => inFrame r (inOrder exec f.decl.body)) fun _ _ => True := by
    refine inNewFrame_binds fun m hm => ?_
    obtain ⟨⟨scopes, hp, hmir⟩, ha⟩ := hm
    obtain ⟨⟨_, params, stmts⟩, _, _⟩ := f
    rw [FunDecl.Placed] at hp
    exact ⟨_, scopes, _, _, hmir, Scope.ofParams_within ha, rfl, inOrder_binds hx stmts _ hp⟩
  have := body.bind fun flow => asks_binds (callResult_asks f flow)
  rwa [bind_assoc] at this

/-- So does a call of a class. -/
theorem construct_binds (hx : ExecBinds T exec) (ref : ClassRef) (c : Class) (args : List Value) :
    Binds T (fun m => c.Bound T m.heap ∧ args.length = (Callable.construct ref c).arity)
      (construct exec ref c args) fun _ _ => True := by
  intro m hb hm
  have g : m.heap.Grows (fun _ => True) (m.heap.newObject ref).2 := Heap.newObject_grows ..
  have hb₁ := hb.grows g rfl rfl
  unfold construct
  simp only [Callable.arity] at hm
  cases hi : c.initializer? with
  | none => exact ⟨hb₁, fun _ _ _ => trivial⟩
  | some f =>
    rw [hi] at hm
    obtain ⟨scopes, hp, hmir⟩ := hm.1 _ f hi
    have hf := Function.Bound.bind hp (hmir.grows g) (m.heap.newObject ref).1
    have hb₂ := hb₁.grows (Heap.bind_grows _ f (m.heap.newObject ref).1) rfl rfl
    exact ((invoke_binds hx _ args).bind fun _ => pure_binds _) { m with heap := _ } hb₂ ⟨hf, hm.2⟩

/-- So does any call with as many arguments as are taken. -/
theorem apply_binds (clock : Nat → Float) (hx : ExecBinds T exec) (args : List Value) :
    ∀ c : Callable, Binds T (fun m => c.Bound T m.heap ∧ args.length = c.arity)
      (apply clock exec args c) fun _ _ => True
  | .native .clock => fun _ hb _ => ⟨hb, fun _ _ _ => trivial⟩
  | .function f => invoke_binds hx f args
  | .construct ref c => construct_binds hx ref c args

/-- What passes the check stands where it was declared and takes that many arguments. -/
theorem checkCall_binds (callee : Value) (count : Nat) (paren : Token) :
    Binds T (fun _ => True) (checkCall callee count paren) fun c m =>
      c.Bound T m.heap ∧ count = c.arity := by
  intro m hb _
  refine ⟨((checkCall_asks callee count paren).after_eq m).symm ▸ hb, fun c m' h => ?_⟩
  obtain ⟨rfl, hc, ha, -⟩ := of_checkCall h
  exact ⟨hb.callable hc, ha⟩

/-- To read a property leaves the heap bound: a method that is bound to the object sees it. -/
theorem getProperty_binds {pre : Machine → Prop} (o : ObjectRef) (name : Token) :
    Binds T pre (getProperty o name) fun _ _ => True := by
  intro m hb _
  refine ⟨?_, fun _ _ _ => trivial⟩
  unfold after getProperty
  cases (m.heap.object? o).bind fun object => object.fields.get? name.lexeme with
  | some v => exact hb
  | none =>
    cases hf : m.heap.method? o name.lexeme with
    | none => exact hb
    | some f =>
      obtain ⟨object, _, hf⟩ := Option.bind_eq_some_iff.1 hf
      obtain ⟨c, hc, hf⟩ := Option.bind_eq_some_iff.1 hf
      obtain ⟨scopes, hp, hmir⟩ := hb.classes _ c hc _ f hf
      have hb₁ := hb.grows (Heap.bind_grows _ f o) rfl rfl
      exact hb₁.newFunction (Function.Bound.bind hp hmir o)

/-! ## Declarations -/

/-- Where a name is bound the frame mirrors the scopes with that name declared. -/
theorem define_mirrors {h : Heap} {scopes : Scopes} {r : FrameRef} (hm : h.Mirrors scopes r)
    (name : String) (v : Value) : (h.define r name v).Mirrors (scopes.put name .defined) r := by
  have g : h.Grows (fun _ => True) (h.define r name v) := Heap.define_grows _ _ _ _ (.inl trivial)
  refine (hm.grows g).put fun hne => ?_
  cases scopes with
  | nil => exact absurd rfl hne
  | cons scope outer =>
    obtain ⟨f, _, hf, _⟩ := hm
    simp [Heap.getLocal?, Heap.frame?_define name v hf]

/-- Behind a declaration the scopes with the name are mirrored. -/
theorem define_binds (scopes : Scopes) (name : String) (v : Value) :
    Binds T (Machine.Stands scopes) (define name v) fun _ m =>
      m.Stands (scopes.put name .defined) := fun m hb hm => by
  refine ⟨hb.define _ _ _, fun _ _ h => ?_⟩
  cases h
  exact define_mirrors hm name v

/-- So they are behind that of a function, which stands in these scopes. -/
theorem declareFunction_binds {scopes : Scopes} {decl : FunDecl}
    (hp : decl.Placed false T (scopes.put decl.name.lexeme .defined)) :
    Binds T (Machine.Stands scopes) (declareFunction decl) fun _ m =>
      m.Stands (scopes.put decl.name.lexeme .defined) := fun m hb hm => by
  -- The name is bound after the function is made; bound first, the heap would be the same.
  have hd := define_mirrors hm decl.name.lexeme (.function ⟨m.heap.functions.size⟩)
  have hb₁ := hb.define m.frame decl.name.lexeme (.function ⟨m.heap.functions.size⟩)
  refine ⟨hb₁.newFunction (f := ⟨decl, m.frame, false⟩) ⟨_, hp, hd⟩, fun _ _ h => ?_⟩
  cases h
  exact hd.grows (Heap.newFunction_grows _ ⟨decl, m.frame, false⟩)

/-- A method in the table of a class is one of its declarations, closed over its frame. -/
theorem methodTable_get? {frame : FrameRef} {decls : List FunDecl} {name : String} {f : Function}
    (h : (methodTable frame decls).get? name = some f) :
    f.decl ∈ decls ∧ f.closure = frame := by
  rcases Bindings.get?_insertMany h with h | h
  · cases h
  · obtain ⟨d, hd, he⟩ := List.mem_map.1 h
    cases he
    exact ⟨hd, rfl⟩

/-- So they are behind the declaration of a class, whose methods stand in its own scope. -/
theorem declareClass_binds {scopes : Scopes} {name : Token} {decls : List FunDecl}
    (hp : FunDecl.PlacedList false T decls (Scope.ofClass :: scopes.put name.lexeme .defined)) :
    Binds T (Machine.Stands scopes) (declareClass name decls) fun _ m =>
      m.Stands (scopes.put name.lexeme .defined) := fun m hb hm => by
  have hd := define_mirrors hm name.lexeme .nil
  have hc : Class.Bound T (m.heap.define m.frame name.lexeme .nil)
      ⟨name.lexeme, methodTable m.frame decls⟩ := by
    intro n f hf
    obtain ⟨hmem, hcl⟩ := methodTable_get? hf
    exact ⟨_, FunDecl.placedList_iff.1 hp _ hmem, hcl ▸ hd⟩
  have hb₁ := (hb.define m.frame name.lexeme .nil).newClass hc
  have code := assignLocal_code ((m.heap.define m.frame name.lexeme .nil).newClass
    ⟨name.lexeme, methodTable m.frame decls⟩).2 m.frame name.lexeme
    (.ofClass ⟨m.heap.classes.size⟩)
  refine ⟨hb₁.grows (Heap.assignLocal_grows ..) code.1 code.2, fun _ _ h => ?_⟩
  cases h
  exact (hd.grows (Heap.newClass_grows ..)).grows
    (Heap.assignLocal_grows ..)

/-! ## Rules -/

variable (T eval) in
/-- Evaluating an expression keeps the heap bound. -/
def EvalBinds : Prop := ∀ e, Binds T (fun _ => True) (eval e) fun _ _ => True

/-- Expressions one after the other leave the heap bound. -/
theorem each_binds (he : EvalBinds T eval) (es : List Expr) :
    Binds T (fun _ => True) (each eval es) fun _ _ => True := by
  induction es with
  | nil => exact pure_binds _
  | cons e es ih => exact (he e).bind fun _ => ih.bind fun _ => pure_binds _

/-- So does an expression that may be missing. -/
theorem orNil_binds (he : EvalBinds T eval) : ∀ e,
    Binds T (fun _ => True) (orNil eval e) fun _ _ => True
  | none => pure_binds _
  | some e => he e

/-- One step of evaluation leaves the heap bound, if what it refers to does. -/
theorem evalRule_binds (p : Setting) (he : EvalBinds T eval) (hx : ExecBinds T exec) :
    EvalBinds T (evalRule p eval exec)
  | .literal .nil => pure_binds _
  | .literal (.bool _) => pure_binds _
  | .literal (.number _) => pure_binds _
  | .literal (.string _) => pure_binds _
  | .grouping inner => he inner
  | .unary op operand => (he operand).bind fun v => asks_binds (applyUnary_asks op v)
  | .binary left op right => (he left).bind fun l => (he right).bind fun r =>
    asks_binds (applyBinary_asks op l r)
  | .logical left op right => (he left).bind fun l => by
    cases h : decides op l
    · simpa [h] using he right
    · simpa [h] using pure_binds l
  | .ident _ _ => asks_binds (readName_asks ..)
  | .receiver _ _ => asks_binds (readName_asks ..)
  | .assign _ _ value => (he value).bind fun _ => (assignName_operates ..).binds.bind fun _ =>
    pure_binds _
  | .call callee paren args => (he callee).bind fun f => (each_binds he args).bind fun vs =>
    (checkCall_binds f vs.length paren).bind fun c =>
      counted_binds (P := fun h => c.Bound T h ∧ vs.length = c.arity)
        (apply_binds p.clock hx vs c)
  | .get object name => (he object).bind fun v => by
    cases v with
    | object o => exact getProperty_binds o name
    | _ => exact fail_binds _ _
  | .set object name value => (he object).bind fun v => by
    cases v with
    | object o =>
      exact (he value).bind fun v => (setProperty_operates o name v).binds.bind fun _ =>
        pure_binds _
    | _ => exact fail_binds _ _

/-- What holds where a statement that declares nothing is started holds behind it. -/
theorem execBinds_plain {s : Stmt} {scopes : Scopes} (hs : s.declares = false)
    (hc : Binds T (Machine.Stands scopes) (execRule eval exec s) fun _ _ => True)
    (hk : Keeps True (execRule eval exec s)) :
    Binds T (Machine.Stands scopes) (execRule eval exec s) fun flow m =>
      flow = .normal → m.Stands (s.scopesAfter scopes) := by
  rw [Stmt.scopesAfter_plain hs]
  exact (hc.standing hk scopes).weaken (fun _ h => ⟨h, h⟩) fun _ _ h _ => h.2

/-- Where nothing is declared the scopes stay mirrored. -/
theorem normal_binds (scopes : Scopes) :
    Binds T (Machine.Stands scopes) (pure .normal : Eval Flow) fun flow m =>
      flow = .normal → m.Stands scopes := fun m hb hm =>
  ⟨hb, fun _ _ h _ => by cases h; exact hm⟩

/-- A statement that declares nothing leaves the scopes mirrored. -/
theorem plain_binds (hx : ExecBinds T exec) {s : Stmt} {scopes : Scopes}
    (hs : s.declares = false ∧ s.Placed false T scopes) :
    Binds T (Machine.Stands scopes) (exec s) fun flow m => flow = .normal → m.Stands scopes := by
  have := hx s scopes hs.2
  rwa [Stmt.scopesAfter_plain hs.1] at this

/-- Behind an expression the scopes are mirrored as before. -/
theorem eval_standing (he : EvalBinds T eval) (ke : ∀ e, Keeps False (eval e)) (scopes : Scopes)
    (e : Expr) : Binds T (Machine.Stands scopes) (eval e) fun _ m => m.Stands scopes :=
  ((he e).standing (ke e) scopes).weaken (fun _ h => ⟨trivial, h⟩) fun _ _ h => h.2

/-- The same of an expression that may be missing. -/
theorem orNil_standing (he : EvalBinds T eval) (ke : ∀ e, Keeps False (eval e)) (scopes : Scopes)
    (e : Option Expr) :
    Binds T (Machine.Stands scopes) (orNil eval e) fun _ m => m.Stands scopes :=
  ((orNil_binds he e).standing (orNil_keeps ke e) scopes).weaken (fun _ h => ⟨trivial, h⟩)
    fun _ _ h => h.2

/-- One step of execution leaves the heap bound and the scopes behind it mirrored, if what it refers
to does. -/
theorem execRule_binds (he : EvalBinds T eval) (hx : ExecBinds T exec)
    (ke : ∀ e, Keeps False (eval e)) (kx : ∀ s, Keeps True (exec s)) :
    ExecBinds T (execRule eval exec) := by
  intro s scopes hp
  have hk := execRule_keeps ke kx s
  cases s with
  | expression e =>
    exact execBinds_plain rfl ((eval_standing he ke scopes e).bind fun _ => pure_binds _) hk
  | print e =>
    refine execBinds_plain rfl ((eval_standing he ke scopes e).bind fun v => ?_) hk
    exact (print_binds v).bind fun _ => pure_binds _
  | var name init =>
    exact (orNil_standing he ke scopes init).bind fun v =>
      (define_binds scopes name.lexeme v).bind fun _ => normal_binds _
  | block body =>
    rw [Stmt.Placed] at hp
    refine execBinds_plain rfl (inNewFrame_binds fun m hm => ?_) hk
    exact ⟨∅, scopes, m.frame, ∅, hm, fun _ h => h, rfl, inOrder_binds hx body _ hp⟩
  | branch cond thenB elseB =>
    refine (eval_standing he ke scopes cond).bind fun v => ?_
    cases elseB with
    | none =>
      rw [Stmt.Placed] at hp
      cases h : v.isTruthy
      · exact normal_binds scopes
      · exact plain_binds hx hp.2
    | some s =>
      rw [Stmt.Placed] at hp
      cases h : v.isTruthy
      · exact plain_binds hx hp.2.2
      · exact plain_binds hx hp.2.1
  | loop cond body =>
    have hloop := hx (.loop cond body) scopes hp
    rw [Stmt.Placed] at hp
    refine (eval_standing he ke scopes cond).bind fun v => ?_
    cases h : v.isTruthy
    · exact normal_binds scopes
    · simp only [if_true]
      refine (plain_binds hx hp.2).bind fun flow => ?_
      cases flow with
      | normal => exact hloop.weaken (fun _ h => h rfl) fun _ _ h => h
      | returned v => exact fun m hb _ => ⟨hb, fun _ _ h hn => by cases h; cases hn⟩
  | function decl =>
    rw [Stmt.Placed] at hp
    exact (declareFunction_binds hp.2).bind fun _ => normal_binds _
  | ret keyword value =>
    exact execBinds_plain rfl ((orNil_standing he ke scopes value).bind fun _ => pure_binds _) hk
  | classDecl name methods =>
    rw [Stmt.Placed] at hp
    exact (declareClass_binds hp.2).bind fun _ => normal_binds _

end

/-- **Evaluation keeps the heap bound**, whatever comes of it. -/
theorem eval_exec_binds (T : Distances → Prop) (p : Setting) : ∀ fuel,
    EvalBinds T (eval p fuel) ∧ ExecBinds T (exec p fuel)
  | 0 => ⟨fun _ _ hb _ => ⟨hb, fun _ _ h => by cases h⟩,
      fun _ _ _ _ hb _ => ⟨hb, fun _ _ h => by cases h⟩⟩
  | fuel + 1 => by
    obtain ⟨he, hx⟩ := eval_exec_binds T p fuel
    exact ⟨evalRule_binds p he hx,
      execRule_binds he hx (eval_keeps p fuel) (exec_keeps p fuel)⟩

end Eval

end Lox
