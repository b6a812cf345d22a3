/-
# What every computation keeps

However a computation ends, it leaves the active frame and the number of calls in progress as it
found them, and the heap has only grown (`Machine.Kept`). An expression gives no frame a new name,
a statement only the active one. This holds of every tree, every table of distances and every
machine.
-/

import Lox.Proofs.Eval.Operation

namespace Lox

/-- `m'` can be left by a computation that was started on `m` and that gives new names to the
frames of `gains` only. -/
structure Machine.Kept (gains : FrameRef → Prop) (m m' : Machine) : Prop where
  heap : m.heap.Grows gains m'.heap
  frame : m'.frame = m.frame
  calls : m'.calls = m.calls

namespace Machine.Kept

variable {gains : FrameRef → Prop} {m m' m'' : Machine}

/-- A machine may be left as it is. -/
theorem refl (m : Machine) : m.Kept gains m := ⟨.refl _, rfl, rfl⟩

/-- What is kept over two stretches, one behind the other, is kept over both. -/
theorem trans (k : m.Kept gains m') (k' : m'.Kept gains m'') : m.Kept gains m'' :=
  ⟨k.heap.trans k'.heap, k'.frame.trans k.frame, k'.calls.trans k.calls⟩

/-- Of the frames that are there more may be given names. -/
theorem weaken {gains' : FrameRef → Prop} (k : m.Kept gains m')
    (h : ∀ r f, m.heap.frame? r = some f → gains r → gains' r) : m.Kept gains' m' :=
  ⟨k.heap.weaken h, k.frame, k.calls⟩

end Machine.Kept

namespace Eval

/-- The machine that a computation leaves. -/
def after {α : Type} (c : Eval α) (m : Machine) : Machine :=
  match c m with
  | .ok _ m' => m'
  | .error _ m' => m'

/-- The computation keeps what every computation keeps, and gives names to the active frame at
most, and only if it may declare. -/
def Keeps {α : Type} (declares : Prop) (c : Eval α) : Prop :=
  ∀ m : Machine, m.Kept (fun r => declares ∧ r = m.frame) (after c m)

section Parts

variable {α β : Type} {declares : Prop} {c : Eval α} {f : α → Eval β} {m m' : Machine}

/-- Behind a computation that returned the second goes on from its machine and result. -/
theorem bind_of_ok {a : α} {m' : Machine} (h : c m = .ok a m') : (c >>= f) m = f a m' := by
  change EStateM.bind c f m = _
  rw [EStateM.bind, h]

/-- A computation that stopped is not gone on with. -/
theorem bind_of_error {e : Stop} {m' : Machine} (h : c m = .error e m') :
    (c >>= f) m = .error e m' := by
  change EStateM.bind c f m = _
  rw [EStateM.bind, h]

/-- A result of two computations in a row comes from a result of the first. -/
theorem ok_of_bind {b : β} (h : (c >>= f) m = .ok b m') :
    ∃ a m₁, c m = .ok a m₁ ∧ f a m₁ = .ok b m' := by
  change EStateM.bind c f m = _ at h
  unfold EStateM.bind at h
  cases hc : c m with
  | ok a m₁ =>
    rw [hc] at h
    exact ⟨a, m₁, rfl, h⟩
  | error e m₁ =>
    rw [hc] at h
    cases h

/-- What a computation that returned leaves. -/
theorem after_ok {a : α} (h : c m = .ok a m') : after c m = m' := by rw [after, h]

/-- What a computation that stopped leaves. -/
theorem after_error {e : Stop} (h : c m = .error e m') : after c m = m' := by rw [after, h]

/-- What is kept where the computation returns. -/
theorem Keeps.ok {a : α} (hc : Keeps declares c) (h : c m = .ok a m') :
    m.Kept (fun r => declares ∧ r = m.frame) m' := after_ok h ▸ hc m

/-- What is kept where the computation stops. -/
theorem Keeps.error {e : Stop} (hc : Keeps declares c) (h : c m = .error e m') :
    m.Kept (fun r => declares ∧ r = m.frame) m' := after_error h ▸ hc m

/-- A computation that declares nothing may be taken for one that may declare. -/
theorem Keeps.declaring (hc : Keeps False c) : Keeps declares c := fun m =>
  (hc m).weaken fun _ _ _ h => h.1.elim

/-- To return a value keeps the machine. -/
theorem pure_keeps (a : α) : Keeps declares (pure a : Eval α) := fun m => .refl m

/-- To stop keeps the machine. -/
theorem throw_keeps (e : Stop) : Keeps declares (throw e : Eval α) := fun m => .refl m

/-- To fail keeps the machine. -/
theorem fail_keeps (cause : Trouble) (token : Token) : Keeps declares (fail cause token : Eval α) :=
  throw_keeps _

/-- Computations one behind the other keep what both parts keep. -/
theorem bind_keeps (hc : Keeps declares c) (hf : ∀ a, Keeps declares (f a)) :
    Keeps declares (c >>= f) := by
  intro m
  change m.Kept _ (after (EStateM.bind c f) m)
  unfold after EStateM.bind
  cases h : c m with
  | ok a m₁ =>
    have k := hc.ok h
    have k₁ := hf a m₁
    rw [k.frame] at k₁
    exact k.trans k₁
  | error e m₁ => exact hc.error h

/-- What an operation leaves is kept, in trouble or not. -/
theorem Operates.keeps {causes : Trouble → Prop} {changes : Heap → Heap → Prop}
    (hc : Operates causes changes c) : Keeps declares c := by
  intro m
  have ends := hc.ends m
  unfold after
  generalize c m = r at ends ⊢
  cases ends with
  | ok grows => exact ⟨grows _, rfl, rfl⟩
  | trouble _ grows => exact ⟨grows _, rfl, rfl⟩

/-- An operation that only asks leaves the machine as it is. -/
theorem Operates.after_eq {causes : Trouble → Prop} (hc : Asks causes c) (m : Machine) :
    after c m = m := by
  have ends := hc.ends m
  unfold after
  generalize c m = r at ends ⊢
  cases ends with
  | ok _ change => rw [← change]
  | trouble _ _ change => rw [← change]

/-- The computation makes a new frame and does nothing else. -/
def Opens (c : Eval FrameRef) : Prop :=
  ∀ m : Machine, ∃ parent values,
    c m = .ok ⟨m.heap.frames.size⟩ { m with heap := (m.heap.newFrame parent values).2 }

/-- The frame of a call is new, and nothing else is done. -/
theorem callFrame_opens (f : Function) (args : List Value) : Opens (callFrame f args) :=
  fun _ => ⟨_, _, rfl⟩

/-- The frame of a block is new, and nothing else is done. -/
theorem innerFrame_opens : Opens innerFrame := fun _ => ⟨_, _, rfl⟩

/-- Running inside a new frame: only that frame gains names, and it was not there before. -/
theorem inNewFrame_keeps {mk : Eval FrameRef} (hmk : Opens mk) (hc : Keeps True c) :
    Keeps declares (mk >>= fun r => inFrame r c) := by
  intro m
  obtain ⟨parent, values, hm⟩ := hmk m
  have k := hc { m with
    heap := (m.heap.newFrame parent values).2, frame := ⟨m.heap.frames.size⟩ }
  have grows : m.heap.Grows (fun r => True ∧ r = ⟨m.heap.frames.size⟩)
    (m.heap.newFrame parent values).2 := Heap.newFrame_grows ..
  have hw : ∀ r f, m.heap.frame? r = some f → True ∧ r = ⟨m.heap.frames.size⟩ →
      declares ∧ r = m.frame := by
    rintro r f hf ⟨-, rfl⟩
    exact absurd rfl (Nat.ne_of_lt (Heap.lt_size_of_frame? hf))
  change m.Kept _ (after (EStateM.bind mk fun r => inFrame r c) m)
  unfold after at k
  unfold after EStateM.bind inFrame
  rw [hm]
  dsimp only
  cases h : c { m with
      heap := (m.heap.newFrame parent values).2, frame := ⟨m.heap.frames.size⟩ } with
  | ok a m' =>
    rw [h] at k
    exact ⟨(grows.trans k.heap).weaken hw, rfl, k.calls⟩
  | error e m' =>
    rw [h] at k
    exact ⟨(grows.trans k.heap).weaken hw, rfl, k.calls⟩

/-- A call that is counted is taken off the count, however it ends. -/
theorem counted_keeps (hc : Keeps declares c) : Keeps declares (counted c) := by
  intro m
  have k := hc { m with calls := m.calls + 1 }
  unfold after at k ⊢
  unfold counted
  cases h : c { m with calls := m.calls + 1 } with
  | ok a m' =>
    rw [h] at k
    exact ⟨k.heap, k.frame, congrArg (· - 1) k.calls⟩
  | error e m' =>
    rw [h] at k
    exact ⟨k.heap, k.frame, congrArg (· - 1) k.calls⟩

/-- A list of computations keeps what each of them does. -/
theorem each_keeps {f : α → Eval β} (hf : ∀ a, Keeps declares (f a)) :
    ∀ as, Keeps declares (each f as)
  | [] => pure_keeps _
  | a :: as => bind_keeps (hf a) fun _ => bind_keeps (each_keeps hf as) fun _ => pure_keeps _

end Parts

section Operations

variable {declares : Prop}

/-- Printing leaves the heap. -/
theorem print_keeps (v : Value) : Keeps declares (print v) := by
  intro m
  obtain ⟨sink, h | h⟩ := print_ends v m
  · exact after_ok h ▸ ⟨.refl _, rfl, rfl⟩
  · exact after_error h ▸ ⟨.refl _, rfl, rfl⟩

/-- A declaration gives the active frame a name. -/
theorem define_keeps (name : String) (v : Value) : Keeps True (define name v) := fun _ =>
  ⟨Heap.define_grows _ _ _ _ (.inl ⟨trivial, rfl⟩), rfl, rfl⟩

/-- So does that of a function. -/
theorem declareFunction_keeps (decl : FunDecl) : Keeps True (declareFunction decl) := fun _ =>
  ⟨(Heap.newFunction_grows ..).trans (Heap.define_grows _ _ _ _ (.inl ⟨trivial, rfl⟩)), rfl, rfl⟩

/-- So does that of a class. -/
theorem declareClass_keeps (name : Token) (decls : List FunDecl) :
    Keeps True (declareClass name decls) := fun _ =>
  ⟨((Heap.define_grows _ _ _ _ (.inl ⟨trivial, rfl⟩)).trans (Heap.newClass_grows ..)).trans
    (Heap.assignLocal_grows ..), rfl, rfl⟩

end Operations

/-! ## Rules -/

section Rules

variable {declares : Prop} {eval : Expr → Eval Value} {exec : Stmt → Eval Flow}

/-- Statements in order keep what each of them does. -/
theorem inOrder_keeps (hx : ∀ s, Keeps True (exec s)) (ss : List Stmt) :
    Keeps True (inOrder exec ss) := by
  induction ss with
  | nil => exact pure_keeps _
  | cons s ss ih =>
    refine bind_keeps (hx s) fun flow => ?_
    cases flow with
    | normal => exact ih
    | returned v => exact pure_keeps _

/-- The body of a function may declare, but in the new frame of the call only. -/
theorem invoke_keeps (hx : ∀ s, Keeps True (exec s)) (f : Function) (args : List Value) :
    Keeps declares (invoke exec f args) := by
  have body : Keeps declares (callFrame f args >>= fun r =>
      inFrame r (inOrder exec f.decl.body)) :=
    inNewFrame_keeps (callFrame_opens f args) (inOrder_keeps hx _)
  have := bind_keeps body fun flow => (callResult_asks f flow).keeps
  rwa [bind_assoc] at this

/-- A call of a class makes an object, and calls its initializer if there is one. -/
theorem construct_keeps (hx : ∀ s, Keeps True (exec s)) (ref : ClassRef) (c : Class)
    (args : List Value) : Keeps declares (construct exec ref c args) := by
  refine bind_keeps (onHeap_operates (Heap.newObject_grows ..)).keeps fun o => ?_
  cases c.initializer? with
  | none => exact pure_keeps _
  | some f =>
    refine bind_keeps (onHeap_operates (Heap.bind_grows ..)).keeps fun bound => ?_
    exact bind_keeps (invoke_keeps hx bound args) fun _ => pure_keeps _

/-- Any call gives no frame that is there a name. -/
theorem apply_keeps (clock : Nat → Float) (hx : ∀ s, Keeps True (exec s)) (args : List Value) :
    ∀ c, Keeps declares (apply clock exec args c)
  | .native .clock => fun _ => ⟨.refl _, rfl, rfl⟩
  | .function f => invoke_keeps hx f args
  | .construct ref c => construct_keeps hx ref c args

/-- An expression that may be missing keeps what expressions do. -/
theorem orNil_keeps (he : ∀ e, Keeps declares (eval e)) : ∀ e, Keeps declares (orNil eval e)
  | none => pure_keeps _
  | some e => he e

/-- One step of evaluation declares nothing, if what it refers to keeps the machine. -/
theorem evalRule_keeps (p : Setting) (he : ∀ e, Keeps False (eval e))
    (hx : ∀ s, Keeps True (exec s)) : ∀ e, Keeps False (evalRule p eval exec e)
  | .literal .nil => pure_keeps _
  | .literal (.bool _) => pure_keeps _
  | .literal (.number _) => pure_keeps _
  | .literal (.string _) => pure_keeps _
  | .grouping inner => he inner
  | .unary op operand => bind_keeps (he operand) fun v => (applyUnary_asks op v).keeps
  | .binary left op right =>
    bind_keeps (he left) fun _ => bind_keeps (he right) fun _ => (applyBinary_asks ..).keeps
  | .logical left op right => bind_keeps (he left) fun l => by
    cases h : decides op l
    · simpa [h] using he right
    · simpa [h] using pure_keeps l
  | .ident _ _ => (readName_asks ..).keeps
  | .receiver _ _ => (readName_asks ..).keeps
  | .assign _ _ value =>
    bind_keeps (he value) fun _ => bind_keeps (assignName_operates ..).keeps fun _ => pure_keeps _
  | .call callee _ args =>
    bind_keeps (he callee) fun _ => bind_keeps (each_keeps he args) fun _ =>
      bind_keeps (checkCall_asks ..).keeps fun c => counted_keeps (apply_keeps p.clock hx _ c)
  | .get object name => bind_keeps (he object) fun v => by
    cases v with
    | object o => exact (getProperty_operates o name).keeps
    | _ => exact fail_keeps _ _
  | .set object name value => bind_keeps (he object) fun v => by
    cases v with
    | object o =>
      exact bind_keeps (he value) fun v =>
        bind_keeps (setProperty_operates o name v).keeps fun _ => pure_keeps _
    | _ => exact fail_keeps _ _

/-- One step of execution gives the active frame names at most. -/
theorem execRule_keeps (he : ∀ e, Keeps False (eval e)) (hx : ∀ s, Keeps True (exec s)) :
    ∀ s, Keeps True (execRule eval exec s)
  | .expression e => bind_keeps (he e).declaring fun _ => pure_keeps _
  | .print e =>
    bind_keeps (he e).declaring fun v => bind_keeps (print_keeps v) fun _ => pure_keeps _
  | .var _ init =>
    bind_keeps (orNil_keeps he init).declaring fun v =>
      bind_keeps (define_keeps _ v) fun _ => pure_keeps _
  | .block body =>
    inNewFrame_keeps innerFrame_opens (inOrder_keeps hx body)
  | .branch cond thenB elseB => bind_keeps (he cond).declaring fun v => by
    cases h : v.isTruthy
    · cases elseB with
      | none => simpa [h] using pure_keeps _
      | some s => simpa [h] using hx s
    · simpa [h] using hx thenB
  | .loop cond body => bind_keeps (he cond).declaring fun v => by
    cases h : v.isTruthy
    · simpa [h] using pure_keeps _
    · simp only [if_true]
      refine bind_keeps (hx body) fun flow => ?_
      cases flow with
      | normal => exact hx _
      | returned v => exact pure_keeps _
  | .function decl => bind_keeps (declareFunction_keeps decl) fun _ => pure_keeps _
  | .ret _ value => bind_keeps (orNil_keeps he value).declaring fun _ => pure_keeps _
  | .classDecl name decls => bind_keeps (declareClass_keeps name decls) fun _ => pure_keeps _

end Rules

/-- Both are kept with any fuel, by induction on it. -/
theorem eval_exec_keeps (p : Setting) : ∀ fuel,
    (∀ e, Keeps False (eval p fuel e)) ∧ ∀ s, Keeps True (exec p fuel s)
  | 0 => ⟨fun _ => throw_keeps _, fun _ => throw_keeps _⟩
  | fuel + 1 => by
    obtain ⟨he, hx⟩ := eval_exec_keeps p fuel
    exact ⟨evalRule_keeps p he hx, execRule_keeps he hx⟩

/-- Evaluating an expression gives no frame a new name. -/
theorem eval_keeps (p : Setting) (fuel : Nat) (e : Expr) : Keeps False (eval p fuel e) :=
  (eval_exec_keeps p fuel).1 e

/-- Running a statement gives the active frame names at most. -/
theorem exec_keeps (p : Setting) (fuel : Nat) (s : Stmt) : Keeps True (exec p fuel s) :=
  (eval_exec_keeps p fuel).2 s

/-- So does running a program. -/
theorem execProgram_keeps (p : Setting) (fuel : Nat) (ss : List Stmt) :
    Keeps True (execProgram p fuel ss) := by
  induction ss with
  | nil => exact pure_keeps _
  | cons s ss ih => exact bind_keeps (exec_keeps p fuel s) fun _ => ih

end Eval

end Lox
