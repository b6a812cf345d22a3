/-
# Invariants of evaluation

An invariant says what holds of the heap, of each value, of each tree and of the frame that the tree
runs in, and shows that every single change of a heap keeps it (`Invariant`). It then holds of
everything on the heap (`Invariant.Holds`), whatever is evaluated and however that ends
(`Invariant.eval_exec`).
-/

import Lox.Proofs.Eval.Mirrored
import Lox.Proofs.Tree.Obeys

namespace Lox

/-- A new object has the methods of its class. -/
theorem Heap.method?_newObject {h : Heap} {ref : ClassRef} {c : Class} {name : String}
    {f : Function} (hc : h.class? ref = some c) (hf : c.methods.get? name = some f) :
    (h.newObject ref).2.method? (h.newObject ref).1 name = some f := by
  have hc' : (h.newObject ref).2.class? ref = some c := hc
  have ho : (h.newObject ref).2.object? (h.newObject ref).1 = some ⟨ref, ∅⟩ := by
    simp [Heap.newObject, Heap.object?]
  simp [Heap.method?, ho, hc', hf]

/-- The method that is called `init` is the initializer, and no other one is. -/
theorem Eval.methodTable_isInitializer {frame : FrameRef} {decls : List FunDecl} {name : String}
    {f : Function} (h : (methodTable frame decls).get? name = some f) :
    f.isInitializer = (name == Heap.initializerName) := by
  rcases Bindings.get?_insertMany h with h | h
  · cases h
  · obtain ⟨d, -, he⟩ := List.mem_map.1 h
    cases he
    rfl

/-- Whether the value refers to nothing on the heap. -/
def Value.isPlain : Value → Bool
  | .function _ => false
  | .ofClass _ => false
  | .object _ => false
  | _ => true

/-- What evaluation keeps. Trees obey the rules, each at a position `κ`. The laws are about single
changes of a heap. -/
structure Invariant (κ : Type) where
  rules : TreeRules κ
  /-- What holds of the frames and objects of a heap. -/
  own : Heap → Prop
  /-- What holds of a heap and a later one. -/
  leads : Heap → Heap → Prop
  /-- What holds of a value, given the heap. -/
  value : Heap → Value → Prop
  /-- What holds of the frame in which a tree at this position runs. -/
  frame : κ → Heap → FrameRef → Prop
  /-- What holds of the frame in which the receiver of an initializer is bound. -/
  receives : Heap → FrameRef → Prop
  leads_refl : ∀ h, leads h h
  leads_trans : ∀ {h h' h''}, leads h h' → leads h' h'' → leads h h''
  value_leads : ∀ {h h' v}, leads h h' → value h v → value h' v
  frame_leads : ∀ {k h h' r}, leads h h' → frame k h r → frame k h' r
  receives_leads : ∀ {h h' r}, leads h h' → receives h r → receives h' r
  plain : ∀ {h v}, v.isPlain = true → value h v
  binding : ∀ {h r name v}, own h → h.getLocal? r name = some v → value h v
  field : ∀ {h r o name v}, own h → h.object? r = some o → o.fields.get? name = some v →
    value h v
  assigned : ∀ {k id t}, rules.node k ⟨.write, id, t⟩ → rules.name t.lexeme
  define : ∀ {h r name v}, own h → value h v → rules.name name →
    own (h.define r name v) ∧ leads h (h.define r name v)
  openFrame : ∀ {k h parent values}, own h → frame k h parent →
    (∀ name v, values.get? name = some v → rules.name name ∧ value h v) →
      own (h.newFrame parent values).2 ∧ leads h (h.newFrame parent values).2 ∧
        frame (rules.inner k) (h.newFrame parent values).2 (h.newFrame parent values).1
  bindFrame : ∀ {k h name f o}, own h → frame k h f.closure → value h (.object o) →
    h.method? o name = some f →
      own (h.bind f o).2 ∧ leads h (h.bind f o).2 ∧
        frame (rules.method k f.decl) (h.bind f o).2 (h.bind f o).1.closure ∧
          receives (h.bind f o).2 (h.bind f o).1.closure
  newFunction : ∀ {h} f, own h → own (h.newFunction f).2 ∧ leads h (h.newFunction f).2 ∧
    value (h.newFunction f).2 (.function (h.newFunction f).1)
  newClass : ∀ {h} c, own h → own (h.newClass c).2 ∧ leads h (h.newClass c).2 ∧
    value (h.newClass c).2 (.ofClass (h.newClass c).1)
  newObject : ∀ {h c}, own h → value h (.ofClass c) →
    own (h.newObject c).2 ∧ leads h (h.newObject c).2 ∧
      value (h.newObject c).2 (.object (h.newObject c).1)
  setField : ∀ {h o name v}, own h → value h v →
    own (h.setField o name v) ∧ leads h (h.setField o name v)

namespace Invariant

variable {κ : Type}

section Heaps

variable (I : Invariant κ)

/-- The function can be called: its body runs inside its closure. -/
def Callee (h : Heap) (f : Function) : Prop :=
  ∃ k, f.decl.Obeys I.rules k ∧ I.frame k h f.closure ∧
    (f.isInitializer = true → I.receives h f.closure)

/-- The function is a method of a class, to be bound before it is called. -/
def Method (h : Heap) (name : String) (f : Function) : Prop :=
  ∃ k, f.decl.Obeys I.rules (I.rules.method k f.decl) ∧ I.frame k h f.closure ∧
    f.isInitializer = (name == Heap.initializerName)

/-- The invariant holds of everything on the heap. -/
structure Holds (h : Heap) : Prop where
  functions : ∀ r f, h.function? r = some f → I.Callee h f
  classes : ∀ r c, h.class? r = some c → ∀ name f, c.methods.get? name = some f →
    I.Method h name f
  own : I.own h

/-- How a statement ends keeps the invariant. -/
def Flows (h : Heap) : Flow → Prop
  | .normal => True
  | .returned v => I.value h v

variable {I} {h h' : Heap} {k : κ}

/-- A function that can be called can be called later. -/
theorem Callee.leads {f : Function} (hf : I.Callee h f) (hl : I.leads h h') : I.Callee h' f := by
  obtain ⟨k, hd, hr, hi⟩ := hf
  exact ⟨k, hd, I.frame_leads hl hr, fun h => I.receives_leads hl (hi h)⟩

/-- A method of a class stays one. -/
theorem Method.leads {name : String} {f : Function} (hf : I.Method h name f)
    (hl : I.leads h h') : I.Method h' name f := by
  obtain ⟨k, hd, hr, hi⟩ := hf
  exact ⟨k, hd, I.frame_leads hl hr, hi⟩

namespace Holds

/-- Nothing but new functions and classes asks for more than the laws say. -/
theorem step (hh : I.Holds h) (ho : I.own h') (hl : I.leads h h')
    (hf : h'.functions = h.functions) (hc : h'.classes = h.classes) : I.Holds h' where
  functions r f hr := (hh.functions r f (by rwa [Heap.function?, ← hf])).leads hl
  classes r c hr name f hm := (hh.classes r c (by rwa [Heap.class?, ← hc]) name f hm).leads hl
  own := ho

/-- Binding a name keeps the invariant. -/
theorem define (hh : I.Holds h) {r : FrameRef} {name : String} {v : Value} (hv : I.value h v)
    (hn : I.rules.name name) : I.Holds (h.define r name v) ∧ I.leads h (h.define r name v) := by
  obtain ⟨ho, hl⟩ := I.define (r := r) hh.own hv hn
  exact ⟨hh.step ho hl rfl rfl, hl⟩

/-- Assigning in a frame keeps the invariant, whether the name is bound there or not. -/
theorem assignLocal (hh : I.Holds h) {r : FrameRef} {name : String} {v : Value}
    (hv : I.value h v) (hn : I.rules.name name) :
    I.Holds (h.assignLocal r name v).2 ∧ I.leads h (h.assignLocal r name v).2 := by
  unfold Heap.assignLocal
  split
  · exact hh.define hv hn
  · exact ⟨hh, I.leads_refl h⟩

/-- Assigning at a place keeps the invariant. -/
theorem assignedAt (hh : I.Holds h) (r : FrameRef) (place : Place) {name : String} {v : Value}
    (hv : I.value h v) (hn : I.rules.name name) :
    I.Holds (Eval.assignedAt h r place name v).2 ∧
      I.leads h (Eval.assignedAt h r place name v).2 := by
  cases place with
  | global => exact hh.assignLocal hv hn
  | outward d =>
    simp only [Eval.assignedAt, Heap.assignAt]
    split
    · exact hh.assignLocal hv hn
    · exact ⟨hh, I.leads_refl h⟩

/-- A new function keeps the invariant, and so does the value that refers to it. -/
theorem newFunction (hh : I.Holds h) {f : Function} (hf : I.Callee h f) :
    I.Holds (h.newFunction f).2 ∧ I.leads h (h.newFunction f).2 ∧
      I.value (h.newFunction f).2 (.function (h.newFunction f).1) := by
  obtain ⟨ho, hl, hv⟩ := I.newFunction f hh.own
  refine ⟨⟨fun r f' hr => ?_, fun r c hr name f hm => (hh.classes r c hr name f hm).leads hl, ho⟩,
    hl, hv⟩
  simp only [Heap.newFunction, Heap.function?, Array.getElem?_push] at hr
  split at hr
  · cases hr
    exact hf.leads hl
  · exact (hh.functions r f' hr).leads hl

/-- A new class keeps the invariant, and so does the value that refers to it. -/
theorem newClass (hh : I.Holds h) {c : Class}
    (hc : ∀ name f, c.methods.get? name = some f → I.Method h name f) :
    I.Holds (h.newClass c).2 ∧ I.leads h (h.newClass c).2 ∧
      I.value (h.newClass c).2 (.ofClass (h.newClass c).1) := by
  obtain ⟨ho, hl, hv⟩ := I.newClass c hh.own
  refine ⟨⟨fun r f hr => (hh.functions r f hr).leads hl, fun r c' hr name f hm => ?_, ho⟩, hl, hv⟩
  simp only [Heap.newClass, Heap.class?, Array.getElem?_push] at hr
  split at hr
  · cases hr
    exact (hc name f hm).leads hl
  · exact (hh.classes r c' hr name f hm).leads hl

/-- A new object keeps the invariant, and so does the value that refers to it. -/
theorem newObject (hh : I.Holds h) {c : ClassRef} (hc : I.value h (.ofClass c)) :
    I.Holds (h.newObject c).2 ∧ I.leads h (h.newObject c).2 ∧
      I.value (h.newObject c).2 (.object (h.newObject c).1) := by
  obtain ⟨ho, hl, hv⟩ := I.newObject hh.own hc
  exact ⟨hh.step ho hl rfl rfl, hl, hv⟩

/-- Binding a method to an object keeps the invariant, and gives a function that can be called. -/
theorem bind (hh : I.Holds h) {o : ObjectRef} (ho : I.value h (.object o)) {name : String}
    {f : Function} (hf : h.method? o name = some f) :
    I.Holds (h.bind f o).2 ∧ I.leads h (h.bind f o).2 ∧ I.Callee (h.bind f o).2 (h.bind f o).1 := by
  obtain ⟨object, -, hc⟩ := Option.bind_eq_some_iff.1 hf
  obtain ⟨c, hc, hget⟩ := Option.bind_eq_some_iff.1 hc
  obtain ⟨k, hd, hr, -⟩ := hh.classes _ c hc name f hget
  obtain ⟨ho, hl, hr', hrec⟩ := I.bindFrame hh.own hr ho hf
  exact ⟨hh.step ho hl rfl rfl, hl, _, hd, hr', fun _ => hrec⟩

/-- The initializer of a class, bound to a new object, can be called. -/
theorem initializer (hh : I.Holds h) {ref : ClassRef} (hr : I.value h (.ofClass ref)) {c : Class}
    (hc : h.class? ref = some c) {f : Function} (hi : c.initializer? = some f) :
    I.Holds ((h.newObject ref).2.bind f (h.newObject ref).1).2 ∧
      I.leads h ((h.newObject ref).2.bind f (h.newObject ref).1).2 ∧
        I.Callee ((h.newObject ref).2.bind f (h.newObject ref).1).2
          ((h.newObject ref).2.bind f (h.newObject ref).1).1 := by
  obtain ⟨made, hl, ho⟩ := hh.newObject hr
  obtain ⟨bound, hl', hf⟩ := made.bind ho (Heap.method?_newObject hc hi)
  exact ⟨bound, I.leads_trans hl hl', hf⟩

/-- The method of an object is an initializer if it is found under the name of one. -/
theorem isInitializer (hh : I.Holds h) {o : ObjectRef} {name : String} {f : Function}
    (hf : h.method? o name = some f) : f.isInitializer = (name == Heap.initializerName) := by
  obtain ⟨object, -, hc⟩ := Option.bind_eq_some_iff.1 hf
  obtain ⟨c, hc, hget⟩ := Option.bind_eq_some_iff.1 hc
  obtain ⟨_, -, -, hi⟩ := hh.classes _ c hc name f hget
  exact hi

end Holds

end Heaps

/-! ## Computations -/

section Computations

variable {I : Invariant κ} {α β : Type} {c : Eval α} {f : α → Eval β} {m m' m'' : Machine} {k : κ}
  {mid : α → Heap → Prop} {post : β → Heap → Prop}

variable (I) in
/-- The machine `m'` can be left by a computation that was started on `m`. -/
structure Follows (m m' : Machine) : Prop where
  holds : I.Holds m'.heap
  leads : I.leads m.heap m'.heap
  frame : m'.frame = m.frame

variable (I) in
/-- A tree at the position can run on the machine. -/
structure Stands (k : κ) (m : Machine) : Prop where
  holds : I.Holds m.heap
  frame : I.frame k m.heap m.frame

variable (I) in
/-- However the computation ends on `m`, the invariant holds there, and `post` holds of a result. -/
def Sustains (c : Eval α) (post : α → Heap → Prop) (m : Machine) : Prop :=
  I.Follows m (Eval.after c m) ∧ ∀ a m', c m = .ok a m' → post a m'.heap

/-- A machine that holds the invariant may be left as it is. -/
theorem Follows.refl (hm : I.Holds m.heap) : I.Follows m m := ⟨hm, I.leads_refl _, rfl⟩

/-- What follows a machine that follows, follows. -/
theorem Follows.trans (h : I.Follows m m') (h' : I.Follows m' m'') : I.Follows m m'' :=
  ⟨h'.holds, I.leads_trans h.leads h'.leads, h'.frame.trans h.frame⟩

/-- A tree that could run can run later. -/
theorem Stands.follows (hs : I.Stands k m) (h : I.Follows m m') : I.Stands k m' :=
  ⟨h.holds, h.frame ▸ I.frame_leads h.leads hs.frame⟩

/-- What is known of a result. -/
theorem Sustains.ok {a : α} (hc : I.Sustains c mid m) (h : c m = .ok a m') :
    I.Follows m m' ∧ mid a m'.heap := ⟨Eval.after_ok h ▸ hc.1, hc.2 a m' h⟩

/-- Computations one behind the other keep the invariant if both parts do. -/
theorem Sustains.bind (hc : I.Sustains c mid m)
    (hf : ∀ a m₁, I.Follows m m₁ → mid a m₁.heap → I.Sustains (f a) post m₁) :
    I.Sustains (c >>= f) post m := by
  unfold Sustains at hc ⊢
  change I.Follows m (Eval.after (EStateM.bind c f) m) ∧
    ∀ b m', EStateM.bind c f m = .ok b m' → post b m'.heap
  unfold Eval.after EStateM.bind
  unfold Eval.after at hc
  cases h : c m with
  | ok a m₁ =>
    rw [h] at hc
    obtain ⟨h₁, h₂⟩ := hf a m₁ hc.1 (hc.2 a m₁ rfl)
    exact ⟨hc.1.trans h₁, h₂⟩
  | error e m₁ =>
    rw [h] at hc
    exact ⟨hc.1, fun _ _ h => by cases h⟩

/-- A computation that leaves the machine as it is. -/
theorem Sustains.of_same (hm : I.Holds m.heap) (hs : Eval.after c m = m)
    (hp : ∀ a, c m = .ok a m → mid a m.heap) : I.Sustains c mid m := by
  refine ⟨hs.symm ▸ .refl hm, fun a m' h => ?_⟩
  have : m = m' := hs.symm.trans (Eval.after_ok h)
  exact this ▸ hp a (this ▸ h)

/-- To return a value keeps the invariant. -/
theorem Sustains.pure (hm : I.Holds m.heap) {a : α} (ha : mid a m.heap) :
    I.Sustains (Pure.pure a) mid m :=
  .of_same hm rfl fun _ h => by
    cases h
    exact ha

/-- To fail keeps the invariant. -/
theorem Sustains.fail (hm : I.Holds m.heap) (cause : Trouble) (token : Token) :
    I.Sustains (Eval.fail cause token) mid m :=
  .of_same hm rfl fun _ h => by cases h

/-- To be out of fuel keeps it. -/
theorem Sustains.outOfFuel (hm : I.Holds m.heap) : I.Sustains (throw .outOfFuel) mid m :=
  .of_same hm rfl fun _ h => by cases h

/-- The invariant is kept in a frame and after it. -/
theorem Sustains.inFrame {r : FrameRef} (hc : I.Sustains c mid { m with frame := r }) :
    I.Sustains (Eval.inFrame r c) mid m := by
  unfold Sustains Eval.after at hc ⊢
  unfold Eval.inFrame
  cases h : c { m with frame := r } with
  | ok a m' =>
    rw [h] at hc
    have hpost := hc.2 a m' rfl
    exact ⟨⟨hc.1.holds, hc.1.leads, rfl⟩, fun _ _ h => by cases h; exact hpost⟩
  | error e m' =>
    rw [h] at hc
    exact ⟨⟨hc.1.holds, hc.1.leads, rfl⟩, fun _ _ h => by cases h⟩

/-- The invariant has nothing to do with the number of calls. -/
theorem Sustains.counted (hc : I.Sustains c mid { m with calls := m.calls + 1 }) :
    I.Sustains (Eval.counted c) mid m := by
  unfold Sustains Eval.after at hc ⊢
  unfold Eval.counted
  cases h : c { m with calls := m.calls + 1 } with
  | ok a m' =>
    rw [h] at hc
    have hpost := hc.2 a m' rfl
    exact ⟨⟨hc.1.holds, hc.1.leads, hc.1.frame⟩, fun _ _ h => by cases h; exact hpost⟩
  | error e m' =>
    rw [h] at hc
    exact ⟨⟨hc.1.holds, hc.1.leads, hc.1.frame⟩, fun _ _ h => by cases h⟩

/-- A computation that changes the heap only. -/
theorem Sustains.onHeap {f : Heap → α × Heap} (hh : I.Holds (f m.heap).2)
    (hl : I.leads m.heap (f m.heap).2) (hp : mid (f m.heap).1 (f m.heap).2) :
    I.Sustains (Eval.onHeap f) mid m :=
  ⟨⟨hh, hl, rfl⟩, fun _ _ h => by
    cases h
    exact hp⟩

end Computations

/-! ## Operations -/

section Operations

variable {I : Invariant κ} {m : Machine} {k : κ} {v : Value}

/-- The value of a name is one of the invariant. -/
theorem readName_sustains (hm : I.Holds m.heap) (use : NameUse) (place : Place) (name : Token) :
    I.Sustains (Eval.readName use place name) (fun v h => I.value h v) m := by
  have found : ∀ v, Eval.valueAt? m place name.lexeme = some v → I.value m.heap v := by
    intro v hv
    cases place with
    | global => exact I.binding hm.own hv
    | outward d =>
      obtain ⟨a, -, hv⟩ := Option.bind_eq_some_iff.1 hv
      exact I.binding hm.own hv
  exact .of_same hm ((Eval.readName_asks use place name).after_eq m) fun v h =>
    found v (Eval.of_readName h).2

/-- Assigning a value of the invariant keeps it. -/
theorem assignName_sustains (hm : I.Holds m.heap) (place : Place) {name : Token}
    (hv : I.value m.heap v) (hn : I.rules.name name.lexeme) :
    I.Sustains (Eval.assignName place name v) (fun _ _ => True) m := by
  obtain ⟨hh, hl⟩ := hm.assignedAt m.frame place hv hn
  refine ⟨?_, fun _ _ _ => trivial⟩
  unfold Eval.after Eval.assignName
  dsimp only
  cases (Eval.assignedAt m.heap m.frame place name.lexeme v).1
  · exact ⟨hh, hl, rfl⟩
  · exact ⟨hh, hl, rfl⟩

/-- The result of a sign refers to nothing. -/
theorem applyUnary_sustains (hm : I.Holds m.heap) (op : Token) (v : Value) :
    I.Sustains (Eval.applyUnary op v) (fun v h => I.value h v) m := by
  unfold Eval.applyUnary
  split
  · exact .pure hm (I.plain rfl)
  · exact .pure hm (I.plain rfl)
  · exact .fail hm _ _
  · exact .fail hm _ _

/-- The result of an operation on numbers refers to nothing. -/
theorem applyNumeric_sustains (hm : I.Holds m.heap) (op : Token) (x y : Float) :
    I.Sustains (Eval.applyNumeric op x y) (fun v h => I.value h v) m := by
  unfold Eval.applyNumeric
  split <;> first | exact .pure hm (I.plain rfl) | exact .fail hm _ _

/-- The result of an operation refers to nothing. -/
theorem applyBinary_sustains (hm : I.Holds m.heap) (op : Token) (left right : Value) :
    I.Sustains (Eval.applyBinary op left right) (fun v h => I.value h v) m := by
  unfold Eval.applyBinary
  split
  · split <;> first | exact .pure hm (I.plain rfl) | exact .fail hm _ _
  · exact .pure hm (I.plain rfl)
  · exact .pure hm (I.plain rfl)
  · split
    · exact applyNumeric_sustains hm _ _ _
    · exact .fail hm _ _

/-- The value of a property is one of the invariant, and so is a method bound to the object. -/
theorem getProperty_sustains (hm : I.Holds m.heap) {o : ObjectRef}
    (ho : I.value m.heap (.object o)) (name : Token) :
    I.Sustains (Eval.getProperty o name) (fun v h => I.value h v) m := by
  unfold Sustains Eval.after Eval.getProperty
  cases hf : (m.heap.object? o).bind fun object => object.fields.get? name.lexeme with
  | some v =>
    obtain ⟨object, hobj, hv⟩ := Option.bind_eq_some_iff.1 hf
    exact ⟨.refl hm, fun _ _ h => by cases h; exact I.field hm.own hobj hv⟩
  | none =>
    cases hmeth : m.heap.method? o name.lexeme with
    | none => exact ⟨.refl hm, fun _ _ h => by cases h⟩
    | some f =>
      obtain ⟨hb, hl, hcallee⟩ := hm.bind ho hmeth
      obtain ⟨hn, hl', hv⟩ := hb.newFunction hcallee
      exact ⟨⟨hn, I.leads_trans hl hl', rfl⟩, fun _ _ h => by cases h; exact hv⟩

/-- Setting a field to a value of the invariant keeps it. -/
theorem setProperty_sustains (hm : I.Holds m.heap) (o : ObjectRef) (name : Token)
    (hv : I.value m.heap v) : I.Sustains (Eval.setProperty o name v) (fun _ _ => True) m := by
  obtain ⟨ho, hl⟩ : I.own (m.heap.setField o name.lexeme v) ∧
      I.leads m.heap (m.heap.setField o name.lexeme v) := I.setField hm.own hv
  exact ⟨⟨hm.step ho hl rfl rfl, hl, rfl⟩, fun _ _ _ => trivial⟩

/-- Printing leaves the heap. -/
theorem print_sustains (hm : I.Holds m.heap) (v : Value) :
    I.Sustains (Eval.print v) (fun _ _ => True) m := by
  refine ⟨?_, fun _ _ _ => trivial⟩
  obtain ⟨sink, h | h⟩ := Eval.print_ends v m
  · exact Eval.after_ok h ▸ ⟨hm, I.leads_refl _, rfl⟩
  · exact Eval.after_error h ▸ ⟨hm, I.leads_refl _, rfl⟩

/-- The time is a value of the invariant. -/
theorem readClock_sustains (hm : I.Holds m.heap) (clock : Nat → Float) :
    I.Sustains (Eval.readClock clock) (fun v h => I.value h v) m :=
  ⟨⟨hm, I.leads_refl _, rfl⟩, fun _ _ h => by cases h; exact I.plain rfl⟩

/-- Declaring a variable with a value of the invariant keeps it. -/
theorem define_sustains (hm : I.Holds m.heap) {name : String} (hn : I.rules.name name)
    (hv : I.value m.heap v) : I.Sustains (Eval.define name v) (fun _ _ => True) m := by
  obtain ⟨hh, hl⟩ := hm.define (r := m.frame) hv hn
  exact ⟨⟨hh, hl, rfl⟩, fun _ _ _ => trivial⟩

/-- Declaring a function that obeys the rules keeps the invariant. -/
theorem declareFunction_sustains (hs : I.Stands k m) {decl : FunDecl}
    (hn : I.rules.name decl.name.lexeme) (hd : decl.Obeys I.rules k) :
    I.Sustains (Eval.declareFunction decl) (fun _ _ => True) m := by
  have callee : I.Callee m.heap ⟨decl, m.frame, false⟩ :=
    ⟨k, hd, hs.frame, fun h => by cases h⟩
  obtain ⟨hh, hl, hv⟩ := hs.holds.newFunction callee
  obtain ⟨hh', hl'⟩ := hh.define (r := m.frame) hv hn
  exact ⟨⟨hh', I.leads_trans hl hl', rfl⟩, fun _ _ _ => trivial⟩

/-- Declaring a class whose methods obey the rules keeps the invariant. -/
theorem declareClass_sustains (hs : I.Stands k m) {name : Token} {decls : List FunDecl}
    (hn : I.rules.name name.lexeme) (hd : ∀ f ∈ decls, f.Obeys I.rules (I.rules.method k f)) :
    I.Sustains (Eval.declareClass name decls) (fun _ _ => True) m := by
  obtain ⟨hh, hl⟩ := hs.holds.define (r := m.frame) (v := .nil) (I.plain rfl) hn
  have methods : ∀ n f, (Eval.methodTable m.frame decls).get? n = some f →
      I.Method (m.heap.define m.frame name.lexeme .nil) n f := by
    intro n f hf
    obtain ⟨hmem, hc⟩ := Eval.methodTable_get? hf
    refine ⟨k, hd _ hmem, ?_, Eval.methodTable_isInitializer hf⟩
    rw [hc]
    exact I.frame_leads hl hs.frame
  obtain ⟨hh₁, hl₁, hv⟩ := hh.newClass (c := ⟨name.lexeme, _⟩) methods
  obtain ⟨hh₂, hl₂⟩ := hh₁.assignLocal (r := m.frame) hv hn
  exact ⟨⟨hh₂, I.leads_trans (I.leads_trans hl hl₁) hl₂, rfl⟩, fun _ _ _ => trivial⟩

/-- The frame of a block is one for trees at the position inside the block. -/
theorem innerFrame_sustains (hs : I.Stands k m) :
    I.Sustains Eval.innerFrame (fun r h => I.frame (I.rules.inner k) h r) m := by
  have none : ∀ name v, (∅ : Bindings Value).get? name = some v →
      I.rules.name name ∧ I.value m.heap v := fun _ _ h => by cases h
  obtain ⟨ho, hl, hr⟩ := I.openFrame hs.holds.own hs.frame none
  exact ⟨⟨hs.holds.step ho hl rfl rfl, hl, rfl⟩, fun _ _ h => by cases h; exact hr⟩

/-! ### Calls -/

/-- The frame of a call is one for the body of the function. -/
theorem callFrame_sustains (hm : I.Holds m.heap) {f : Function} (hf : I.Callee m.heap f)
    {args : List Value} (ha : ∀ v ∈ args, I.value m.heap v) :
    I.Sustains (Eval.callFrame f args)
      (fun r h => ∃ k, I.frame k h r ∧ ∀ s ∈ f.decl.body, s.Obeys I.rules k) m := by
  obtain ⟨k, hd, hr, -⟩ := hf
  have values : ∀ name v, ((∅ : Bindings Value).insertMany
      ((f.decl.params.map (·.lexeme)).zip args)).get? name = some v →
        I.rules.name name ∧ I.value m.heap v := by
    intro name v h
    rcases Bindings.get?_insertMany h with h | h
    · cases h
    · obtain ⟨hname, hv⟩ := List.of_mem_zip h
      obtain ⟨t, ht, rfl⟩ := List.mem_map.1 hname
      exact ⟨hd.params t ht, ha v hv⟩
  obtain ⟨ho, hl, hr'⟩ := I.openFrame hm.own hr values
  exact ⟨⟨hm.step ho hl rfl rfl, hl, rfl⟩, fun _ _ h => by cases h; exact ⟨_, hr', hd.body⟩⟩

/-- The result of a call is a value of the invariant: what was returned, `nil`, or the receiver. -/
theorem callResult_sustains (hm : I.Holds m.heap) (f : Function) {flow : Flow}
    (hf : I.Flows m.heap flow) :
    I.Sustains (Eval.callResult f flow) (fun v h => I.value h v) m := by
  have receiver : I.value m.heap ((m.heap.getAt? f.closure 0 Heap.receiverName).getD .nil) := by
    cases h : m.heap.getAt? f.closure 0 Heap.receiverName with
    | none => exact I.plain rfl
    | some v =>
      obtain ⟨a, -, hv⟩ := Option.bind_eq_some_iff.1 h
      exact I.binding hm.own hv
  unfold Sustains Eval.after Eval.callResult
  cases f.isInitializer
  · cases flow with
    | normal => exact ⟨.refl hm, fun _ _ h => by cases h; exact I.plain rfl⟩
    | returned v => exact ⟨.refl hm, fun _ _ h => by cases h; exact hf⟩
  · exact ⟨.refl hm, fun _ _ h => by cases h; exact receiver⟩

/-- What is called keeps the invariant. -/
def Callables (I : Invariant κ) (h : Heap) : Callable → Prop
  | .native _ => True
  | .function f => I.Callee h f
  | .construct ref c => I.value h (.ofClass ref) ∧ h.class? ref = some c

/-- What a value of the invariant is called as keeps the invariant. -/
theorem Holds.callable {h : Heap} (hh : I.Holds h) (hv : I.value h v) {c : Callable}
    (hc : h.callable? v = some c) : I.Callables h c := by
  cases v with
  | native f =>
    cases hc
    trivial
  | function r =>
    obtain ⟨f, hf, rfl⟩ := Option.map_eq_some_iff.1 hc
    exact hh.functions r f hf
  | ofClass r =>
    obtain ⟨c, hr, rfl⟩ := Option.map_eq_some_iff.1 hc
    exact ⟨hv, hr⟩
  | _ => cases hc

end Operations

/-! ## Rules -/

section Rules

variable {I : Invariant κ} {m : Machine} {k : κ} {eval : Expr → Eval Value}
  {exec : Stmt → Eval Flow}

/-- What passes the check keeps the invariant when it is called. -/
theorem checkCall_sustains (hm : I.Holds m.heap) {callee : Value} (hv : I.value m.heap callee)
    (count : Nat) (paren : Token) :
    I.Sustains (Eval.checkCall callee count paren) (fun c h => I.Callables h c) m :=
  .of_same hm ((Eval.checkCall_asks callee count paren).after_eq m) fun _ h =>
    hm.callable hv (Eval.of_checkCall h).2.1

variable (I eval) in
/-- Evaluating expressions keeps the invariant. -/
def EvalSustains : Prop :=
  ∀ (e : Expr) (k : κ) (m : Machine), I.Stands k m → e.Obeys I.rules k →
    I.Sustains (eval e) (fun v h => I.value h v) m

variable (I exec) in
/-- Running statements keeps the invariant. -/
def ExecSustains : Prop :=
  ∀ (s : Stmt) (k : κ) (m : Machine), I.Stands k m → s.Obeys I.rules k →
    I.Sustains (exec s) (fun flow h => I.Flows h flow) m

/-- Statements in order keep the invariant. -/
theorem inOrder_sustains (hx : I.ExecSustains exec) : ∀ (ss : List Stmt) (m : Machine),
    I.Stands k m → (∀ s ∈ ss, s.Obeys I.rules k) →
      I.Sustains (Eval.inOrder exec ss) (fun flow h => I.Flows h flow) m
  | [], _, hs, _ => .pure hs.holds trivial
  | s :: ss, m, hs, ho => by
    refine (hx s k m hs (ho s (by simp))).bind fun flow m₁ hm₁ hflow => ?_
    cases flow with
    | normal => exact inOrder_sustains hx ss m₁ (hs.follows hm₁) fun s h => ho s (by simp [h])
    | returned v => exact .pure hm₁.holds hflow

/-- A call of a function keeps the invariant. -/
theorem invoke_sustains (hx : I.ExecSustains exec) (hm : I.Holds m.heap) {f : Function}
    (hf : I.Callee m.heap f) {args : List Value} (ha : ∀ v ∈ args, I.value m.heap v) :
    I.Sustains (Eval.invoke exec f args) (fun v h => I.value h v) m := by
  refine (callFrame_sustains hm hf ha).bind fun r m₁ hm₁ hr => ?_
  obtain ⟨k, hr, hbody⟩ := hr
  have body := inOrder_sustains hx f.decl.body { m₁ with frame := r } ⟨hm₁.holds, hr⟩ hbody
  exact body.inFrame.bind fun flow m₂ hm₂ hflow => callResult_sustains hm₂.holds f hflow

/-- A call of a class keeps it. -/
theorem construct_sustains (hx : I.ExecSustains exec) (hm : I.Holds m.heap) {ref : ClassRef}
    (hr : I.value m.heap (.ofClass ref)) {c : Class} (hc : m.heap.class? ref = some c)
    {args : List Value} (ha : ∀ v ∈ args, I.value m.heap v) :
    I.Sustains (Eval.construct exec ref c args) (fun v h => I.value h v) m := by
  obtain ⟨hh, hl, ho⟩ := hm.newObject hr
  have made : I.Sustains (Eval.onHeap fun h => h.newObject ref)
      (fun o h => I.value h (.object o) ∧ ∀ f, c.initializer? = some f →
        h.method? o Heap.initializerName = some f) m :=
    .onHeap hh hl ⟨ho, fun _ hi => Heap.method?_newObject hc hi⟩
  refine made.bind fun o m₁ hm₁ hmade => ?_
  obtain ⟨ho, hinit⟩ := hmade
  cases hi : c.initializer? with
  | none => exact .pure hm₁.holds ho
  | some f =>
    obtain ⟨hh, hl, hf⟩ := hm₁.holds.bind ho (hinit f hi)
    have bound : I.Sustains (Eval.onHeap fun h => h.bind f o) (fun f h => I.Callee h f) m₁ :=
      .onHeap hh hl hf
    refine bound.bind fun f m₂ hm₂ hf => ?_
    have args₂ : ∀ v ∈ args, I.value m₂.heap v := fun v hv =>
      I.value_leads hm₂.leads (I.value_leads hm₁.leads (ha v hv))
    refine (invoke_sustains hx hm₂.holds hf args₂).bind fun _ m₃ hm₃ _ => ?_
    exact .pure hm₃.holds (I.value_leads (hm₂.trans hm₃).leads ho)

/-- Any call keeps it. -/
theorem apply_sustains (clock : Nat → Float) (hx : I.ExecSustains exec) (hm : I.Holds m.heap)
    {args : List Value} (ha : ∀ v ∈ args, I.value m.heap v) : ∀ {c : Callable},
      I.Callables m.heap c → I.Sustains (Eval.apply clock exec args c) (fun v h => I.value h v) m
  | .native .clock, _ => readClock_sustains hm clock
  | .function _, hc => invoke_sustains hx hm hc ha
  | .construct _ _, hc => construct_sustains hx hm hc.1 hc.2 ha

/-- Expressions one after the other keep the invariant, and so do their values. -/
theorem each_sustains (he : I.EvalSustains eval) : ∀ (es : List Expr) (m : Machine),
    I.Stands k m → (∀ e ∈ es, e.Obeys I.rules k) →
      I.Sustains (Eval.each eval es) (fun vs h => ∀ v ∈ vs, I.value h v) m
  | [], _, hs, _ => .pure hs.holds (by simp)
  | e :: es, m, hs, ho => by
    refine (he e k m hs (ho e (by simp))).bind fun v m₁ hm₁ hv => ?_
    refine (each_sustains he es m₁ (hs.follows hm₁) fun e h => ho e (by simp [h])).bind
      fun vs m₂ hm₂ hvs => .pure hm₂.holds ?_
    intro w hw
    rcases List.mem_cons.1 hw with rfl | hw
    · exact I.value_leads hm₂.leads hv
    · exact hvs w hw

/-- An expression that may be missing keeps it. -/
theorem orNil_sustains (he : I.EvalSustains eval) (hs : I.Stands k m) : ∀ {e : Option Expr},
    (∀ e' ∈ e, e'.Obeys I.rules k) → I.Sustains (Eval.orNil eval e) (fun v h => I.value h v) m
  | none, _ => .pure hs.holds (I.plain rfl)
  | some e, ho => he e k m hs (ho e rfl)

/-- A call that is checked and counted keeps it. -/
theorem checked_sustains (clock : Nat → Float) (hx : I.ExecSustains exec) (hm : I.Holds m.heap)
    {f : Value} (hf : I.value m.heap f) (paren : Token) {vs : List Value}
    (hvs : ∀ v ∈ vs, I.value m.heap v) :
    I.Sustains (Eval.checkCall f vs.length paren >>= fun c =>
      Eval.counted (Eval.apply clock exec vs c)) (fun v h => I.value h v) m := by
  refine (checkCall_sustains hm hf vs.length paren).bind fun c m₁ hm₁ hc => ?_
  exact (apply_sustains (m := { m₁ with calls := m₁.calls + 1 }) clock hx hm₁.holds
    (fun v hv => I.value_leads hm₁.leads (hvs v hv)) hc).counted

/-- What a call has come to when nothing keeps it from going on. -/
theorem called (he : I.EvalSustains eval) (hs : I.Stands k m) {callee : Expr} {paren : Token}
    {args : List Expr} (ho : (Expr.call callee paren args).Obeys I.rules k) {m₁ m₂ m₃ : Machine}
    {f : Value} {vs : List Value} {c : Callable} (hf : eval callee m = .ok f m₁)
    (hv : Eval.each eval args m₁ = .ok vs m₂)
    (hc : Eval.checkCall f vs.length paren m₂ = .ok c m₃) :
    I.Follows m m₃ ∧ I.Callables m₃.heap c ∧ ∀ v ∈ vs, I.value m₃.heap v := by
  obtain ⟨hm₁, hcallee⟩ := (he callee k m hs (ho.part (by simp [Expr.names]))).ok hf
  obtain ⟨hm₂, hvs⟩ := (each_sustains he args m₁ (hs.follows hm₁) ho.argument).ok hv
  have hcallee₂ := I.value_leads hm₂.leads hcallee
  obtain ⟨hm₃, hcallable⟩ := (checkCall_sustains hm₂.holds hcallee₂ vs.length paren).ok hc
  exact ⟨(hm₁.trans hm₂).trans hm₃, hcallable, fun v hv => I.value_leads hm₃.leads (hvs v hv)⟩

/-- What is left of a call when the callee is known. -/
theorem calling_sustains (p : Setting) (he : I.EvalSustains eval) (hx : I.ExecSustains exec)
    (hs : I.Stands k m) {f : Value} (hf : I.value m.heap f) (paren : Token) {args : List Expr}
    (ha : ∀ e ∈ args, e.Obeys I.rules k) :
    I.Sustains (Eval.each eval args >>= fun vs => Eval.checkCall f vs.length paren >>= fun c =>
      Eval.counted (Eval.apply p.clock exec vs c)) (fun v h => I.value h v) m :=
  (each_sustains he args m hs ha).bind fun _ _ hm₁ hvs =>
    checked_sustains p.clock hx hm₁.holds (I.value_leads hm₁.leads hf) paren hvs

/-- One step of evaluation keeps the invariant, if what it refers to does. -/
theorem evalRule_sustains (p : Setting) (he : I.EvalSustains eval) (hx : I.ExecSustains exec) :
    I.EvalSustains (Eval.evalRule p eval exec) := by
  intro e k m hs ho
  cases e with
  | literal l => cases l <;> exact .pure hs.holds (I.plain rfl)
  | grouping inner => exact he inner k m hs (ho.part (by simp [Expr.names]))
  | unary op operand =>
    exact (he operand k m hs (ho.part (by simp [Expr.names]))).bind fun v m₁ hm₁ _ =>
      applyUnary_sustains hm₁.holds op v
  | binary left op right =>
    refine (he left k m hs (ho.part (by simp [Expr.names]))).bind fun l m₁ hm₁ _ => ?_
    exact (he right k m₁ (hs.follows hm₁) (ho.part (by simp [Expr.names]))).bind
      fun r m₂ hm₂ _ => applyBinary_sustains hm₂.holds op l r
  | logical left op right =>
    refine (he left k m hs (ho.part (by simp [Expr.names]))).bind fun l m₁ hm₁ hl => ?_
    cases hd : Eval.decides op l
    · exact he right k m₁ (hs.follows hm₁) (ho.part (by simp [Expr.names]))
    · exact .pure hm₁.holds hl
  | ident id name => exact readName_sustains hs.holds _ _ _
  | receiver id keyword => exact readName_sustains hs.holds _ _ _
  | assign id name value =>
    have hn : I.rules.name name.lexeme := I.assigned (ho ⟨.write, id, name⟩ (by simp [Expr.names]))
    refine (he value k m hs (ho.part (by simp [Expr.names]))).bind fun v m₁ hm₁ hv => ?_
    refine (assignName_sustains hm₁.holds _ hv hn).bind fun _ m₂ hm₂ _ => ?_
    exact .pure hm₂.holds (I.value_leads hm₂.leads hv)
  | call callee paren args =>
    exact (he callee k m hs (ho.part (by simp [Expr.names]))).bind fun f m₁ hm₁ hf =>
      calling_sustains p he hx (hs.follows hm₁) hf paren ho.argument
  | get object name =>
    refine (he object k m hs (ho.part (by simp [Expr.names]))).bind fun v m₁ hm₁ hv => ?_
    cases v with
    | object o => exact getProperty_sustains hm₁.holds hv name
    | _ => exact .fail hm₁.holds _ _
  | set object name value =>
    refine (he object k m hs (ho.part (by simp [Expr.names]))).bind fun v m₁ hm₁ hv => ?_
    cases v with
    | object o =>
      refine (he value k m₁ (hs.follows hm₁) (ho.part (by simp [Expr.names]))).bind
        fun v m₂ hm₂ hv => ?_
      refine (setProperty_sustains hm₂.holds o name hv).bind fun _ m₃ hm₃ _ => ?_
      exact .pure hm₃.holds (I.value_leads hm₃.leads hv)
    | _ => exact .fail hm₁.holds _ _

/-- One step of execution keeps the invariant, if what it refers to does. -/
theorem execRule_sustains (he : I.EvalSustains eval) (hx : I.ExecSustains exec) :
    I.ExecSustains (Eval.execRule eval exec) := by
  intro s k m hs ho
  cases s with
  | expression e =>
    rw [Stmt.Obeys] at ho
    exact (he e k m hs ho).bind fun _ m₁ hm₁ _ => .pure hm₁.holds trivial
  | print e =>
    rw [Stmt.Obeys] at ho
    refine (he e k m hs ho).bind fun v m₁ hm₁ _ => ?_
    exact (print_sustains hm₁.holds v).bind fun _ m₂ hm₂ _ => .pure hm₂.holds trivial
  | var name init =>
    rw [Stmt.Obeys] at ho
    refine (orNil_sustains he hs ho.2).bind fun v m₁ hm₁ hv => ?_
    exact (define_sustains hm₁.holds ho.1 hv).bind fun _ m₂ hm₂ _ => .pure hm₂.holds trivial
  | block body =>
    rw [Stmt.Obeys] at ho
    refine (innerFrame_sustains hs).bind fun r m₁ hm₁ hr => ?_
    exact (inOrder_sustains hx body { m₁ with frame := r } ⟨hm₁.holds, hr⟩
      (Stmt.obeysList_iff.1 ho)).inFrame
  | branch cond thenB elseB =>
    cases elseB with
    | none =>
      rw [Stmt.Obeys] at ho
      refine (he cond k m hs ho.1).bind fun v m₁ hm₁ _ => ?_
      cases hv : v.isTruthy
      · exact .pure hm₁.holds trivial
      · exact hx thenB k m₁ (hs.follows hm₁) ho.2
    | some elseB =>
      rw [Stmt.Obeys] at ho
      refine (he cond k m hs ho.1).bind fun v m₁ hm₁ _ => ?_
      cases hv : v.isTruthy
      · exact hx elseB k m₁ (hs.follows hm₁) ho.2.2
      · exact hx thenB k m₁ (hs.follows hm₁) ho.2.1
  | loop cond body =>
    have again := ho
    rw [Stmt.Obeys] at ho
    refine (he cond k m hs ho.2.1).bind fun v m₁ hm₁ _ => ?_
    cases hv : v.isTruthy
    · exact .pure hm₁.holds trivial
    · have hs₁ := hs.follows hm₁
      simp only [if_true]
      refine (hx body k m₁ hs₁ ho.2.2).bind fun flow m₂ hm₂ hflow => ?_
      cases flow with
      | normal => exact hx _ k m₂ (hs₁.follows hm₂) again
      | returned v => exact .pure hm₂.holds hflow
  | function decl =>
    rw [Stmt.Obeys] at ho
    exact (declareFunction_sustains hs ho.1 ho.2).bind fun _ m₁ hm₁ _ => .pure hm₁.holds trivial
  | ret keyword value =>
    rw [Stmt.Obeys] at ho
    exact (orNil_sustains he hs ho).bind fun v m₁ hm₁ hv => .pure hm₁.holds hv
  | classDecl name methods =>
    rw [Stmt.Obeys] at ho
    exact (declareClass_sustains hs ho.1 (FunDecl.obeysList_iff.1 ho.2)).bind
      fun _ m₁ hm₁ _ => .pure hm₁.holds trivial

end Rules

/-- **Evaluation keeps every invariant**, whatever comes of it. -/
theorem eval_exec (I : Invariant κ) (p : Setting) : ∀ fuel,
    I.EvalSustains (Eval.eval p fuel) ∧ I.ExecSustains (Eval.exec p fuel)
  | 0 => ⟨fun _ _ _ hs _ => .outOfFuel hs.holds, fun _ _ _ hs _ => .outOfFuel hs.holds⟩
  | fuel + 1 => by
    obtain ⟨he, hx⟩ := I.eval_exec p fuel
    exact ⟨evalRule_sustains p he hx, execRule_sustains he hx⟩

/-- Evaluating an expression keeps the invariant, with any fuel. -/
theorem eval_sustains (I : Invariant κ) (p : Setting) (fuel : Nat) :
    I.EvalSustains (Eval.eval p fuel) := (I.eval_exec p fuel).1

/-- Running a statement keeps the invariant, with any fuel. -/
theorem exec_sustains (I : Invariant κ) (p : Setting) (fuel : Nat) :
    I.ExecSustains (Eval.exec p fuel) := (I.eval_exec p fuel).2

/-- Running a program keeps the invariant. -/
theorem execProgram_sustains {I : Invariant κ} {k : κ} (p : Setting) (fuel : Nat) :
    ∀ (ss : List Stmt) (m : Machine), I.Stands k m → (∀ s ∈ ss, s.Obeys I.rules k) →
      I.Sustains (Eval.execProgram p fuel ss) (fun _ _ => True) m
  | [], _, hs, _ => .pure hs.holds trivial
  | s :: ss, m, hs, ho =>
    (I.exec_sustains p fuel s k m hs (ho s (by simp))).bind fun _ m₁ hm₁ _ =>
      execProgram_sustains p fuel ss m₁ (hs.follows hm₁) fun s h => ho s (by simp [h])

end Invariant

end Lox
