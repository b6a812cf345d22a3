/-
# Evaluating trees that are alike

Two machines are twins if they differ at most in the tokens and node numbers of the functions they
hold, and in bytes that the second one still has to hand on (`Machine.Twin`). Trees that are alike,
run on twins with tables that have the same entries for related nodes, come to the same end: to the
same value or to the same trouble at related tokens, on twins again (`eval_exec_twins`).
-/

import Lox.Eval
import Lox.Proofs.Heap.Alike
import Lox.Proofs.Tree.Alike

namespace Lox

section

variable (R : Token → Token → Prop) (J : NodeId → NodeId → Prop)

/-- Functions that differ in the tokens and numbers of their declarations. -/
structure Function.Twin (f f' : Function) : Prop where
  decl : f.decl.Alike R J f'.decl
  closure : f'.closure = f.closure
  isInitializer : f'.isInitializer = f.isInitializer

/-- Heaps with the same frames and objects, and with functions that are twins. -/
structure Heap.Twin (h h' : Heap) : Prop extends
    Heap.Alike (Function.Twin R J) (Function.Twin R J) h h' where
  frames : h'.frames = h.frames

/-- Machines with twin heaps, of which the second one is some printed bytes ahead. -/
structure Machine.Twin (ahead : ByteArray) (m m' : Machine) : Prop where
  heap : m.heap.Twin R J m'.heap
  frame : m'.frame = m.frame
  calls : m'.calls = m.calls
  sink : m'.sink = { m.sink with written := ahead ++ m.sink.written }
  readings : m'.readings = m.readings

/-- The same trouble at related tokens, or the same trouble with the output. -/
inductive Fault.Twin : Fault → Fault → Prop
  | trouble (cause : Trouble) {t t' : Token} (ht : R t t') :
    Fault.Twin (.trouble cause t) (.trouble cause t')
  | output (error : Sink.Error) : Fault.Twin (.output error) (.output error)

/-- Computations stopped in the same way. -/
inductive Stop.Twin : Stop → Stop → Prop
  | fault {f f' : Fault} (hf : f.Twin R f') : Stop.Twin (.fault f) (.fault f')
  | outOfFuel : Stop.Twin .outOfFuel .outOfFuel

end

section

variable {R : Token → Token → Prop} {J : NodeId → NodeId → Prop}

/-- Alike functions have parameters of the same names. -/
theorem FunDecl.Alike.params (hR : Faithful R) {f f' : FunDecl} (h : f.Alike R J f') :
    f'.params.map (·.lexeme) = f.params.map (·.lexeme) := by
  cases h with
  | intro _ hp _ =>
    dsimp only
    induction hp with
    | nil => rfl
    | cons hp _ ih => rw [List.map_cons, List.map_cons, ih, (hR _ _ hp).lexeme]

/-- Alike functions have alike bodies. -/
theorem FunDecl.Alike.body {f f' : FunDecl} (h : f.Alike R J f') :
    Stmt.AlikeList R J f.body f'.body := by
  cases h with
  | intro _ _ hb => exact hb

/-- Functions that are twins look the same from outside. -/
theorem Function.Twin.sameFace (hR : Faithful R) {f f' : Function} (h : f.Twin R J f') :
    f.SameFace f' := by
  refine ⟨(hR _ _ h.decl.name).lexeme, ?_⟩
  have := congrArg List.length (h.decl.params hR)
  rwa [List.length_map, List.length_map] at this

namespace Heap.Twin

variable {h h' : Heap}

/-- Twin heaps have the same frames. -/
theorem frame? (ht : h.Twin R J h') (r : FrameRef) : h'.frame? r = h.frame? r := by
  rw [Heap.frame?, Heap.frame?, ht.frames]

/-- A name has one value in a frame of both. -/
theorem getLocal? (ht : h.Twin R J h') (r : FrameRef) (name : String) :
    h'.getLocal? r name = h.getLocal? r name := by
  rw [Heap.getLocal?, Heap.getLocal?, ht.frame?]

/-- A walk outward leads to one frame in both. -/
theorem ancestor? (ht : h.Twin R J h') (d : Nat) (r : FrameRef) :
    h'.ancestor? r d = h.ancestor? r d := by
  induction d generalizing r with
  | zero => rw [Heap.ancestor?, Heap.ancestor?, ht.frame?]
  | succ d ih => simp only [Heap.ancestor?, ht.frame?, ih]

/-- A name has one value at a distance in both. -/
theorem getAt? (ht : h.Twin R J h') (r : FrameRef) (d : Nat) (name : String) :
    h'.getAt? r d name = h.getAt? r d name := by
  simp only [Heap.getAt?, ht.ancestor?, ht.getLocal?]

/-- Work on the frames. -/
theorem withFrames (ht : h.Twin R J h') (frames : Array Frame) :
    Heap.Twin R J { h with frames := frames } { h' with frames := frames } :=
  ⟨ht.toAlike.of_eq rfl rfl rfl rfl rfl rfl, rfl⟩

/-- A frame is opened in twins under one reference, and leaves twins. -/
theorem newFrame (ht : h.Twin R J h') (parent : FrameRef) (values : Bindings Value) :
    (h'.newFrame parent values).1 = (h.newFrame parent values).1 ∧
      (h.newFrame parent values).2.Twin R J (h'.newFrame parent values).2 := by
  simp only [Heap.newFrame, ht.frames]
  exact ⟨trivial, ht.withFrames _⟩

/-- Binding a name leaves twins. -/
theorem define (ht : h.Twin R J h') (r : FrameRef) (name : String) (v : Value) :
    (h.define r name v).Twin R J (h'.define r name v) := by
  simp only [Heap.define, ht.frames]
  exact ht.withFrames _

/-- Assigning in a frame succeeds in both twins or in neither, and leaves twins. -/
theorem assignLocal (ht : h.Twin R J h') (r : FrameRef) (name : String) (v : Value) :
    (h'.assignLocal r name v).1 = (h.assignLocal r name v).1 ∧
      (h.assignLocal r name v).2.Twin R J (h'.assignLocal r name v).2 := by
  unfold Heap.assignLocal
  rw [ht.getLocal?]
  split
  · exact ⟨rfl, ht.define r name v⟩
  · exact ⟨rfl, ht⟩

/-- Binding twin methods to an object gives twin functions, and leaves twins. -/
theorem bind (ht : h.Twin R J h') {f f' : Function} (hf : f.Twin R J f') (o : ObjectRef) :
    (h.bind f o).1.Twin R J (h'.bind f' o).1 ∧ (h.bind f o).2.Twin R J (h'.bind f' o).2 := by
  obtain ⟨hr, hh⟩ := ht.newFrame f.closure ((∅ : Bindings Value).insert receiverName (.object o))
  simp only [Heap.bind, hf.closure]
  exact ⟨⟨hf.decl, hr, hf.isInitializer⟩, hh⟩

/-- Twin functions are made under one reference, and leave twins. -/
theorem newFunction (ht : h.Twin R J h') {f f' : Function} (hf : f.Twin R J f') :
    (h'.newFunction f').1 = (h.newFunction f).1 ∧
      (h.newFunction f).2.Twin R J (h'.newFunction f').2 :=
  ⟨congrArg FunctionRef.mk ht.functionCount, ht.toAlike.newFunction hf, ht.frames⟩

/-- Classes with twin methods are made under one reference, and leave twins. -/
theorem newClass (ht : h.Twin R J h') {c c' : Class} (hc : c.Alike (Function.Twin R J) c') :
    (h'.newClass c').1 = (h.newClass c).1 ∧ (h.newClass c).2.Twin R J (h'.newClass c').2 :=
  ⟨congrArg ClassRef.mk ht.classCount, ht.toAlike.newClass hc, ht.frames⟩

/-- An object is made under one reference, and leaves twins. -/
theorem newObject (ht : h.Twin R J h') (c : ClassRef) :
    (h'.newObject c).1 = (h.newObject c).1 ∧ (h.newObject c).2.Twin R J (h'.newObject c).2 :=
  ⟨congrArg ObjectRef.mk (congrArg Array.size ht.objects), ht.toAlike.newObject c, ht.frames⟩

/-- A value has one text in both. -/
theorem text (hR : Faithful R) (ht : h.Twin R J h') (v : Value) : h'.text v = h.text v :=
  ht.toAlike.text_eq (fun _ _ hf => hf.sameFace hR) v

/-- Twin heaps stay twins if more node numbers are taken to be related. -/
theorem mono {J' : NodeId → NodeId → Prop} (hJ : ∀ id id', J id id' → J' id id')
    (ht : h.Twin R J h') : h.Twin R J' h' := by
  have twin : ∀ f f' : Function, f.Twin R J f' → f.Twin R J' f' := fun _ _ hf =>
    ⟨hf.decl.mono hJ, hf.closure, hf.isInitializer⟩
  exact ⟨ht.toAlike.mono twin twin, ht.frames⟩

end Heap.Twin

/-- A machine whose heap is its own twin is its own twin. -/
theorem Heap.Twin.machine {m : Machine} (h : m.heap.Twin R J m.heap) :
    m.Twin R J .empty m := ⟨h, rfl, rfl, by rw [ByteArray.empty_append], rfl⟩

/-- The same of machines. -/
theorem Machine.Twin.mono {J' : NodeId → NodeId → Prop} (hJ : ∀ id id', J id id' → J' id id')
    {ahead : ByteArray} {m m' : Machine} (h : m.Twin R J ahead m') : m.Twin R J' ahead m' :=
  ⟨h.heap.mono hJ, h.frame, h.calls, h.sink, h.readings⟩

end

namespace Eval

section

variable (R : Token → Token → Prop) (J : NodeId → NodeId → Prop) (ahead : ByteArray)

/-- Two computations end alike. -/
inductive EndTwins {α : Type} (Q : α → α → Prop) :
    EStateM.Result Stop Machine α → EStateM.Result Stop Machine α → Prop
  | ok {a a' : α} {m m' : Machine} (hm : m.Twin R J ahead m') (hq : Q a a') :
    EndTwins Q (.ok a m) (.ok a' m')
  | error {e e' : Stop} {m m' : Machine} (hm : m.Twin R J ahead m') (he : e.Twin R e') :
    EndTwins Q (.error e m) (.error e' m')

/-- Started on twins, the computations end alike. -/
def Twins {α : Type} (c c' : Eval α) (Q : α → α → Prop) : Prop :=
  ∀ m m' : Machine, m.Twin R J ahead m' → EndTwins R J ahead Q (c m) (c' m')

end

section Parts

variable {R : Token → Token → Prop} {J : NodeId → NodeId → Prop} {ahead : ByteArray}
  {α β : Type} {c c' : Eval α} {f f' : α → Eval β} {P : α → α → Prop} {Q : β → β → Prop}

/-- Computations one behind the other end alike if both parts do. -/
theorem Twins.bind (hc : Twins R J ahead c c' P)
    (hf : ∀ a a', P a a' → Twins R J ahead (f a) (f' a') Q) :
    Twins R J ahead (c >>= f) (c' >>= f') Q := by
  intro m m' hm
  have h := hc m m' hm
  change EndTwins R J ahead Q (EStateM.bind c f m) (EStateM.bind c' f' m')
  unfold EStateM.bind
  revert h
  generalize c m = x, c' m' = y
  intro h
  cases h with
  | ok hm hq => exact hf _ _ hq _ _ hm
  | error hm he => exact .error hm he

/-- Where the one has a result, so has the other. -/
theorem Twins.ok (hc : Twins R J ahead c c' P) {m m' m₁ : Machine} (hm : m.Twin R J ahead m')
    {a : α} (h : c m = .ok a m₁) :
    ∃ a' m₁', c' m' = .ok a' m₁' ∧ m₁.Twin R J ahead m₁' ∧ P a a' := by
  have ends := hc m m' hm
  rw [h] at ends
  revert ends
  generalize c' m' = y
  intro ends
  cases ends with
  | ok hm₁ hp => exact ⟨_, _, rfl, hm₁, hp⟩

/-- Goes on with the value that both sides have. -/
theorem Twins.same (hc : Twins R J ahead c c' Eq) (hf : ∀ a, Twins R J ahead (f a) (f' a) Q) :
    Twins R J ahead (c >>= f) (c' >>= f') Q := by
  refine hc.bind ?_
  rintro a _ rfl
  exact hf a

/-- Related results are returned alike. -/
theorem Twins.pure {a a' : α} (h : P a a') : Twins R J ahead (pure a) (pure a') P :=
  fun _ _ hm => .ok hm h

/-- One trouble at related tokens is an end alike. -/
theorem Twins.fail {cause : Trouble} {t t' : Token} (ht : R t t') :
    Twins R J ahead (fail cause t) (fail cause t') P := fun _ _ hm => .error hm (.fault (.trouble cause ht))

/-- To be out of fuel is an end alike. -/
theorem Twins.outOfFuel : Twins R J ahead (throw .outOfFuel) (throw .outOfFuel) P :=
  fun _ _ hm => .error hm .outOfFuel

/-- Computations that end alike do so in a given frame. -/
theorem inFrame_twins (hc : Twins R J ahead c c' P) (r : FrameRef) :
    Twins R J ahead (inFrame r c) (inFrame r c') P := by
  intro m m' hm
  have h := hc { m with frame := r } { m' with frame := r }
    ⟨hm.heap, rfl, hm.calls, hm.sink, hm.readings⟩
  unfold inFrame
  revert h
  generalize c { m with frame := r } = x, c' { m' with frame := r } = y
  intro h
  cases h with
  | ok hm₁ hq => exact .ok ⟨hm₁.heap, hm.frame, hm₁.calls, hm₁.sink, hm₁.readings⟩ hq
  | error hm₁ he => exact .error ⟨hm₁.heap, hm.frame, hm₁.calls, hm₁.sink, hm₁.readings⟩ he

/-- They do so as a call that is counted: twins have as many calls in progress. -/
theorem counted_twins (hc : Twins R J ahead c c' P) :
    Twins R J ahead (counted c) (counted c') P := by
  intro m m' hm
  have h := hc { m with calls := m.calls + 1 } { m' with calls := m'.calls + 1 }
    ⟨hm.heap, hm.frame, congrArg (· + 1) hm.calls, hm.sink, hm.readings⟩
  unfold counted
  revert h
  generalize c { m with calls := m.calls + 1 } = x, c' { m' with calls := m'.calls + 1 } = y
  intro h
  cases h with
  | ok hm hq => exact .ok ⟨hm.heap, hm.frame, congrArg (· - 1) hm.calls, hm.sink, hm.readings⟩ hq
  | error hm he =>
    exact .error ⟨hm.heap, hm.frame, congrArg (· - 1) hm.calls, hm.sink, hm.readings⟩ he

/-- Binding a value to one name is done alike. -/
theorem define_twins {name name' : String} (hn : name' = name) (v : Value) :
    Twins R J ahead (define name v) (define name' v) Eq := by
  rintro m ⟨h', _, _, _, _⟩ ⟨hh, rfl, rfl, rfl, rfl⟩
  subst hn
  exact .ok ⟨hh.define m.frame name' v, rfl, rfl, rfl, rfl⟩ rfl

/-- The clock shows the same to twins. -/
theorem readClock_twins (clock : Nat → Float) :
    Twins R J ahead (readClock clock) (readClock clock) Eq := fun _ _ hm =>
  .ok ⟨hm.heap, hm.frame, hm.calls, hm.sink, congrArg (· + 1) hm.readings⟩ (by rw [hm.readings])

/-- The frame of a block is opened alike. -/
theorem innerFrame_twins : Twins R J ahead innerFrame innerFrame Eq := by
  rintro m ⟨h', _, _, _, _⟩ ⟨hh, rfl, rfl, rfl, rfl⟩
  obtain ⟨hr, hn⟩ := hh.newFrame m.frame ∅
  exact .ok ⟨hn, rfl, rfl, rfl, rfl⟩ hr.symm

/-- A sink that is ahead takes the same bytes. -/
theorem write_ahead (s : Sink) (ahead bytes : ByteArray) :
    Sink.write { s with written := ahead ++ s.written } bytes =
      ({ (s.write bytes).1 with written := ahead ++ (s.write bytes).1.written },
        (s.write bytes).2) := by
  unfold Sink.write
  dsimp only
  split
  · simp only [ByteArray.append_assoc]
  · split <;> simp only [ByteArray.append_assoc]

end Parts

section Names

variable {R : Token → Token → Prop} (hR : Faithful R) {J : NodeId → NodeId → Prop}
  {ahead : ByteArray}

include hR

/-- Twins print the same bytes, and the second one stays ahead by as many. -/
theorem print_twins (v : Value) : Twins R J ahead (print v) (print v) Eq := by
  rintro m ⟨h', _, _, _, _⟩ ⟨hh, rfl, rfl, rfl, rfl⟩
  simp only [print, hh.text hR, write_ahead]
  split
  · exact .ok ⟨hh, rfl, rfl, rfl, rfl⟩ rfl
  · exact .error ⟨hh, rfl, rfl, rfl, rfl⟩ (.fault (.output _))

/-- A name is read at one place alike. -/
theorem readName_twins (use : NameUse) (place : Place) {name name' : Token} (hn : R name name') :
    Twins R J ahead (readName use place name) (readName use place name') Eq := by
  rintro m ⟨h', _, _, _, _⟩ ⟨hh, rfl, rfl, rfl, rfl⟩
  have same : valueAt? ⟨h', m.frame, m.calls, { m.sink with written := ahead ++ m.sink.written },
      m.readings⟩ place name.lexeme = valueAt? m place name.lexeme := by
    cases place with
    | global => exact hh.getLocal? _ _
    | outward d => exact hh.getAt? _ _ _
  unfold readName
  rw [(hR _ _ hn).lexeme, same]
  cases valueAt? m place name.lexeme with
  | some v => exact .ok ⟨hh, rfl, rfl, rfl, rfl⟩ rfl
  | none => exact .error ⟨hh, rfl, rfl, rfl, rfl⟩ (.fault (.trouble _ hn))

omit hR in
/-- Assigning at one place succeeds in both twins or in neither. -/
theorem assignedAt_twins {h h' : Heap} (hh : h.Twin R J h') (r : FrameRef) (place : Place)
    (name : String) (v : Value) :
    (assignedAt h' r place name v).1 = (assignedAt h r place name v).1 ∧
      (assignedAt h r place name v).2.Twin R J (assignedAt h' r place name v).2 := by
  cases place with
  | global => exact hh.assignLocal _ _ _
  | outward d =>
    simp only [assignedAt, Heap.assignAt, hh.ancestor?]
    cases h.ancestor? r d with
    | some a => exact hh.assignLocal _ _ _
    | none => exact ⟨rfl, hh⟩

/-- A name is assigned at one place alike. -/
theorem assignName_twins (place : Place) {name name' : Token} (hn : R name name') (v : Value) :
    Twins R J ahead (assignName place name v) (assignName place name' v) Eq := by
  rintro m ⟨h', _, _, _, _⟩ ⟨hh, rfl, rfl, rfl, rfl⟩
  obtain ⟨same, ht⟩ := assignedAt_twins hh m.frame place name.lexeme v
  simp only [assignName, (hR _ _ hn).lexeme, same]
  split
  · exact .ok ⟨ht, rfl, rfl, rfl, rfl⟩ rfl
  · exact .error ⟨ht, rfl, rfl, rfl, rfl⟩ (.fault (.trouble _ hn))

/-- A sign has one result. -/
theorem applyUnary_twins {op op' : Token} (ho : R op op') (v : Value) :
    Twins R J ahead (applyUnary op v) (applyUnary op' v) Eq := by
  unfold applyUnary
  rw [(hR _ _ ho).kind]
  generalize op.kind = k
  cases k with
  | punct p =>
    cases p with
    | bang => exact .pure rfl
    | minus => cases v <;> first | exact .pure rfl | exact .fail ho
    | _ => exact .fail ho
  | _ => exact .fail ho

/-- An operation on numbers has one result. -/
theorem applyNumeric_twins {op op' : Token} (ho : R op op') (x y : Float) :
    Twins R J ahead (applyNumeric op x y) (applyNumeric op' x y) Eq := by
  unfold applyNumeric
  rw [(hR _ _ ho).kind]
  generalize op.kind = k
  cases k with
  | punct p => cases p <;> first | exact .pure rfl | exact .fail ho
  | _ => exact .fail ho

/-- An operation on values has one result: it asks for texts at most, which twins share. -/
theorem applyBinary_twins {op op' : Token} (ho : R op op') (left right : Value) :
    Twins R J ahead (applyBinary op left right) (applyBinary op' left right) Eq := by
  unfold applyBinary
  rw [(hR _ _ ho).kind]
  generalize op.kind = k
  cases k with
  | punct p =>
    cases p with
    | plus => cases left <;> cases right <;> first | exact .pure rfl | exact .fail ho
    | equalEqual => exact .pure rfl
    | bangEqual => exact .pure rfl
    | _ =>
      cases left with
      | number x => cases right <;> first | exact applyNumeric_twins hR ho x _ | exact .fail ho
      | _ => exact .fail ho
  | _ =>
    cases left with
    | number x => cases right <;> first | exact applyNumeric_twins hR ho x _ | exact .fail ho
    | _ => exact .fail ho

omit hR in
/-- A field is set alike. -/
theorem setProperty_twins {name name' : Token} (hn : name'.lexeme = name.lexeme) (o : ObjectRef)
    (v : Value) : Twins R J ahead (setProperty o name v) (setProperty o name' v) Eq := by
  rintro m ⟨h', _, _, _, _⟩ ⟨hh, rfl, rfl, rfl, rfl⟩
  unfold setProperty
  rw [hn]
  exact .ok ⟨⟨hh.toAlike.setField o name.lexeme v, hh.frames⟩, rfl, rfl, rfl, rfl⟩ rfl

/-- A property is read alike: a field has one value, and a method is bound to one reference. -/
theorem getProperty_twins (o : ObjectRef) {name name' : Token} (hn : R name name') :
    Twins R J ahead (getProperty o name) (getProperty o name') Eq := by
  rintro m ⟨h', _, _, _, _⟩ ⟨hh, rfl, rfl, rfl, rfl⟩
  have object : h'.object? o = m.heap.object? o := by
    rw [Heap.object?, Heap.object?, hh.objects]
  have method := hh.toAlike.method?_rel o name.lexeme
  unfold getProperty
  rw [(hR _ _ hn).lexeme]
  dsimp only
  rw [object]
  cases (m.heap.object? o).bind fun object => object.fields.get? name.lexeme with
  | some v => exact .ok ⟨hh, rfl, rfl, rfl, rfl⟩ rfl
  | none =>
    revert method
    generalize m.heap.method? o name.lexeme = f, h'.method? o name.lexeme = f'
    intro method
    cases method with
    | none => exact .error ⟨hh, rfl, rfl, rfl, rfl⟩ (.fault (.trouble _ hn))
    | some hf =>
      obtain ⟨hb, hh₁⟩ := hh.bind hf o
      obtain ⟨hr, hh₂⟩ := hh₁.newFunction hb
      exact .ok ⟨hh₂, rfl, rfl, rfl, rfl⟩ (congrArg Value.function hr.symm)

/-- A value decides both of two related connectives or neither. -/
theorem decides_eq {op op' : Token} (ho : R op op') (v : Value) : decides op' v = decides op v := by
  rw [decides, decides, (hR _ _ ho).kind]

/-! ## Calls -/

/-- A callee is checked alike, and what is called is alike. -/
theorem checkCall_twins (callee : Value) (count : Nat) {paren paren' : Token}
    (hp : R paren paren') :
    Twins R J ahead (checkCall callee count paren) (checkCall callee count paren')
      (Callable.Alike (Function.Twin R J) (Function.Twin R J)) := by
  rintro m ⟨h', _, _, _, _⟩ ⟨hh, rfl, rfl, rfl, rfl⟩
  have hm : m.Twin R J ahead
      ⟨h', m.frame, m.calls, { m.sink with written := ahead ++ m.sink.written }, m.readings⟩ :=
    ⟨hh, rfl, rfl, rfl, rfl⟩
  have hc := hh.toAlike.callable?_rel callee
  unfold checkCall
  dsimp only
  revert hc
  generalize m.heap.callable? callee = c, h'.callable? callee = c'
  intro hc
  cases hc with
  | none => exact .error hm (.fault (.trouble _ hp))
  | some hc =>
    dsimp only
    rw [hc.arity (fun _ _ hf => hf.sameFace hR) fun _ _ hf => hf.sameFace hR]
    split
    · exact .error hm (.fault (.trouble _ hp))
    · split
      · exact .error hm (.fault (.trouble _ hp))
      · exact .ok hm hc

/-- The frame of a call is opened alike. -/
theorem callFrame_twins {f f' : Function} (hf : f.Twin R J f') (args : List Value) :
    Twins R J ahead (callFrame f args) (callFrame f' args) Eq := by
  rintro m ⟨h', _, _, _, _⟩ ⟨hh, rfl, rfl, rfl, rfl⟩
  unfold callFrame
  rw [hf.decl.params hR, hf.closure]
  obtain ⟨hr, hn⟩ := hh.newFrame f.closure
    ((∅ : Bindings Value).insertMany ((f.decl.params.map (·.lexeme)).zip args))
  exact .ok ⟨hn, rfl, rfl, rfl, rfl⟩ hr.symm

omit hR in
/-- A call has one result, however its body ended. -/
theorem callResult_twins {f f' : Function} (hf : f.Twin R J f') (flow : Flow) :
    Twins R J ahead (callResult f flow) (callResult f' flow) Eq := by
  rintro m ⟨h', _, _, _, _⟩ ⟨hh, rfl, rfl, rfl, rfl⟩
  unfold callResult
  rw [hf.isInitializer, hf.closure]
  dsimp only
  rw [hh.getAt?]
  split
  · exact .ok ⟨hh, rfl, rfl, rfl, rfl⟩ rfl
  · cases flow <;> exact .ok ⟨hh, rfl, rfl, rfl, rfl⟩ rfl

/-! ## Declarations -/

/-- Alike functions are declared alike. -/
theorem declareFunction_twins {f f' : FunDecl} (hf : f.Alike R J f') :
    Twins R J ahead (declareFunction f) (declareFunction f') Eq := by
  rintro m ⟨h', _, _, _, _⟩ ⟨hh, rfl, rfl, rfl, rfl⟩
  have made : Function.Twin R J ⟨f, m.frame, false⟩ ⟨f', m.frame, false⟩ := ⟨hf, rfl, rfl⟩
  obtain ⟨hr, hn⟩ := hh.newFunction made
  simp only [declareFunction, hr, (hR _ _ hf.name).lexeme]
  exact .ok ⟨hn.define _ _ _, rfl, rfl, rfl, rfl⟩ rfl

/-- Alike methods are found under one name. -/
theorem methodTable_twins (frame : FrameRef) {fs fs' : List FunDecl}
    (hf : FunDecl.AlikeList R J fs fs') (n : String) :
    Option.Rel (Function.Twin R J) ((methodTable frame fs).get? n)
      ((methodTable frame fs').get? n) := by
  refine Bindings.insertMany_rel ?_ (fun _ => .none) n
  induction fs generalizing fs' with
  | nil =>
    cases hf
    exact .nil
  | cons f fs ih =>
    cases hf with
    | cons hf hs =>
      have hl := (hR _ _ hf.name).lexeme
      exact .cons ⟨hl, hf, rfl, congrArg (· == Heap.initializerName) hl⟩ (ih hs)

/-- Alike classes are declared alike. -/
theorem declareClass_twins {name name' : Token} (hn : R name name') {fs fs' : List FunDecl}
    (hf : FunDecl.AlikeList R J fs fs') :
    Twins R J ahead (declareClass name fs) (declareClass name' fs') Eq := by
  rintro m ⟨h', _, _, _, _⟩ ⟨hh, rfl, rfl, rfl, rfl⟩
  have hl := (hR _ _ hn).lexeme
  have made : Class.Alike (Function.Twin R J) ⟨name.lexeme, methodTable m.frame fs⟩
      ⟨name.lexeme, methodTable m.frame fs'⟩ := ⟨rfl, methodTable_twins hR m.frame hf⟩
  obtain ⟨hr, hc⟩ := (hh.define m.frame name.lexeme .nil).newClass made
  simp only [declareClass, hl, hr]
  exact .ok ⟨(hc.assignLocal _ _ _).2, rfl, rfl, rfl, rfl⟩ rfl

end Names

/-! ## Rules -/

section Rules

variable {R : Token → Token → Prop} {J : NodeId → NodeId → Prop} {ahead : ByteArray}
  {eval eval' : Expr → Eval Value} {exec exec' : Stmt → Eval Flow}

variable (R J ahead eval eval') in
/-- Expressions that are alike have the same values. -/
def EvalTwins : Prop := ∀ e e', e.Alike R J e' → Twins R J ahead (eval e) (eval' e') Eq

variable (R J ahead exec exec') in
/-- Statements that are alike end alike. -/
def ExecTwins : Prop := ∀ s s', s.Alike R J s' → Twins R J ahead (exec s) (exec' s') Eq

/-- Alike expressions have the same values, one after the other. -/
theorem each_twins (he : EvalTwins R J ahead eval eval') {es es' : List Expr}
    (h : Expr.AlikeList R J es es') : Twins R J ahead (each eval es) (each eval' es') Eq := by
  induction es generalizing es' with
  | nil =>
    cases h
    exact .pure rfl
  | cons e es ih =>
    cases h with
    | cons h hs => exact (he _ _ h).same fun _ => (ih hs).same fun _ => .pure rfl

/-- Alike statements in order end alike. -/
theorem inOrder_twins (hx : ExecTwins R J ahead exec exec') {ss ss' : List Stmt}
    (h : Stmt.AlikeList R J ss ss') :
    Twins R J ahead (inOrder exec ss) (inOrder exec' ss') Eq := by
  induction ss generalizing ss' with
  | nil =>
    cases h
    exact .pure rfl
  | cons s ss ih =>
    cases h with
    | cons h hs =>
      refine (hx _ _ h).same fun flow => ?_
      cases flow with
      | normal => exact ih hs
      | returned v => exact .pure rfl

/-- Alike expressions that may be missing have one value. -/
theorem orNil_twins (he : EvalTwins R J ahead eval eval') {e e' : Option Expr}
    (h : Option.Rel (Expr.Alike R J) e e') : Twins R J ahead (orNil eval e) (orNil eval' e') Eq := by
  cases h with
  | none => exact .pure rfl
  | some h => exact he _ _ h

variable (hR : Faithful R)

include hR

/-- Twin functions called with the same arguments end alike. -/
theorem invoke_twins (hx : ExecTwins R J ahead exec exec') {f f' : Function} (hf : f.Twin R J f')
    (args : List Value) : Twins R J ahead (invoke exec f args) (invoke exec' f' args) Eq :=
  (callFrame_twins hR hf args).same fun frame =>
    (inFrame_twins (inOrder_twins hx hf.decl.body) frame).same fun flow => callResult_twins hf flow

/-- Alike classes called with the same arguments end alike. -/
theorem construct_twins (hx : ExecTwins R J ahead exec exec') (ref : ClassRef) {c c' : Class}
    (hc : c.Alike (Function.Twin R J) c') (args : List Value) :
    Twins R J ahead (construct exec ref c args) (construct exec' ref c' args) Eq := by
  have made : Twins R J ahead (onHeap fun h => h.newObject ref) (onHeap fun h => h.newObject ref)
      Eq := by
    rintro m ⟨h', _, _, _, _⟩ ⟨hh, rfl, rfl, rfl, rfl⟩
    obtain ⟨hr, hn⟩ := hh.newObject ref
    exact .ok ⟨hn, rfl, rfl, rfl, rfl⟩ hr.symm
  refine made.same fun o => ?_
  have hi := hc.initializer
  revert hi
  generalize c.initializer? = i, c'.initializer? = i'
  intro hi
  cases hi with
  | none => exact .pure rfl
  | @some f f' hf =>
    have bound : Twins R J ahead (onHeap fun h => h.bind f o) (onHeap fun h => h.bind f' o)
        (Function.Twin R J) := by
      rintro m ⟨h', _, _, _, _⟩ ⟨hh, rfl, rfl, rfl, rfl⟩
      obtain ⟨hb, hn⟩ := hh.bind hf o
      exact .ok ⟨hn, rfl, rfl, rfl, rfl⟩ hb
    exact bound.bind fun _ _ hb => (invoke_twins hR hx hb args).same fun _ => .pure rfl

/-- Whatever is called, alike things called with the same arguments end alike. -/
theorem apply_twins (clock : Nat → Float) (hx : ExecTwins R J ahead exec exec')
    (args : List Value) {c c' : Callable}
    (hc : Callable.Alike (Function.Twin R J) (Function.Twin R J) c c') :
    Twins R J ahead (apply clock exec args c) (apply clock exec' args c') Eq := by
  cases hc with
  | native f =>
    cases f
    exact readClock_twins clock
  | function hf => exact invoke_twins hR hx hf args
  | construct ref hc => exact construct_twins hR hx ref hc args

/-- One step of evaluation is alike, if what it refers to is and the tables agree on related nodes.
-/
theorem evalRule_twins {p p' : Setting} (hc : p'.clock = p.clock)
    (hJ : ∀ id id', J id id' → p.distances.get? id = p'.distances.get? id')
    (he : EvalTwins R J ahead eval eval') (hx : ExecTwins R J ahead exec exec') :
    EvalTwins R J ahead (evalRule p eval exec) (evalRule p' eval' exec') := by
  have place : ∀ {id id'}, J id id' → placeOf p'.distances id' = placeOf p.distances id := by
    intro id id' h
    rw [placeOf, placeOf, hJ _ _ h]
  intro e e' h
  cases h with
  | literal value => cases value <;> exact .pure rfl
  | grouping h => exact he _ _ h
  | unary ho h => exact (he _ _ h).same fun v => applyUnary_twins hR ho v
  | binary hl ho hr =>
    exact (he _ _ hl).same fun l => (he _ _ hr).same fun r => applyBinary_twins hR ho l r
  | logical hl ho hr =>
    refine (he _ _ hl).same fun l => ?_
    rw [decides_eq hR ho]
    split
    · exact .pure rfl
    · exact he _ _ hr
  | ident hi hn =>
    dsimp only [evalRule]
    rw [place hi]
    exact readName_twins hR .read _ hn
  | receiver hi hk =>
    dsimp only [evalRule]
    rw [place hi]
    exact readName_twins hR .receiver _ hk
  | assign hi hn h =>
    dsimp only [evalRule]
    rw [place hi]
    exact (he _ _ h).same fun v => (assignName_twins hR _ hn v).same fun _ => .pure rfl
  | call hf hp ha =>
    dsimp only [evalRule]
    rw [hc]
    exact (he _ _ hf).same fun f => (each_twins he ha).same fun vs =>
      (checkCall_twins hR f vs.length hp).bind fun c c' hc =>
        counted_twins (apply_twins hR p.clock hx vs hc)
  | get ho hn =>
    refine (he _ _ ho).same fun v => ?_
    cases v with
    | object o => exact getProperty_twins hR o hn
    | _ => exact .fail hn
  | set ho hn h =>
    refine (he _ _ ho).same fun v => ?_
    cases v with
    | object o =>
      exact (he _ _ h).same fun v =>
        (setProperty_twins (hR _ _ hn).lexeme o v).same fun _ => .pure rfl
    | _ => exact .fail hn

/-- One step of execution is alike, if what it refers to is. -/
theorem execRule_twins (he : EvalTwins R J ahead eval eval')
    (hx : ExecTwins R J ahead exec exec') :
    ExecTwins R J ahead (execRule eval exec) (execRule eval' exec') := by
  intro s s' h
  cases h with
  | expression h => exact (he _ _ h).same fun _ => .pure rfl
  | print h => exact (he _ _ h).same fun v => (print_twins hR v).same fun _ => .pure rfl
  | var hn hi =>
    exact (orNil_twins he hi).same fun v =>
      (define_twins (hR _ _ hn).lexeme v).same fun _ => .pure rfl
  | block hs => exact innerFrame_twins.same fun r => inFrame_twins (inOrder_twins hx hs) r
  | ifThen h hs =>
    refine (he _ _ h).same fun v => ?_
    split
    · exact hx _ _ hs
    · exact .pure rfl
  | ifElse h hs ht =>
    refine (he _ _ h).same fun v => ?_
    split
    · exact hx _ _ hs
    · exact hx _ _ ht
  | loop h hs =>
    refine (he _ _ h).same fun v => ?_
    split
    · refine (hx _ _ hs).same fun flow => ?_
      cases flow with
      | normal => exact hx _ _ (.loop h hs)
      | returned v => exact .pure rfl
    · exact .pure rfl
  | function hf => exact (declareFunction_twins hR hf).same fun _ => .pure rfl
  | ret hk hv => exact (orNil_twins he hv).same fun _ => .pure rfl
  | classDecl hn hf => exact (declareClass_twins hR hn hf).same fun _ => .pure rfl

end Rules

section Runs

variable {R : Token → Token → Prop} (hR : Faithful R) {J : NodeId → NodeId → Prop}
  {ahead : ByteArray} {p p' : Setting} (hc : p'.clock = p.clock)
  (hJ : ∀ id id', J id id' → p.distances.get? id = p'.distances.get? id')

include hR hc hJ

/-- Trees that are alike are evaluated alike. -/
theorem eval_exec_twins : ∀ fuel, EvalTwins R J ahead (eval p fuel) (eval p' fuel) ∧
    ExecTwins R J ahead (exec p fuel) (exec p' fuel)
  | 0 => by
    refine ⟨fun e e' _ => ?_, fun s s' _ => ?_⟩
    · simp only [eval]
      exact .outOfFuel
    · simp only [exec]
      exact .outOfFuel
  | fuel + 1 => by
    obtain ⟨he, hx⟩ := eval_exec_twins fuel
    refine ⟨fun e e' h => ?_, fun s s' h => ?_⟩
    · simp only [eval]
      exact evalRule_twins hR hc hJ he hx e e' h
    · simp only [exec]
      exact execRule_twins hR he hx s s' h

/-- Programs that are alike end alike, with one fuel. -/
theorem execProgram_twins (fuel : Nat) {ss ss' : List Stmt} (h : Stmt.AlikeList R J ss ss') :
    Twins R J ahead (execProgram p fuel ss) (execProgram p' fuel ss') Eq := by
  induction ss generalizing ss' with
  | nil =>
    cases h
    exact .pure rfl
  | cons s ss ih =>
    cases h with
    | cons h hs => exact ((eval_exec_twins hR hc hJ fuel).2 _ _ h).same fun _ => ih hs

omit hR hc hJ in
/-- Handing on the output is done alike. -/
theorem flush_twins : Twins R J ahead flush flush Eq := by
  rintro m ⟨h', _, _, _, _⟩ ⟨hh, rfl, rfl, rfl, rfl⟩
  unfold flush
  dsimp only
  split
  · exact .error ⟨hh, rfl, rfl, rfl, rfl⟩ (.fault (.output _))
  · exact .ok ⟨hh, rfl, rfl, rfl, rfl⟩ rfl

/-- Programs that are alike run alike. -/
theorem interpret_twins (fuel : Nat) {ss ss' : List Stmt} (h : Stmt.AlikeList R J ss ss') :
    Twins R J ahead (interpret p fuel ss) (interpret p' fuel ss') Eq :=
  (execProgram_twins hR hc hJ fuel h).same fun _ => flush_twins

end Runs

end Eval

end Lox
