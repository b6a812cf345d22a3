/-
# The heap

Frames, functions, classes and objects, each kind in the order of creation. Nothing is ever
removed: a frame lives on as long as some function may still look into it. A frame binds names and
has a parent, except for the global frame, which comes first.
-/

import Lox.Bindings
import Lox.Tree
import Lox.Value

namespace Lox

/-- One scope of a running program: its bindings and the scope around it. -/
structure Frame where
  values : Bindings Value
  parent : Option FrameRef

/-- A function value: its declaration, the frame it was created in, and whether it is the
initializer of a class. -/
structure Function where
  decl : FunDecl
  closure : FrameRef
  isInitializer : Bool

/-- A class: its name and its methods. -/
structure Class where
  name : String
  methods : Bindings Function

/-- An object: its class and its fields. -/
structure Object where
  classRef : ClassRef
  fields : Bindings Value

/-- Everything that outlives the statement that created it. -/
structure Heap where
  frames : Array Frame
  functions : Array Function
  classes : Array Class
  objects : Array Object

namespace FrameRef

/-- The global frame. -/
def global : FrameRef := ⟨0⟩

end FrameRef

namespace Heap

/-- A heap with an empty global frame. -/
def bare : Heap := ⟨#[⟨∅, none⟩], #[], #[], #[]⟩

/-- The frame of a reference. -/
def frame? (h : Heap) (r : FrameRef) : Option Frame := h.frames[r.index]?

/-- The function of a reference. -/
def function? (h : Heap) (r : FunctionRef) : Option Function := h.functions[r.index]?

/-- The class of a reference. -/
def class? (h : Heap) (r : ClassRef) : Option Class := h.classes[r.index]?

/-- The object of a reference. -/
def object? (h : Heap) (r : ObjectRef) : Option Object := h.objects[r.index]?

/-! ## Frames -/

/-- Adds a frame that binds the given names inside `parent` (the environment's `child_of`). -/
def newFrame (h : Heap) (parent : FrameRef) (values : Bindings Value) : FrameRef × Heap :=
  (⟨h.frames.size⟩, { h with frames := h.frames.push ⟨values, some parent⟩ })

/-- Binds a name in a frame, replacing a value it had there (`define`). -/
def define (h : Heap) (r : FrameRef) (name : String) (v : Value) : Heap :=
  { h with frames := h.frames.modify r.index fun f => { f with values := f.values.insert name v } }

/-- The value of a name in this very frame (`get_local`). -/
def getLocal? (h : Heap) (r : FrameRef) (name : String) : Option Value :=
  (h.frame? r).bind fun f => f.values.get? name

/-- Replaces the value of a name in this very frame, if it is bound there, and tells whether it is
(`assign_local`). -/
def assignLocal (h : Heap) (r : FrameRef) (name : String) (v : Value) : Bool × Heap :=
  if (h.getLocal? r name).isSome then (true, h.define r name v) else (false, h)

/-- The frame that many parents out (`ancestor`). -/
def ancestor? (h : Heap) (r : FrameRef) : Nat → Option FrameRef
  | 0 => (h.frame? r).map fun _ => r
  | distance + 1 =>
    (h.frame? r).bind fun f => f.parent.bind fun parent => h.ancestor? parent distance

/-- The value of a name in the frame that many parents out (`get_at`). -/
def getAt? (h : Heap) (r : FrameRef) (distance : Nat) (name : String) : Option Value :=
  (h.ancestor? r distance).bind fun a => h.getLocal? a name

/-- Replaces the value of a name in the frame that many parents out, if it is bound there, and tells
whether it is (`assign_at`). -/
def assignAt (h : Heap) (r : FrameRef) (distance : Nat) (name : String) (v : Value) : Bool × Heap :=
  match h.ancestor? r distance with
  | some a => h.assignLocal a name v
  | none => (false, h)

/-! ## Functions, classes and objects -/

/-- Adds a function. -/
def newFunction (h : Heap) (f : Function) : FunctionRef × Heap :=
  (⟨h.functions.size⟩, { h with functions := h.functions.push f })

/-- Adds a class. -/
def newClass (h : Heap) (c : Class) : ClassRef × Heap :=
  (⟨h.classes.size⟩, { h with classes := h.classes.push c })

/-- Adds an object without fields. -/
def newObject (h : Heap) (c : ClassRef) : ObjectRef × Heap :=
  (⟨h.objects.size⟩, { h with objects := h.objects.push ⟨c, ∅⟩ })

/-- Sets a field of an object, creating it if need be (the instance's `set`). -/
def setField (h : Heap) (r : ObjectRef) (name : String) (v : Value) : Heap :=
  { h with
    objects := h.objects.modify r.index fun o => { o with fields := o.fields.insert name v } }

/-- The method of an object's class (`find_method`). -/
def method? (h : Heap) (r : ObjectRef) (name : String) : Option Function :=
  (h.object? r).bind fun o => (h.class? o.classRef).bind fun c => c.methods.get? name

/-- The name under which a method sees its receiver. -/
def receiverName : String := "this"

/-- The name of the method that a class runs on each new object. -/
def initializerName : String := "init"

/-- A copy of a method that sees the object as its receiver (the function's `bind`). -/
def bind (h : Heap) (f : Function) (o : ObjectRef) : Function × Heap :=
  let (frame, h) := h.newFrame f.closure ((∅ : Bindings Value).insert receiverName (.object o))
  ({ f with closure := frame }, h)

end Heap

end Lox
