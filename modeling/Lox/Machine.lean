/-
# Machines

The state of a running program: the heap, the active frame, the number of calls in progress, the
output sink and the number of times the clock was read. A computation on it ends in a result, in a
fault, or without an answer because its fuel is used up, and keeps the state in all cases.
-/

import Lox.Heap.Callable
import Lox.Heap.Text
import Lox.Scope
import Lox.Sink
import Lox.Tree.Names

namespace Lox

/-- Where a name is looked up: in the global frame, or so many frames out. -/
inductive Place where
  | global
  | outward (distance : Nat)
deriving DecidableEq, Repr

/-- Why a running program fails. -/
inductive Trouble where
  | undefined (use : NameUse) (place : Place) (name : String)
  | undefinedProperty (name : String)
  | getOfNonObject
  | setOfNonObject
  | operandNotNumber
  | operandsNotNumbers
  | operandsNotAddable
  | unknownUnary
  | unknownBinary
  | notCallable
  | wrongArity (expected got : Nat)
  | stackOverflow
deriving DecidableEq, Repr

namespace Trouble

/-- The text of the trouble. -/
def message : Trouble → String
  | undefined _ _ name => "Undefined variable '" ++ name ++ "'."
  | undefinedProperty name => "Undefined property '" ++ name ++ "'."
  | getOfNonObject => "Only instances have properties."
  | setOfNonObject => "Only instances have fields."
  | operandNotNumber => "Operand must be a number."
  | operandsNotNumbers => "Operands must be numbers."
  | operandsNotAddable => "Operands must be two numbers or two strings."
  | unknownUnary => "Invalid unary operator."
  | unknownBinary => "Invalid binary operator."
  | notCallable => "Can only call functions and classes."
  | wrongArity expected got =>
    "Expected " ++ Number.digitsText expected ++ " arguments but got " ++
      Number.digitsText got ++ "."
  | stackOverflow => "Stack overflow."

end Trouble

/-- What ends a running program: trouble at a token, or a failure of the sink. -/
inductive Fault where
  | trouble (cause : Trouble) (token : Token)
  | output (error : Sink.Error)
deriving DecidableEq, Repr

namespace Fault

/-- The fault as it is shown. -/
def report : Fault → Report
  | trouble cause token => .runtime token.line cause.message
  | output error => .output error.message

end Fault

/-- Why a computation has no result. -/
inductive Stop where
  | fault (f : Fault)
  | outOfFuel
deriving DecidableEq, Repr

/-- How a statement ends: it falls through to the next one, or it returns from the function. -/
inductive Flow where
  | normal
  | returned (v : Value)
deriving DecidableEq, Repr

/-- The state of a running program. -/
structure Machine where
  heap : Heap
  frame : FrameRef
  calls : Nat
  sink : Sink
  readings : Nat

/-- What a running program is given: the distances of its names, and the clock's reading at each
time it is read. -/
structure Setting where
  distances : Distances
  clock : Nat → Float

/-- A computation on a machine. -/
abbrev Eval := EStateM Stop Machine

/-- The most calls in progress at one time. -/
def maxCalls : Nat := 255

namespace Machine

/-- The heap of a new program: its global frame binds the native functions. -/
def initialHeap : Heap :=
  Heap.bare.define .global Native.clock.name (.native .clock)

/-- A new program that prints to the given sink (`with_output`), in which nothing waits to be handed
on. -/
def start (sink : Sink) : Machine :=
  ⟨initialHeap, .global, 0, { sink with written := .empty }, 0⟩

end Machine

namespace Eval

/-- Fails at a token (`runtime`). -/
def fail {α : Type} (cause : Trouble) (token : Token) : Eval α :=
  throw (.fault (.trouble cause token))

/-- Runs a computation in another frame and comes back to the old one, however it ends. -/
@[inline] def inFrame {α : Type} (frame : FrameRef) (run : Eval α) : Eval α := fun m =>
  let saved := m.frame
  match run { m with frame := frame } with
  | .ok a m => .ok a { m with frame := saved }
  | .error e m => .error e { m with frame := saved }

/-- Runs a computation as a call in progress. -/
@[inline] def counted {α : Type} (run : Eval α) : Eval α := fun m =>
  match run { m with calls := m.calls + 1 } with
  | .ok a m => .ok a { m with calls := m.calls - 1 }
  | .error e m => .error e { m with calls := m.calls - 1 }

/-- Changes the heap and gives what the change yields. -/
@[inline] def onHeap {α : Type} (f : Heap → α × Heap) : Eval α := fun m =>
  let (a, heap) := f m.heap
  .ok a { m with heap := heap }

/-- Binds a name in the active frame. -/
def define (name : String) (v : Value) : Eval Unit := fun m =>
  .ok () { m with heap := m.heap.define m.frame name v }

/-- Writes the text of a value and a newline. -/
def print (v : Value) : Eval Unit := fun m =>
  let (sink, taken) := m.sink.write (m.heap.text v ++ "\n").toUTF8
  if taken then .ok () { m with sink := sink }
  else .error (.fault (.output .write)) { m with sink := sink }

/-- Reads the clock. -/
def readClock (clock : Nat → Float) : Eval Value := fun m =>
  .ok (.number (clock m.readings)) { m with readings := m.readings + 1 }

/-- Hands the output on, which may fail. -/
def flush : Eval Unit := fun m =>
  if m.sink.refusesFlush then .error (.fault (.output .flush)) m else .ok () m

/-! ## Names -/

/-- The place where the name of a node is looked up, by its `local_depth`. -/
def placeOf (distances : Distances) (id : NodeId) : Place :=
  match distances.get? id with
  | some d => .outward d
  | none => .global

/-- The value of a name at a place. -/
def valueAt? (m : Machine) (place : Place) (name : String) : Option Value :=
  match place with
  | .global => m.heap.getLocal? .global name
  | .outward d => m.heap.getAt? m.frame d name

/-- Replaces the value of a name at a place, if it is bound there, and tells whether it is. -/
def assignedAt (h : Heap) (frame : FrameRef) (place : Place) (name : String) (v : Value) :
    Bool × Heap :=
  match place with
  | .global => h.assignLocal .global name v
  | .outward d => h.assignAt frame d name v

/-- Reads a name (`look_up_variable`). -/
def readName (use : NameUse) (place : Place) (name : Token) : Eval Value := fun m =>
  match valueAt? m place name.lexeme with
  | some v => .ok v m
  | none => fail (.undefined use place name.lexeme) name m

/-- Assigns to a name, which must be bound. -/
def assignName (place : Place) (name : Token) (v : Value) : Eval Unit := fun m =>
  let (bound, heap) := assignedAt m.heap m.frame place name.lexeme v
  let m := { m with heap := heap }
  if bound then .ok () m else fail (.undefined .write place name.lexeme) name m

/-! ## Operators -/

/-- Applies a sign (`evaluate_unary`). -/
def applyUnary (op : Token) (v : Value) : Eval Value :=
  match op.kind, v with
  | .punct .bang, v => return .bool !v.isTruthy
  | .punct .minus, .number x => return .number (-x)
  | .punct .minus, _ => fail .operandNotNumber op
  | _, _ => fail .unknownUnary op

/-- Applies an operator that takes two numbers (behind `number_operands`). -/
def applyNumeric (op : Token) (x y : Float) : Eval Value :=
  match op.kind with
  | .punct .minus => return .number (x - y)
  | .punct .star => return .number (x * y)
  | .punct .slash => return .number (x / y)
  | .punct .greater => return .bool (x > y)
  | .punct .greaterEqual => return .bool (x ≥ y)
  | .punct .less => return .bool (x < y)
  | .punct .lessEqual => return .bool (x ≤ y)
  | _ => fail .unknownBinary op

/-- Applies an operator to two values (`evaluate_binary`). Numbers and strings can be added, all
values compared for equality, and everything else takes numbers. -/
def applyBinary (op : Token) (left right : Value) : Eval Value :=
  match op.kind with
  | .punct .plus =>
    match left, right with
    | .number x, .number y => return .number (x + y)
    | .string s, .string t => return .string (s ++ t)
    | _, _ => fail .operandsNotAddable op
  | .punct .equalEqual => return .bool (left.equal right)
  | .punct .bangEqual => return .bool !(left.equal right)
  | _ =>
    match left, right with
    | .number x, .number y => applyNumeric op x y
    | _, _ => fail .operandsNotNumbers op

/-- Whether the left operand of a logical operator decides it: a true one decides `or`, a false one
everything else. -/
def decides (op : Token) (left : Value) : Bool :=
  match op.kind with
  | .keyword .or_ => left.isTruthy
  | _ => !left.isTruthy

/-! ## Objects -/

/-- A property of an object (the instance's `get`): a field, or else a method that sees the object
as its receiver. -/
def getProperty (o : ObjectRef) (name : Token) : Eval Value := fun m =>
  match (m.heap.object? o).bind fun object => object.fields.get? name.lexeme with
  | some v => .ok v m
  | none =>
    match m.heap.method? o name.lexeme with
    | some f =>
      let (bound, heap) := m.heap.bind f o
      let (ref, heap) := heap.newFunction bound
      .ok (.function ref) { m with heap := heap }
    | none => fail (.undefinedProperty name.lexeme) name m

/-- Sets a field of an object (the instance's `set`). -/
def setProperty (o : ObjectRef) (name : Token) (v : Value) : Eval Unit := fun m =>
  .ok () { m with heap := m.heap.setField o name.lexeme v }

/-! ## Calls -/

/-- What a call runs: the callee must be callable, take that many arguments, and find fewer calls in
progress than the most allowed. -/
def checkCall (callee : Value) (count : Nat) (paren : Token) : Eval Callable := fun m =>
  match m.heap.callable? callee with
  | none => fail .notCallable paren m
  | some c =>
    if count ≠ c.arity then fail (.wrongArity c.arity count) paren m
    else if m.calls ≥ maxCalls then fail .stackOverflow paren m
    else .ok c m

end Eval

end Lox
