/-
# Evaluation

The interpreter's `execute` and `evaluate`: the rules by which statements and expressions run, each
over the evaluation of the parts it refers to, and the evaluators that tie them together. The fuel
bounds how deep rules are applied inside one another and how often a loop goes round.
-/

import Lox.Machine

namespace Lox
namespace Eval

/-- Runs a computation on each item in order. -/
def each {α β : Type} (f : α → Eval β) : List α → Eval (List β)
  | [] => return []
  | a :: as => do
    let b ← f a
    let bs ← each f as
    return b :: bs

/-- Runs statements in order up to the first that returns (`execute_all`). -/
def inOrder (exec : Stmt → Eval Flow) : List Stmt → Eval Flow
  | [] => return .normal
  | s :: ss => do
    match ← exec s with
    | .normal => inOrder exec ss
    | .returned v => return .returned v

/-! ## Calls -/

/-- The frame of a call: the parameters bound to the arguments, inside the function's closure. -/
def callFrame (f : Function) (args : List Value) : Eval FrameRef :=
  let names := f.decl.params.map (·.lexeme)
  onHeap fun h => h.newFrame f.closure ((∅ : Bindings Value).insertMany (names.zip args))

/-- The result of a call. An initializer yields its receiver whatever its body returns. -/
def callResult (f : Function) (flow : Flow) : Eval Value := fun m =>
  if f.isInitializer then
    .ok ((m.heap.getAt? f.closure 0 Heap.receiverName).getD .nil) m
  else
    match flow with
    | .normal => .ok .nil m
    | .returned v => .ok v m

/-- Calls a function (the function's `call`). -/
@[inline] def invoke (exec : Stmt → Eval Flow) (f : Function) (args : List Value) :
    Eval Value := do
  let frame ← callFrame f args
  let flow ← inFrame frame (inOrder exec f.decl.body)
  callResult f flow

/-- Makes an object of a class and runs the initializer on it, if there is one (the class's `call`).
-/
@[inline] def construct (exec : Stmt → Eval Flow) (ref : ClassRef) (c : Class)
    (args : List Value) : Eval Value := do
  let o ← onHeap fun h => h.newObject ref
  match c.initializer? with
  | none => return .object o
  | some f =>
    let bound ← onHeap fun h => h.bind f o
    let _ ← invoke exec bound args
    return .object o

/-- Calls what can be called (`call`). -/
@[inline] def apply (clock : Nat → Float) (exec : Stmt → Eval Flow) (args : List Value) :
    Callable → Eval Value
  | .native .clock => readClock clock
  | .function f => invoke exec f args
  | .construct ref c => construct exec ref c args

/-! ## Rules -/

/-- Evaluates an expression, or gives `nil` where there is none. -/
@[inline] def orNil (eval : Expr → Eval Value) : Option Expr → Eval Value
  | some e => eval e
  | none => return .nil

/-- One step of evaluating an expression: the cases of `evaluate`. -/
@[inline] def evalRule (p : Setting) (eval : Expr → Eval Value) (exec : Stmt → Eval Flow) :
    Expr → Eval Value
  | .literal .nil => return .nil
  | .literal (.bool b) => return .bool b
  | .literal (.number x) => return .number x
  | .literal (.string s) => return .string s
  | .grouping inner => eval inner
  | .unary op operand => do applyUnary op (← eval operand)
  | .binary left op right => do
    let l ← eval left
    let r ← eval right
    applyBinary op l r
  | .logical left op right => do
    let l ← eval left
    if decides op l then return l else eval right
  | .ident id name => readName .read (placeOf p.distances id) name
  | .receiver id keyword => readName .receiver (placeOf p.distances id) keyword
  | .assign id name value => do
    let v ← eval value
    assignName (placeOf p.distances id) name v
    return v
  | .call callee paren args => do
    let f ← eval callee
    let vs ← each eval args
    let c ← checkCall f vs.length paren
    counted (apply p.clock exec vs c)
  | .get object name => do
    match ← eval object with
    | .object o => getProperty o name
    | _ => fail .getOfNonObject name
  | .set object name value => do
    match ← eval object with
    | .object o => do
      let v ← eval value
      setProperty o name v
      return v
    | _ => fail .setOfNonObject name

/-- The methods of a class that is declared in the given frame; of two with one name the later one
counts. -/
def methodTable (frame : FrameRef) (decls : List FunDecl) : Bindings Function :=
  (∅ : Bindings Function).insertMany
    (decls.map fun d => (d.name.lexeme, ⟨d, frame, d.name.lexeme == Heap.initializerName⟩))

/-- Binds a class in the active frame. The name is bound to `nil` first. -/
def declareClass (name : Token) (decls : List FunDecl) : Eval Unit := fun m =>
  let heap := m.heap.define m.frame name.lexeme .nil
  let (ref, heap) := heap.newClass ⟨name.lexeme, methodTable m.frame decls⟩
  .ok () { m with heap := (heap.assignLocal m.frame name.lexeme (.ofClass ref)).2 }

/-- Binds a function in the active frame, which it sees. -/
def declareFunction (decl : FunDecl) : Eval Unit := fun m =>
  let (ref, heap) := m.heap.newFunction ⟨decl, m.frame, false⟩
  .ok () { m with heap := heap.define m.frame decl.name.lexeme (.function ref) }

/-- A new frame inside the active one. -/
def innerFrame : Eval FrameRef := fun m =>
  let (frame, heap) := m.heap.newFrame m.frame ∅
  .ok frame { m with heap := heap }

/-- One step of running a statement: the cases of `execute`, with `execute_block` for a block. -/
@[inline] def execRule (eval : Expr → Eval Value) (exec : Stmt → Eval Flow) : Stmt → Eval Flow
  | .expression e => do
    let _ ← eval e
    return .normal
  | .print e => do
    print (← eval e)
    return .normal
  | .var name init => do
    define name.lexeme (← orNil eval init)
    return .normal
  | .block body => do
    let frame ← innerFrame
    inFrame frame (inOrder exec body)
  | .branch cond thenB elseB => do
    if (← eval cond).isTruthy then exec thenB
    else
      match elseB with
      | some s => exec s
      | none => return .normal
  | .loop cond body => do
    if (← eval cond).isTruthy then
      match ← exec body with
      | .normal => exec (.loop cond body)
      | .returned v => return .returned v
    else return .normal
  | .function decl => do
    declareFunction decl
    return .normal
  | .ret _ value => do
    return .returned (← orNil eval value)
  | .classDecl name decls => do
    declareClass name decls
    return .normal

mutual

/-- Evaluates an expression (`evaluate`). -/
def eval (p : Setting) : Nat → Expr → Eval Value
  | 0, _ => throw .outOfFuel
  | fuel + 1, e => evalRule p (eval p fuel) (exec p fuel) e

/-- Runs a statement (`execute`). -/
def exec (p : Setting) : Nat → Stmt → Eval Flow
  | 0, _ => throw .outOfFuel
  | fuel + 1, s => execRule (eval p fuel) (exec p fuel) s

end

/-- Runs statements in order to their end, whatever they return. -/
def execProgram (p : Setting) (fuel : Nat) : List Stmt → Eval Unit
  | [] => return ()
  | s :: ss => do
    let _ ← exec p fuel s
    execProgram p fuel ss

/-- Runs a program and flushes the output (`interpret`). A fault of the program comes before one of
the flush. -/
def interpret (p : Setting) (fuel : Nat) (statements : List Stmt) : Eval Unit := do
  execProgram p fuel statements
  flush

end Eval
end Lox
