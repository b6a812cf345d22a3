/-
# Lexical evaluation

A second evaluator, which knows of no distances. A name is looked up by walking from the active
frame outward to the first frame that binds it. Each local declaration opens a frame of its own
inside the active one instead of adding to it, so that a function sees what was declared before it
and nothing else. All that does not concern names is evaluated by the same rules.
-/

import Lox.Session

namespace Lox

/-- The nearest frame outward that binds the name. Parents are made before their children, so the
walk ends. -/
def Heap.holder? (h : Heap) (r : FrameRef) (name : String) : Option FrameRef :=
  match h.frame? r with
  | none => none
  | some f =>
    if f.values.contains name then some r
    else
      match f.parent with
      | none => none
      | some parent => if parent.index < r.index then h.holder? parent name else none
termination_by r.index

namespace Lexical

open Eval

/-- Reads a name, wherever outward it is bound. -/
def readName (use : NameUse) (name : Token) : Eval Value := fun m =>
  match (m.heap.holder? m.frame name.lexeme).bind fun r => m.heap.getLocal? r name.lexeme with
  | some v => .ok v m
  | none => fail (.undefined use .global name.lexeme) name m

/-- Assigns to a name, wherever outward it is bound. -/
def assignName (name : Token) (v : Value) : Eval Unit := fun m =>
  match m.heap.holder? m.frame name.lexeme with
  | some r => .ok () { m with heap := m.heap.define r name.lexeme v }
  | none => fail (.undefined .write .global name.lexeme) name m

/-- Goes on in a new frame inside the active one; only the global frame is added to. -/
def openFrame : Eval Unit := fun m =>
  if m.frame = .global then .ok () m
  else
    let (frame, heap) := m.heap.newFrame m.frame ∅
    .ok () { m with heap := heap, frame := frame }

/-- One step of evaluating an expression. -/
def evalRule (clock : Nat → Float) (eval : Expr → Eval Value) (exec : Stmt → Eval Flow) :
    Expr → Eval Value
  | .ident _ name => readName .read name
  | .receiver _ keyword => readName .receiver keyword
  | .assign _ name value => do
    let v ← eval value
    assignName name v
    return v
  | e => Eval.evalRule ⟨∅, clock⟩ eval exec e

/-- One step of running a statement. -/
def execRule (eval : Expr → Eval Value) (exec : Stmt → Eval Flow) : Stmt → Eval Flow
  | .var name init => do
    let v ← orNil eval init
    openFrame
    define name.lexeme v
    return .normal
  | .function decl => do
    openFrame
    declareFunction decl
    return .normal
  | .classDecl name decls => do
    openFrame
    declareClass name decls
    return .normal
  | s => Eval.execRule eval exec s

mutual

/-- Evaluates an expression. -/
def eval (clock : Nat → Float) : Nat → Expr → Eval Value
  | 0, _ => throw .outOfFuel
  | fuel + 1, e => evalRule clock (eval clock fuel) (exec clock fuel) e

/-- Runs a statement. -/
def exec (clock : Nat → Float) : Nat → Stmt → Eval Flow
  | 0, _ => throw .outOfFuel
  | fuel + 1, s => execRule (eval clock fuel) (exec clock fuel) s

end

/-- Runs statements in order to their end. -/
def execProgram (clock : Nat → Float) (fuel : Nat) : List Stmt → Eval Unit
  | [] => return ()
  | s :: ss => do
    let _ ← exec clock fuel s
    execProgram clock fuel ss

/-- Runs a program and flushes the output. -/
def interpret (clock : Nat → Float) (fuel : Nat) (statements : List Stmt) : Eval Unit := do
  execProgram clock fuel statements
  flush

/-- Runs a source that nothing is wrong with in a new session. There is no answer if the fuel does
not last. -/
def run (clock : Nat → Float) (fuel : Nat) (sink : Sink) (source : String) :
    Option (Outcome × Session) :=
  let program := Program.ofSource source 0
  let s : Session := ⟨.start sink, ∅, program.nextId⟩
  match interpret clock fuel program.statements s.machine with
  | .ok _ machine => some ({ s with machine := machine }.finish [] none)
  | .error (.fault f) machine => some ({ s with machine := machine }.finish [] (some f))
  | .error .outOfFuel _ => none

end Lexical

end Lox
