/-
# Sessions

A session runs one source after the other on the same machine, so that each sees the globals of
those before it. A source is scanned and parsed, then its names are resolved, and it runs only if
none of this found anything wrong. Node numbers go on from source to source, and the distances of
earlier sources are kept, because functions declared there may still be called.
-/

import Lox.Eval
import Lox.Grammar.Program
import Lox.Token.Scan

namespace Lox

/-- What is wrong with a source before it runs. -/
inductive Diagnostic where
  | lexical (e : LexicalError)
  | grammar (e : Grammar.Error)
  | scope (v : Scope.Violation)
deriving DecidableEq, Repr

namespace Diagnostic

/-- The diagnostic as it is shown. -/
def report : Diagnostic → Report
  | lexical e => e.report
  | grammar e => e.report
  | scope v => v.report

end Diagnostic

/-- How the run of a source ended: the bytes it printed, what was wrong with it, and the fault that
ended it. -/
structure Outcome where
  output : ByteArray
  diagnostics : List Diagnostic
  fault : Option Fault

namespace Outcome

/-- Whether nothing went wrong (`is_ok`). -/
def isOk (o : Outcome) : Bool := o.diagnostics.isEmpty && o.fault.isNone

/-- The exit code (`exit_code`): 65 for a source that did not run, 70 for one that failed, else 0.
-/
def exitCode (o : Outcome) : Nat :=
  if !o.diagnostics.isEmpty then 65 else if o.fault.isSome then 70 else 0

/-- Everything that went wrong, as it is shown. -/
def reports (o : Outcome) : List Report :=
  o.diagnostics.map Diagnostic.report ++ (o.fault.map Fault.report).toList

/-- The printed text. -/
def text (o : Outcome) : String := Text.Utf8.decodeCut o.output

end Outcome

/-- A machine between two runs, with what is known about the names of all sources so far. -/
structure Session where
  machine : Machine
  distances : Distances
  nextId : NodeId

/-- A source as a tree of statements, with what is wrong with it. -/
structure Program where
  statements : List Stmt
  diagnostics : List Diagnostic
  nextId : NodeId

namespace Program

/-- Scans and parses a source; node numbers start from `nextId`. -/
def ofSource (source : String) (nextId : NodeId) : Program :=
  let parsed := Grammar.parse (tokens source) nextId
  ⟨parsed.tree,
    (lexicalErrors source).map .lexical ++ parsed.errors.map .grammar,
    parsed.nextId⟩

end Program

namespace Session

/-- A new session that prints to the given sink (`with_output`). -/
def start (sink : Sink) : Session := ⟨.start sink, ∅, 0⟩

/-- Hands on the output of a run. -/
def finish (s : Session) (diagnostics : List Diagnostic) (fault : Option Fault) :
    Outcome × Session :=
  let (output, sink) := s.machine.sink.drain
  (⟨output, diagnostics, fault⟩, { s with machine := { s.machine with sink := sink } })

/-- Runs statements that nothing is wrong with: the part of the session's `run` behind the
diagnostics. There is no answer if the fuel does not last. -/
def execute (s : Session) (clock : Nat → Float) (fuel : Nat) (statements : List Stmt) :
    Option (Outcome × Session) :=
  match Eval.interpret ⟨s.distances, clock⟩ fuel statements s.machine with
  | .ok _ machine => some ({ s with machine := machine }.finish [] none)
  | .error (.fault f) machine => some ({ s with machine := machine }.finish [] (some f))
  | .error .outOfFuel _ => none

/-- Runs a source (the session's `run`). -/
def run (s : Session) (clock : Nat → Float) (fuel : Nat) (source : String) :
    Option (Outcome × Session) :=
  let program := Program.ofSource source s.nextId
  let s := { s with nextId := program.nextId }
  if !program.diagnostics.isEmpty then some (s.finish program.diagnostics none)
  else
    let resolution := Scope.resolve program.statements s.distances
    let s := { s with distances := resolution.distances }
    if !resolution.violations.isEmpty then
      some (s.finish (resolution.violations.map .scope) none)
    else s.execute clock fuel program.statements

/-- The value of a global name (`get_global`). -/
def global? (s : Session) (name : String) : Option Value :=
  s.machine.heap.getLocal? .global name

end Session

/-- What a source that is one expression comes to. -/
inductive Evaluation where
  | rejected (diagnostics : List Diagnostic)
  | value (v : Value) (heap : Heap)
  | failed (f : Fault)

namespace Evaluation

/-- Evaluates a source that is one expression on a new machine, as the command `evaluate` does.
Every name is global. -/
def ofSource (clock : Nat → Float) (fuel : Nat) (source : String) : Option Evaluation :=
  let parsed := Grammar.parseExpression (tokens source) 0
  let diagnostics := (lexicalErrors source).map .lexical ++ parsed.errors.map .grammar
  match parsed.tree, diagnostics with
  | some e, [] =>
    match Eval.eval ⟨∅, clock⟩ fuel e (.start .unlimited) with
    | .ok v machine => some (.value v machine.heap)
    | .error (.fault f) _ => some (.failed f)
    | .error .outOfFuel _ => none
  | _, diagnostics => some (.rejected diagnostics)

end Evaluation

end Lox
