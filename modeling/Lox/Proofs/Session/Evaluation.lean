/-
# Evaluating an expression and running a program that prints it

A source that is one expression can be evaluated by itself, on a new machine and without a walk that
resolves its names, or it can be printed by a program (`printed`). The program is one `print`
statement for the same tree (`Program.statements_printed`). On the top level no name has a distance
(`Scope.resolve_print`), and on a new machine an expression prints nothing of its own, so both come
to the same end (`Session.run_printed`).
-/

import Lox.Proofs.Eval.Quiet
import Lox.Proofs.Grammar.SoleExpression
import Lox.Proofs.Scope.Notes
import Lox.Proofs.Session.LoopFree
import Lox.Proofs.Token.Lines
import Lox.Proofs.Token.Respaced

namespace Lox

/-- The program that prints the expression. The newline ends a comment behind the expression. -/
def printed (source : String) : String := "print " ++ source ++ "\n" ++ ";"

/-! ## The tokens and the tree -/

/-- Behind the word `print` and a blank a source is scanned as by itself. -/
theorem scan_print (source : String) :
    scan ("print " ++ source) = .ok ⟨.keyword .print_, "print", 1⟩ :: scan source := by
  have word : Scan.cut 'p' ("rint".toList ++ ' ' :: source.toList) =
      ⟨"print".toList, .token (.keyword .print_), ' ' :: source.toList⟩ :=
    (Scan.Lexeme.reserved .print_).cut_gap (.space _)
  have chars : ("print " ++ source).toList = 'p' :: ("rint".toList ++ ' ' :: source.toList) := by
    simp
  have space : ∀ line, Scan.items line (' ' :: source.toList) = Scan.items line source.toList := by
    intro line
    rw [Scan.items, Scan.cut_blank rfl]
    rfl
  rw [scan, chars, Scan.items, word]
  exact congrArg (_ :: ·) (space 1)

/-- Between `print` and the semicolon stand the tokens of the expression, on their lines. -/
theorem tokens_printed {source : String} (h : lexicalErrors source = []) :
    ∃ before last last', tokens source = before ++ [Token.endOfInput last] ∧
      (∀ t ∈ before, t.kind ≠ .endOfInput) ∧
      tokens (printed source) = ⟨.keyword .print_, "print", 1⟩ :: before ++
        [⟨.punct .semicolon, ";", last'⟩] ++ [Token.endOfInput last'] := by
  obtain ⟨before, last, alone, proper⟩ := tokens_eq source
  have first : tokens ("print " ++ source) =
      ⟨.keyword .print_, "print", 1⟩ :: before ++ [Token.endOfInput last] := by
    rw [tokens, scan_print, List.cons_append, ← alone]
    rfl
  have sound : lexicalErrors ("print " ++ source) = [] := by
    rw [lexicalErrors, scan_print, List.filterMap_cons_none rfl]
    exact h
  obtain ⟨before', last', split, whole⟩ := tokens_newline sound ";"
  obtain ⟨rfl, -⟩ := List.append_singleton_inj.1 (first.symm.trans split)
  have semicolon : tokens ";" = [⟨.punct .semicolon, ";", 1⟩, Token.endOfInput 1] := by
    decide +kernel
  refine ⟨before, last, 1 + lineCount ("print " ++ source), alone,
    fun t ht => (proper t ht).inner, ?_⟩
  rw [printed, whole, tokens_belowLines, semicolon, List.append_assoc]
  rfl

/-- The program that prints an expression is one `print` statement of an alike expression. -/
theorem Program.statements_printed {source : String} (h : lexicalErrors source = [])
    (h' : (Grammar.parseExpression (tokens source) 0).errors = [])
    (h'' : (Program.ofSource (printed source) 0).diagnostics = []) :
    ∃ e e', (Grammar.parseExpression (tokens source) 0).tree = some e ∧
      (Program.ofSource (printed source) 0).statements = [.print e'] ∧ e'.Alike Eq AnyNumber e := by
  obtain ⟨before, last, last', alone, free, whole⟩ := tokens_printed h
  have errors : (Grammar.parse (tokens (printed source)) 0).errors = [] := by
    have := (List.append_eq_nil_iff.1 h'').2
    exact List.map_eq_nil_iff.1 this
  rw [alone] at h' ⊢
  rw [whole] at errors
  obtain ⟨e, e', he, tree, erased⟩ := Grammar.parse_print free rfl rfl rfl rfl h' errors
  rw [← whole] at tree
  exact ⟨e, e', he, tree, .of_erase erased⟩

/-! ## The runs -/

namespace Evaluation

/-- An outcome is what printing comes to: the text of the value on a line, or the fault. -/
inductive Shows : Evaluation → Outcome → Prop
  | value (v : Value) (heap : Heap) : Shows (.value v heap) ⟨(heap.text v ++ "\n").toUTF8, [], none⟩
  | failed (f : Fault) : Shows (.failed f) ⟨.empty, [], some f⟩

/-- What the end of an expression comes to. -/
def ofEnd : EStateM.Result Stop Machine Value → Option Evaluation
  | .ok v m => some (.value v m.heap)
  | .error (.fault f) _ => some (.failed f)
  | .error .outOfFuel _ => none

/-- A source that is one expression is evaluated on a new machine. -/
theorem ofSource_of_tree {source : String} {e : Expr} (scanned : lexicalErrors source = [])
    (read : (Grammar.parseExpression (tokens source) 0).errors = [])
    (tree : (Grammar.parseExpression (tokens source) 0).tree = some e) (clock : Nat → Float)
    (fuel : Nat) :
    ofSource clock fuel source = ofEnd (Eval.eval ⟨∅, clock⟩ fuel e (.start .unlimited)) := by
  unfold ofSource
  simp only [tree, scanned, read, List.map_nil, List.append_nil]
  cases Eval.eval ⟨∅, clock⟩ fuel e (.start .unlimited) with
  | ok v m => rfl
  | error x m => cases x <;> rfl

end Evaluation

namespace Eval

variable {p : Setting} {fuel fuel' : Nat} {e e' : Expr} {m m' : Machine} {v : Value}

/-- To run the statement is to evaluate, to print and to hand on the output. -/
theorem interpret_print : interpret p (fuel + 1) [.print e] m =
    (eval p fuel e >>= fun v => print v >>= fun _ => flush) m := by
  simp only [interpret, execProgram, exec, execRule, bind_assoc, pure_bind]

/-- If there is a value, its text is printed on a line. -/
theorem interpret_print_ok (h : eval p fuel e m = .ok v m') (hs : m'.sink = .unlimited) :
    interpret p (fuel + 1) [.print e] m = .ok ()
      { m' with sink := { Sink.unlimited with written := (m'.heap.text v ++ "\n").toUTF8 } } := by
  have written : print v m' = .ok ()
      { m' with sink := { Sink.unlimited with written := (m'.heap.text v ++ "\n").toUTF8 } } := by
    simp [print, hs, Sink.write, Sink.unlimited]
  rw [interpret_print, bind_of_ok h, bind_of_ok written]
  rfl

/-- If there is none, the run stops as the evaluation does. -/
theorem interpret_print_error {x : Stop} (h : eval p fuel e m = .error x m') :
    interpret p (fuel + 1) [.print e] m = .error x m' := by
  rw [interpret_print, bind_of_error h]

/-- On a new machine, and with no name located, expressions that are alike end alike. -/
theorem eval_start_agree (clock : Nat → Float) (alike : e.Alike Eq AnyNumber e')
    (hf : e.height ≤ fuel) (hf' : e.height ≤ fuel') :
    EndTwins Eq AnyNumber .empty Eq (eval ⟨∅, clock⟩ fuel e (.start .unlimited))
      (eval ⟨∅, clock⟩ fuel' e' (.start .unlimited)) := by
  have idle : (Machine.start .unlimited).heap.Idle := Heap.idle_initial
  have heap : (Machine.start .unlimited).heap.Twin Eq AnyNumber (Machine.start .unlimited).heap :=
    ⟨⟨fun _ => .none, rfl, fun _ => .none, rfl, rfl⟩, rfl⟩
  have height : e'.height = e.height := alike.height
  have twins : Twins Eq AnyNumber .empty (eval ⟨∅, clock⟩ e.height e)
      (eval ⟨∅, clock⟩ e.height e') Eq :=
    (eval_exec_twins faithful_eq rfl (fun _ _ _ => rfl) e.height).1 e e' alike
  rw [(eval_of_height ⟨∅, clock⟩ idle hf).1,
    (eval_of_height ⟨∅, clock⟩ idle (Nat.le_trans (Nat.le_of_eq height) hf')).1, height]
  exact twins _ _ heap.machine

end Eval

namespace Session

/-- A new machine prints the value of an expression, or ends with its fault; an expression that
ends alike shows the same. -/
theorem execute_print {s : Session} (new : s.machine = .start .unlimited) {clock : Nat → Float}
    {fuel : Nat} {e : Expr} (hf : e.height ≤ fuel) {x : EStateM.Result Stop Machine Value}
    (h : Eval.EndTwins Eq AnyNumber .empty Eq
      (Eval.eval ⟨s.distances, clock⟩ fuel e s.machine) x) :
    ∃ evaluation outcome s', Evaluation.ofEnd x = some evaluation ∧
      s.execute clock (fuel + 1) [.print e] = some (outcome, s') ∧ evaluation.Shows outcome := by
  have idle : s.machine.heap.Idle := new ▸ Heap.idle_initial
  have quiet : (Eval.after (Eval.eval ⟨s.distances, clock⟩ fuel e) s.machine).sink = .unlimited :=
    (Eval.eval_quiet ⟨s.distances, clock⟩ fuel e idle).trans (congrArg (·.sink) new)
  obtain ⟨same, ends⟩ := Eval.eval_of_height ⟨s.distances, clock⟩ idle hf
  rw [← same] at ends
  unfold execute
  cases he : Eval.eval ⟨s.distances, clock⟩ fuel e s.machine with
  | ok v m =>
    have sink : m.sink = .unlimited := Eval.after_ok he ▸ quiet
    rw [he] at h
    cases h with
    | ok hm hv =>
      cases hv
      rw [Eval.interpret_print_ok he sink, ← hm.heap.text faithful_eq]
      exact ⟨_, _, _, rfl, rfl, .value v _⟩
  | error stop m =>
    have sink : m.sink = .unlimited := Eval.after_error he ▸ quiet
    rw [he] at h
    cases h with
    | error hm hx =>
      cases hx with
      | outOfFuel => exact absurd he (ends m)
      | @fault f f' hf =>
        have fault : f' = f := by
          cases hf with
          | trouble cause ht => rw [ht]
          | output error => rfl
        have outcome : (finish { s with machine := m } [] (some f)).1 = ⟨.empty, [], some f⟩ := by
          simp only [finish, Sink.drain, sink]
          rfl
        rw [Eval.interpret_print_error he, fault]
        exact ⟨_, _, _, rfl, congrArg some (Prod.ext outcome rfl), .failed f⟩

/-- **An expression evaluated by itself is the expression printed.** Let a source be one expression
without an error, and the program that prints it be accepted by a new session. Then, with fuel for
the height of the program, both come to an end: to a value whose text on a line is the output of
the program, or to the same fault, with the same message on the same line. -/
theorem run_printed (clock : Nat → Float) {source : String} (scanned : lexicalErrors source = [])
    (read : (Grammar.parseExpression (tokens source) 0).errors = [])
    (accepted : (start .unlimited).Accepts (printed source)) {fuel fuel' : Nat}
    (hf : Program.height (printed source) ≤ fuel) (hf' : Program.height (printed source) ≤ fuel') :
    ∃ evaluation outcome s, Evaluation.ofSource clock fuel source = some evaluation ∧
      (start .unlimited).run clock fuel' (printed source) = some (outcome, s) ∧
        evaluation.Shows outcome := by
  obtain ⟨e, e', tree, statements, alike⟩ :=
    Program.statements_printed scanned read accepted.diagnostics
  -- The statement is one rule higher than the expression.
  have height : Program.height (printed source) = e'.height + 1 := by
    rw [Program.height, statements, Stmt.heightList, Stmt.heightList, Stmt.height]
    omega
  obtain ⟨k, rfl⟩ : ∃ k, fuel' = k + 1 := Nat.exists_eq_add_one.2 (by omega)
  have global : ((start .unlimited).prepared (printed source)).distances = ∅ :=
    (congrArg (fun ss => (Scope.resolve ss ∅).distances) statements).trans
      (Scope.resolve_print e' ∅)
  have low : e'.height ≤ k := by omega
  have agree := Eval.eval_start_agree clock alike low (show e'.height ≤ fuel by omega)
  rw [← global] at agree
  obtain ⟨evaluation, outcome, s, he, hs, shows⟩ := execute_print
    (s := (start .unlimited).prepared (printed source)) rfl low agree
  rw [← statements] at hs
  refine ⟨evaluation, outcome, s, ?_, (run_of_accepts accepted).trans hs, shows⟩
  rw [Evaluation.ofSource_of_tree scanned read tree, ← global]
  exact he

/-- A call of the one function there is, with a comment up to the end of the line. -/
def commentedSource : String := "clock() + 1 // a second later"

/-- A sign before something that is not a number, on the second line. -/
def faultySource : String := "1 +\n-clock"

/-- Two cases of `run_printed`: a value, and a fault. -/
theorem commentedSource_printed :
    (∀ source ∈ [commentedSource, faultySource], lexicalErrors source = [] ∧
      (Grammar.parseExpression (tokens source) 0).errors = [] ∧
      (start .unlimited).Accepts (printed source) ∧ Program.height (printed source) ≤ 9 ∧
      ∃ evaluation outcome s, Evaluation.ofSource (fun _ => 0) 9 source = some evaluation ∧
        (start .unlimited).run (fun _ => 0) 9 (printed source) = some (outcome, s) ∧
          evaluation.Shows outcome) ∧
    ((start .unlimited).run (fun _ => 0) 9 (printed commentedSource)).map (fun x => x.1.output) =
      some "1\n".toUTF8 ∧
    ((start .unlimited).run (fun _ => 0) 9 (printed faultySource)).map (fun x => x.1.fault) =
      some (some (.trouble .operandNotNumber ⟨.punct .minus, "-", 2⟩)) := by
  have checked : ∀ source ∈ [commentedSource, faultySource], lexicalErrors source = [] ∧
      (Grammar.parseExpression (tokens source) 0).errors = [] ∧
      (Program.ofSource (printed source) 0).diagnostics = [] ∧
      ((start .unlimited).resolution (printed source)).violations = [] ∧
      Program.height (printed source) ≤ 9 := by decide +kernel
  refine ⟨fun source hs => ?_, by decide +kernel, by decide +kernel⟩
  obtain ⟨scanned, read, diagnostics, violations, height⟩ := checked source hs
  have accepted : (start .unlimited).Accepts (printed source) := ⟨diagnostics, violations⟩
  exact ⟨scanned, read, accepted, height,
    run_printed (fun _ => 0) scanned read accepted height height⟩

end Session
end Lox
