/-
# The limit on calls in a session

Whatever sources a session has run, and however those runs ended, the machine counts the calls in
progress: there are none between two runs, and during a run there are as many as the bodies that it
has entered and not left, `maxCalls` at the most. A call that could be made otherwise raises a fault
of its own if and only if there are `maxCalls` of them (`Session.Reachable.limitsCalls`).
-/

import Lox.Proofs.Eval.Calls
import Lox.Proofs.Session.Receiver
import Lox.Proofs.Session.Restored

namespace Lox
namespace Session

variable {s : Session} {clock : Nat → Float} {fuel : Nat} {source : String}
  {calls : List Callable} {t : Task} {m : Machine}

/-- Running a source in a session comes to a task on a machine under calls in progress, the
outermost first. -/
structure VisitsUnder (s : Session) (clock : Nat → Float) (fuel : Nat) (source : String)
    (calls : List Callable) (t : Task) (m : Machine) : Prop where
  accepts : s.Accepts source
  visits : ∃ pre st post m₁, s.statements source = pre ++ st :: post ∧
    Eval.execProgram (s.setting clock source) fuel pre s.machine = .ok () m₁ ∧
      Eval.Under (s.setting clock source) fuel (.exec st) m₁ calls t m

/-- What a run comes to it comes to under some calls in progress. -/
theorem visits_iff : s.Visits clock fuel source t m ↔
    ∃ calls, s.VisitsUnder clock fuel source calls t m := by
  constructor
  · rintro ⟨accepts, pre, st, post, m₁, split, before, visits⟩
    obtain ⟨calls, under⟩ := visits.under
    exact ⟨calls, accepts, pre, st, post, m₁, split, before, under⟩
  · rintro ⟨calls, accepts, pre, st, post, m₁, split, before, under⟩
    exact ⟨accepts, pre, st, post, m₁, split, before, under.visits⟩

/-- The machine counts the calls in progress. -/
theorem VisitsUnder.counts (h : s.VisitsUnder clock fuel source calls t m) (hs : s.Reachable) :
    m.calls = calls.length ∧ calls.length ≤ maxCalls := by
  obtain ⟨pre, st, post, m₁, -, before, under⟩ := h.visits
  have none : m₁.calls = 0 := ((Eval.execProgram_keeps _ fuel pre).ok before).calls.trans hs.calls
  obtain ⟨count, most⟩ := under.calls
  rw [none, Nat.zero_add] at count
  exact ⟨count, count ▸ most (none ▸ Nat.zero_le _)⟩

/-- How a run of the source limits calls. Whatever is said of a task is said of the machine `m` on
which the run comes to it. -/
structure LimitsCalls (s : Session) (clock : Nat → Float) (fuel : Nat) (source : String) :
    Prop where
  /-- Before and after the run no call is in progress, however it ended. -/
  rests : s.machine.calls = 0 ∧ ∀ outcome s', s.run clock fuel source = some (outcome, s') →
    s'.machine.calls = 0
  /-- Whatever the run comes to, it comes to under some calls in progress. -/
  visits : ∀ {t : Task} {m : Machine}, s.Visits clock fuel source t m ↔
    ∃ calls, s.VisitsUnder clock fuel source calls t m
  /-- The machine counts them, and there are never more than the most. -/
  counts : ∀ {calls : List Callable} {t : Task} {m : Machine},
    s.VisitsUnder clock fuel source calls t m → m.calls = calls.length ∧ calls.length ≤ maxCalls
  /-- A call that has the values it needs raises the fault itself, whatever the statements in its
  callee would do, if and only if the most calls are in progress. -/
  raises : ∀ {calls : List Callable} {callee : Expr} {paren : Token} {args : List Expr}
      {m m' : Machine} {k : Nat} {c : Callable} {vs : List Value},
    s.VisitsUnder clock fuel source calls (.eval (.call callee paren args)) m →
    Eval.Applies (s.setting clock source) k callee args m c vs m' →
      m'.calls = calls.length ∧
      ((∀ exec, Eval.Fails (.fault (.trouble .stackOverflow paren))
          (Eval.evalRule (s.setting clock source) (Eval.eval (s.setting clock source) k) exec
            (.call callee paren args)) m) ↔ calls.length = maxCalls)
  /-- Then it starts no statement, and the machine stays as the arguments left it: without a new
  frame or object, and with nothing printed. -/
  full : ∀ {calls : List Callable} {callee : Expr} {paren : Token} {args : List Expr}
      {m m' : Machine} {k : Nat} {c : Callable} {vs : List Value},
    s.VisitsUnder clock fuel source calls (.eval (.call callee paren args)) m →
    Eval.Applies (s.setting clock source) k callee args m c vs m' → calls.length = maxCalls →
      Eval.eval (s.setting clock source) (k + 1) (.call callee paren args) m =
        .error (.fault (.trouble .stackOverflow paren)) m' ∧
      ∀ st m₁, ¬ Eval.Starts (s.setting clock source) k (.eval (.call callee paren args)) m
        (.exec st) m₁
  /-- Otherwise its callee runs on the machine that the arguments left, with one call more in
  progress, and the call ends as it ends. The count is put back after a result and after an error
  alike. -/
  room : ∀ {calls : List Callable} {callee : Expr} {paren : Token} {args : List Expr}
      {m m' : Machine} {k : Nat} {c : Callable} {vs : List Value},
    s.VisitsUnder clock fuel source calls (.eval (.call callee paren args)) m →
    Eval.Applies (s.setting clock source) k callee args m c vs m' → calls.length < maxCalls →
      m'.calls = calls.length ∧
      (∀ v m₁, Eval.apply clock (Eval.exec (s.setting clock source) k) vs c
          { m' with calls := calls.length + 1 } = .ok v m₁ →
        Eval.eval (s.setting clock source) (k + 1) (.call callee paren args) m =
          .ok v { m₁ with calls := calls.length }) ∧
      (∀ stop m₁, Eval.apply clock (Eval.exec (s.setting clock source) k) vs c
          { m' with calls := calls.length + 1 } = .error stop m₁ →
        Eval.eval (s.setting clock source) (k + 1) (.call callee paren args) m =
          .error stop { m₁ with calls := calls.length })
  /-- A statement that an expression starts is in the body of a function that it invokes, -/
  enters : ∀ {e : Expr} {st : Stmt} {m m' : Machine} {k : Nat},
    s.Visits clock fuel source (.eval e) m →
    Eval.Starts (s.setting clock source) k (.eval e) m (.exec st) m' →
      ∃ callee paren args g vs m₁, e = .call callee paren args ∧
        Eval.Calls (s.setting clock source) k callee paren args m g vs m₁ ∧ st ∈ g.decl.body
  /-- and every function that is invoked, be it the initializer of a class that is called, is
  invoked on as many arguments as it has parameters. -/
  fits : ∀ {callee : Expr} {paren : Token} {args : List Expr} {m m' : Machine} {k : Nat}
      {g : Function} {vs : List Value},
    s.Visits clock fuel source (.eval (.call callee paren args)) m →
    Eval.Calls (s.setting clock source) k callee paren args m g vs m' →
      vs.length = g.decl.params.length

/-- **The limit on calls is exact.** Run any source in a reachable session. At all that the run
comes to, the machine counts the calls in progress, of which there are never more than `maxCalls`,
and none is left when the run has ended. A call whose callee takes its arguments raises the fault of
the limit itself if and only if `maxCalls` calls are in progress, and then does nothing else. Every
function is entered on as many arguments as it has parameters. -/
theorem Reachable.limitsCalls (hs : s.Reachable) (clock : Nat → Float) (fuel : Nat)
    (source : String) : s.LimitsCalls clock fuel source where
  rests := ⟨hs.calls, fun _ _ h => (Reachable.run hs h).calls⟩
  visits := visits_iff
  counts h := h.counts hs
  raises h ha := by
    obtain ⟨count, most⟩ := h.counts hs
    have same := ha.calls.trans count
    refine ⟨same, ha.raises_iff.trans ?_⟩
    rw [same]
    exact ⟨fun full => Nat.le_antisymm most full, fun full => Nat.le_of_eq full.symm⟩
  full h ha full := by
    have same := ha.calls.trans (h.counts hs).1
    exact ha.eval_of_full (Nat.le_of_eq (full.symm.trans same.symm))
  room h ha room := by
    have same := ha.calls.trans (h.counts hs).1
    refine ⟨same, ?_⟩
    rw [← same] at room ⊢
    exact ha.eval_of_room room
  enters _ h := h.invokes
  fits _ h := h.arity

/-! ## A function that calls itself -/

/-- A function that calls itself, and a call of it. -/
def endlessCallSource : String := "fun f() { f(); } f();"

/-- The name of the function of `endlessCallSource`, and what ends its calls. -/
def endlessName : Token := ⟨.identifier, "f", 1⟩

@[inherit_doc endlessName]
def endlessParen : Token := ⟨.punct .rightParen, ")", 1⟩

/-- A call of the function of `endlessCallSource`. -/
def endlessCall (id : NodeId) : Expr := .call (.ident id endlessName) endlessParen []

/-- The function of `endlessCallSource`. -/
def endlessDecl : FunDecl := ⟨endlessName, [], [.expression (endlessCall 0)]⟩

/-- The source is a function and a call of it. -/
theorem endlessCallSource_statements : (start .unlimited).statements endlessCallSource =
    [.function endlessDecl, .expression (endlessCall 1)] := by decide +kernel

/-- Nothing is wrong with it. -/
theorem endlessCallSource_accepted : (start .unlimited).Accepts endlessCallSource :=
  ⟨by decide +kernel, by decide +kernel⟩

/-- What `endlessCallSource` is given to run. -/
def endlessSetting : Setting := (start .unlimited).setting (fun _ => 0) endlessCallSource

/-- Its names are global. -/
theorem endlessSetting_global : endlessSetting.distances.get? 0 = none ∧
    endlessSetting.distances.get? 1 = none := ⟨by decide +kernel, by decide +kernel⟩

/-- The function as it is called. -/
def endlessFunction : Function := ⟨endlessDecl, .global, false⟩

/-- The name is bound to the function. -/
structure Endless (m : Machine) : Prop where
  bound : m.heap.getLocal? .global endlessName.lexeme = some (.function ⟨0⟩)
  function : m.heap.function? ⟨0⟩ = some endlessFunction

/-- Opening a frame leaves the name bound to the function. -/
theorem Endless.opened (h : Endless m) {parent : FrameRef} {values : Bindings Value}
    {m' : Machine} (heap : m'.heap = (m.heap.newFrame parent values).2) : Endless m' := by
  obtain ⟨f, hf, -⟩ := Option.bind_eq_some_iff.1 h.bound
  have other : FrameRef.global ≠ ⟨m.heap.frames.size⟩ :=
    Heap.ne_size_of_present (Option.isSome_iff_exists.2 ⟨f, hf⟩)
  refine ⟨?_, ?_⟩
  · rw [heap, Heap.getLocal?_newFrame, if_neg other, h.bound]
  · rw [heap]
    exact h.function

section Endless

variable {id : NodeId} (global : endlessSetting.distances.get? id = none)

include global

/-- The name has the function as its value. -/
theorem Endless.evaluates (h : Endless m) (k : Nat) :
    Eval.eval endlessSetting (k + 1) (.ident id endlessName) m = .ok (.function ⟨0⟩) m := by
  simp only [Eval.eval, Eval.evalRule, Eval.readName, Eval.placeOf, global, Eval.valueAt?, h.bound]

/-- Its call comes to the function, without arguments. -/
theorem Endless.applies (h : Endless m) (k : Nat) :
    Eval.Applies endlessSetting (k + 1) (.ident id endlessName) [] m (.function endlessFunction) []
      m := by
  refine ⟨⟨_, m, h.evaluates global k, rfl, ?_⟩, rfl⟩
  rw [Heap.callable?, h.function]
  rfl

/-- While there is room, the call comes to the call in the body. -/
theorem Endless.starts (h : Endless m) (room : m.calls < maxCalls) (k : Nat) :
    ∃ m', Endless m' ∧ Eval.Starts endlessSetting (k + 1) (.eval (endlessCall id)) m
      (.exec (.expression (endlessCall 0))) m' ∧ m'.calls = m.calls + 1 := by
  obtain ⟨r, m₁, hr⟩ : ∃ r m₁,
      Eval.callFrame endlessFunction [] { m with calls := m.calls + 1 } = .ok r m₁ := ⟨_, _, rfl⟩
  have checked :
      Eval.checkCall (.function ⟨0⟩) 0 endlessParen m = .ok (.function endlessFunction) m := by
    unfold Eval.checkCall
    rw [Heap.callable?, h.function]
    exact if_neg (Nat.not_le.2 room)
  have starts : Eval.Starts endlessSetting (k + 1) (.eval (endlessCall id)) m
      (.exec (.expression (endlessCall 0))) { m₁ with frame := r } :=
    @Eval.Starts.body _ _ _ _ _ _ _ _ _ _ _ _ [] _ [] _ [] (h.evaluates global k) rfl checked
      (.function hr) rfl
  have opened : m₁.heap = (m.heap.newFrame .global ∅).2 ∧ m₁.calls = m.calls + 1 := by
    cases hr
    exact ⟨rfl, rfl⟩
  exact ⟨{ m₁ with frame := r }, h.opened opened.1, starts, opened.2⟩

/-- And so on, until there is no room. -/
theorem Endless.under (n : Nat) (h : Endless m) (room : m.calls + n ≤ maxCalls) (k : Nat) :
    ∃ m' id', endlessSetting.distances.get? id' = none ∧ Endless m' ∧
      Eval.Under endlessSetting (2 * n + k + 1) (.eval (endlessCall id)) m
        (List.replicate n (.function endlessFunction)) (.eval (endlessCall id')) m' := by
  induction n generalizing m id with
  | zero => exact ⟨m, id, global, h, .self⟩
  | succ n ih =>
    obtain ⟨m₁, h₁, hs, count⟩ := h.starts global (by omega) (2 * n + k + 1)
    obtain ⟨m', id', global', h', under⟩ := ih endlessSetting_global.1 h₁ (by omega)
    refine ⟨m', id', global', h', ?_⟩
    have fuel : 2 * (n + 1) + k + 1 = 2 * n + k + 1 + 1 + 1 := by omega
    rw [fuel, List.replicate_succ]
    exact .body (h.applies global _) hs (.expression .expression under)

end Endless

open Eval in
/-- A case of `Reachable.limitsCalls`: under as many calls as there may be, one more fails. -/
theorem endlessCallSource_limited : (start .unlimited).Reachable ∧ ∃ calls id m,
    (start .unlimited).VisitsUnder (fun _ => 0) 512 endlessCallSource calls
      (.eval (endlessCall id)) m ∧
    calls.length = 255 ∧ m.calls = 255 ∧
    eval endlessSetting 2 (endlessCall id) m =
      .error (.fault (.trouble .stackOverflow endlessParen)) m := by
  have hr : (start .unlimited).Reachable := .start _
  obtain ⟨m₀, declared, none, h⟩ : ∃ m₀, execProgram endlessSetting 512 [.function endlessDecl]
      (start .unlimited).machine = .ok () m₀ ∧ m₀.calls = 0 ∧ Endless m₀ :=
    ⟨_, rfl, rfl, by decide +kernel, rfl⟩
  have room : m₀.calls + 255 ≤ maxCalls := by rw [none]; decide
  obtain ⟨m, id, global, h', under⟩ := h.under endlessSetting_global.2 255 room 0
  have visits : (start .unlimited).VisitsUnder (fun _ => 0) 512 endlessCallSource _
      (.eval (endlessCall id)) m :=
    ⟨endlessCallSource_accepted, [.function endlessDecl], _, [], m₀, endlessCallSource_statements,
      declared, .expression .expression under⟩
  have limits := hr.limitsCalls (fun _ => 0) 512 endlessCallSource
  have count : (List.replicate 255 (Callable.function endlessFunction)).length = 255 :=
    List.length_replicate
  exact ⟨hr, _, id, m, visits, count, (limits.counts visits).1.trans count,
    (limits.full visits (h'.applies global 0) count).1⟩

end Session
end Lox
