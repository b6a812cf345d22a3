/-
# Receivers in a session

Whatever sources a session has run, a use of the receiver yields the object that the method around
it is bound to, in the call of the method and in every function that was declared in there, however
late that is called. A call that comes to an initializer yields its receiver, and the call of a
class a new object (`Session.Reachable.receivers`).
-/

import Lox.Proofs.Eval.Receiver
import Lox.Proofs.Session.Rejected
import Lox.Proofs.Session.ResolvedReads

namespace Lox
namespace Session

variable {s s' : Session} {clock : Nat → Float} {fuel : Nat} {source : String} {outcome : Outcome}

/-- What the statements of a source are given to run. -/
abbrev setting (s : Session) (clock : Nat → Float) (source : String) : Setting :=
  ⟨(s.resolution source).distances, clock⟩

/-! ## Between the runs -/

/-- The statements of a source run with a table that keeps what was found for it. -/
theorem keeps_setting (s : Session) (clock : Nat → Float) (source : String) :
    (s.prepared source).Keeps (s.setting clock source).distances := fun _ _ => rfl

/-- The statements of an accepted source can run, if the receivers on the heap are in order. -/
theorem Accepts.receiving (ha : s.Accepts source) (hs : s.Sound)
    (hh : (Invariant.receiving s.Keeps).Holds s.machine.heap) :
    (Invariant.receiving (s.prepared source).Keeps).Stands none s.machine ∧
      ∀ st ∈ s.statements source, st.Obeys (.receivers (s.prepared source).Keeps) none := by
  have holds : (Invariant.receiving (s.prepared source).Keeps).Holds s.machine.heap :=
    hh.receiving_mono fun _ hD => keeps_of_prepared hD
  refine ⟨⟨holds, fun _ _ hk => by cases hk⟩, ?_⟩
  exact Scope.obeys_receivers (ha.placed hs (by simp)) (Program.formed source s.nextId)
    ha.violations

/-- The receivers on the heap of a reachable session are in order. -/
theorem Reachable.receiving (hs : s.Reachable) :
    (Invariant.receiving s.Keeps).Holds s.machine.heap := by
  induction hs with
  | start sink => exact ⟨fun _ _ h => (by cases h), fun _ _ h => (by cases h), trivial⟩
  | @run s s' clock fuel source outcome hs h ih =>
    by_cases ha : s.Accepts source
    · obtain ⟨stands, obeys⟩ := ha.receiving hs.sound ih
      rw [run_of_accepts ha] at h
      obtain ⟨sink, rfl⟩ := execute_session h
      exact (Invariant.execProgram_sustains _ fuel _ s.machine stands obeys).1.holds
    · have holds := ih.receiving_mono fun _ hD => keeps_of_run h hD
      obtain ⟨ds, distances, -, -, hr⟩ := run_of_rejects ha
      rw [hr] at h
      cases h
      exact holds

/-! ## During a run -/

/-- What a run comes to stands where its receivers find their objects, and frames keep their
receivers from the start to there and from there to the end. -/
theorem Visits.receiving {t : Task} {m : Machine} (hv : s.Visits clock fuel source t m)
    (hs : s.Reachable) :
    (Invariant.receiving (s.prepared source).Keeps).Fits t m ∧ s.machine.heap.Steady m.heap ∧
      m.heap.Steady (Eval.after (Eval.execProgram (s.setting clock source) fuel
        (s.statements source)) s.machine).heap := by
  obtain ⟨stands, obeys⟩ := hv.accepts.receiving hs.sound hs.receiving
  exact Invariant.programVisits stands obeys hv.visits

/-- Frames keep their receivers over a run. -/
theorem Reachable.run_steady (hs : s.Reachable)
    (h : s.run clock fuel source = some (outcome, s')) :
    s.machine.heap.Steady s'.machine.heap := by
  by_cases ha : s.Accepts source
  · obtain ⟨stands, obeys⟩ := ha.receiving hs.sound hs.receiving
    rw [run_of_accepts ha] at h
    obtain ⟨sink, rfl⟩ := execute_session h
    exact (Invariant.execProgram_sustains _ fuel _ s.machine stands obeys).1.leads
  · obtain ⟨ds, distances, -, -, hr⟩ := run_of_rejects ha
    rw [hr] at h
    cases h
    exact .refl _

/-- How a run of the source treats receivers. Whatever is said of a task is said of the machine `m`
on which the run comes to it. -/
structure KeepsReceivers (s : Session) (clock : Nat → Float) (fuel : Nat) (source : String) :
    Prop where
  /-- A use of the receiver yields an object. The active frame is inside a call of the innermost
  method around the node, as it was bound to that object. -/
  uses : ∀ {id : NodeId} {keyword : Token} {m : Machine},
    s.Visits clock fuel source (.eval (.receiver id keyword)) m →
      ∃ d g o, m.heap.Serves m.frame d g o ∧ id ∈ g.decl.receivers ∧ ∀ k,
        Eval.eval (s.setting clock source) (k + 1) (.receiver id keyword) m = .ok (.object o) m
  /-- A property that is not a field is a method of the object's class, bound to the object. -/
  binds : ∀ {object : Expr} {name : Token} {m m₁ m' : Machine} {k : Nat} {o : ObjectRef}
      {v : Value},
    s.Visits clock fuel source (.eval (.get object name)) m →
    Eval.eval (s.setting clock source) k object m = .ok (.object o) m₁ →
    Eval.eval (s.setting clock source) (k + 1) (.get object name) m = .ok v m' →
    (m₁.heap.object? o).bind (fun x => x.fields.get? name.lexeme) = some v ∨
      ∃ r f g, v = .function r ∧ m₁.heap.method? o name.lexeme = some f ∧
        m'.heap.function? r = some g ∧ g = { f with closure := g.closure } ∧
          m'.heap.BoundTo g o ∧ g.isInitializer = (name.lexeme == Heap.initializerName)
  /-- In a call of a function, the receiver is that of the function, all the time. -/
  activates : ∀ {callee : Expr} {paren : Token} {args : List Expr} {m m₁ m' : Machine} {k d : Nat}
      {g : Function} {vs : List Value} {t : Task} {o : ObjectRef},
    s.Visits clock fuel source (.eval (.call callee paren args)) m →
    Eval.Calls (s.setting clock source) k callee paren args m g vs m₁ →
    Eval.Activation (s.setting clock source) k g vs m₁ t m' →
    m₁.heap.Receives g.closure d o →
      (∃ d', m'.heap.Receives m'.frame d' o) ∧
        ∀ id keyword, t = .eval (.receiver id keyword) → ∀ n,
          Eval.eval (s.setting clock source) (n + 1) (.receiver id keyword) m' = .ok (.object o) m'
  /-- A function that is declared has the receiver of the frame that it is declared in. -/
  declares : ∀ {decl : FunDecl} {m : Machine} {d : Nat} {o : ObjectRef},
    s.Visits clock fuel source (.exec (.function decl)) m → m.heap.Receives m.frame d o →
      ∃ r g m', (∀ k, Eval.exec (s.setting clock source) (k + 1) (.function decl) m =
          .ok .normal m') ∧
        m'.heap.getLocal? m.frame decl.name.lexeme = some (.function r) ∧
        m'.heap.function? r = some g ∧ g.decl = decl ∧ m'.heap.Receives g.closure d o
  /-- No frame changes its receiver, from a task to what it comes to, and from there to its end, -/
  onward : ∀ {t t' : Task} {m m' : Machine} {k : Nat}, s.Visits clock fuel source t m →
    Eval.Visits (s.setting clock source) k t m t' m' →
      m.heap.Steady m'.heap ∧ m'.heap.Steady (t.after (s.setting clock source) k m).heap
  /-- nor from the start of the run to a task, and from there to the end of the run, -/
  throughout : ∀ {t : Task} {m : Machine}, s.Visits clock fuel source t m →
    s.machine.heap.Steady m.heap ∧
      ∀ outcome s', s.run clock fuel source = some (outcome, s') → m.heap.Steady s'.machine.heap
  /-- nor from one run to the next. -/
  across : ∀ {outcome : Outcome} {s' : Session}, s.run clock fuel source = some (outcome, s') →
    s.machine.heap.Steady s'.machine.heap
  /-- A call that comes to an initializer yields its receiver, and so does the initializer. -/
  initializes : ∀ {callee : Expr} {paren : Token} {args : List Expr} {m m₁ m' : Machine} {k : Nat}
      {g : Function} {vs : List Value} {v : Value},
    s.Visits clock fuel source (.eval (.call callee paren args)) m →
    Eval.Calls (s.setting clock source) k callee paren args m g vs m₁ → g.isInitializer = true →
    Eval.eval (s.setting clock source) (k + 1) (.call callee paren args) m = .ok v m' →
      ∃ o m₂, m₁.heap.Receives g.closure 0 o ∧ v = .object o ∧
        Eval.invoke (Eval.exec (s.setting clock source) k) g vs m₁ = .ok (.object o) m₂
  /-- The call of a class yields an object of the class that did not exist before. If it comes to
  invoke a function, then that is an initializer. -/
  creates : ∀ {callee : Expr} {paren : Token} {args : List Expr} {m m₁ m' : Machine} {k : Nat}
      {ref : ClassRef} {v : Value},
    s.Visits clock fuel source (.eval (.call callee paren args)) m →
    Eval.eval (s.setting clock source) k callee m = .ok (.ofClass ref) m₁ →
    Eval.eval (s.setting clock source) (k + 1) (.call callee paren args) m = .ok v m' →
      (∃ vs m₂ o object, Eval.each (Eval.eval (s.setting clock source) k) args m₁ = .ok vs m₂ ∧
        m₂.heap.object? o = none ∧ v = .object o ∧ m'.heap.object? o = some object ∧
          object.classRef = ref) ∧
      ∀ g vs m₂, Eval.Calls (s.setting clock source) k callee paren args m g vs m₂ →
        g.isInitializer = true

/-- **The receiver is the object that the method is bound to, and initializers yield it.** Run any
source in a reachable session. A use of the receiver that the run comes to always yields the object
that the innermost method around it is bound to. All that runs in the call of the method sees this
object, and so does every function that is declared in the call, at whatever later time it is
called. A call that comes to an initializer, through the class or through a bound method, yields the
receiver, whatever the body returns. The call of a class yields an object of the class that is not
among those from before. -/
theorem Reachable.receivers (hs : s.Reachable) (clock : Nat → Float) (fuel : Nat)
    (source : String) : s.KeepsReceivers clock fuel source where
  uses hv := Eval.receiver_yields (keeps_setting s clock source) (hv.receiving hs).1
  binds hv ho h := Eval.get_bound (hv.receiving hs).1 ho h
  activates hv hc ha hr := by
    obtain ⟨holds, hg⟩ := hc.callee (hv.receiving hs).1
    obtain ⟨fits, receives⟩ := ha.receives holds hg
    obtain ⟨d', hr'⟩ := receives _ _ hr
    refine ⟨⟨d', hr'⟩, ?_⟩
    rintro id keyword rfl n
    obtain ⟨_, _, _, serves, -, yields⟩ := Eval.receiver_yields (keeps_setting s clock source) fits
    obtain ⟨-, rfl⟩ := hr'.unique serves.receiver
    exact yields n
  declares hv hr := Eval.function_receives (hv.receiving hs).1 hr
  onward hv h :=
    ⟨(Invariant.visits h (hv.receiving hs).1).1, Invariant.visits_onward h (hv.receiving hs).1⟩
  throughout hv := by
    obtain ⟨-, before, later⟩ := hv.receiving hs
    refine ⟨before, fun outcome s' h => ?_⟩
    rw [run_of_accepts hv.accepts] at h
    obtain ⟨sink, rfl⟩ := execute_session h
    exact later
  across h := hs.run_steady h
  initializes hv hc hi h := hc.initializer (hv.receiving hs).1 hi h
  creates hv hf h :=
    ⟨Eval.construct_yields hf h, fun _ _ _ hc => hc.isInitializer (hv.receiving hs).1 hf⟩

/-- A class whose initializer returns something else than its receiver, called on an object. -/
def initSource : String := "class A { init() { return true; } } A().init();"

/-- The class of `initSource`. -/
def initClass : Stmt :=
  .classDecl ⟨.identifier, "A", 1⟩ [⟨⟨.identifier, "init", 1⟩, [],
    [.ret ⟨.keyword .return_, "return", 1⟩ (some (.literal (.bool true)))]⟩]

/-- Ends the calls of `initSource`. -/
def initParen : Token := ⟨.punct .rightParen, ")", 1⟩

/-- The method that `initSource` calls. -/
def initMethod : Expr :=
  .get (.call (.ident 0 ⟨.identifier, "A", 1⟩) initParen []) ⟨.identifier, "init", 1⟩

/-- The source is a class and a call of the method of an object of it. -/
theorem initSource_statements : (start .unlimited).statements initSource =
    [initClass, .expression (.call initMethod initParen [])] := by decide +kernel

/-- Nothing is wrong with it. -/
theorem initSource_accepted : (start .unlimited).Accepts initSource :=
  ⟨by decide +kernel, by decide +kernel⟩

/-- What `initSource` is given to run. -/
def initSetting : Setting := (start .unlimited).setting (fun _ => 0) initSource

/-- The machine when the class is declared. -/
def initMachine : Machine :=
  Eval.after (Eval.execProgram initSetting 9 [initClass]) (start .unlimited).machine

/-- Its run comes to that call. -/
theorem initSource_visits : (start .unlimited).Visits (fun _ => 0) 9 initSource
    (.eval (.call initMethod initParen [])) initMachine :=
  ⟨initSource_accepted, [initClass], _, [], initMachine, initSource_statements, rfl,
    .part .expression .self⟩

open Eval in
/-- A case of `Reachable.receivers`: the second call of the initializer yields the object, too. -/
theorem initSource_receivers : (start .unlimited).Reachable ∧ ∃ g m₁ v m',
    Calls initSetting 7 initMethod initParen [] initMachine g [] m₁ ∧ g.isInitializer = true ∧
    eval initSetting 8 (.call initMethod initParen []) initMachine = .ok v m' ∧
    ∃ o, m₁.heap.Receives g.closure 0 o ∧ v = .object o := by
  have hr : (start .unlimited).Reachable := .start _
  have ends : (match eval initSetting 7 initMethod initMachine,
        eval initSetting 8 (.call initMethod initParen []) initMachine with
      | .ok f m₁, .ok _ _ =>
        match checkCall f 0 initParen m₁ with
        | .ok (.function g) _ => g.isInitializer
        | _ => false
      | _, _ => false) = true := by decide +kernel
  split at ends
  · rename_i f m₁ v m' hf hv
    split at ends
    · rename_i g m₂ hc
      have calls : Calls initSetting 7 initMethod initParen [] initMachine g [] _ :=
        ⟨f, m₁, m₁, _, m₂, hf, rfl, hc, .function⟩
      obtain ⟨o, -, ho, hv', -⟩ :=
        (hr.receivers (fun _ => 0) 9 initSource).initializes initSource_visits calls ends hv
      exact ⟨hr, g, _, v, m', calls, ends, hv, o, ho, hv'⟩
    · cases ends
  · cases ends

end Session
end Lox
