/-
# The calls in progress

What a running program comes to, it comes to under the calls that it has entered the bodies of and
not left yet (`Eval.Under`). The machine counts them: it has one call more in progress in a body
than at the call, and as many everywhere else (`Starts.calls`, `Under.calls`). These are the
machines on which the evaluator runs the parts: where one ends in a stop, the whole ends in it
(`Starts.fails`, `Under.fails`). A call that is about to be made finds fewer than `maxCalls` calls
and is then whatever its callee does (`Applies.eval_of_room`), or it finds `maxCalls` of them and
raises the fault itself, on the machine its arguments left (`Applies.raises_iff`).
-/

import Lox.Proofs.Eval.Receiver

namespace Lox
namespace Eval

variable {p : Setting} {fuel : Nat} {t t' : Task} {m m' : Machine}

/-! ## Calls that are made -/

/-- The callee and the arguments of a call on `m` have values, which leave `m'`, and come to `c` and
`vs`: the callee can be called and takes that many arguments. -/
structure Applies (p : Setting) (fuel : Nat) (callee : Expr) (args : List Expr) (m : Machine)
    (c : Callable) (vs : List Value) (m' : Machine) : Prop where
  reaches : ∃ f m₁, eval p fuel callee m = .ok f m₁ ∧ each (eval p fuel) args m₁ = .ok vs m' ∧
    m'.heap.callable? f = some c
  arity : vs.length = c.arity

section Applies

variable {callee : Expr} {paren : Token} {args : List Expr} {c : Callable} {vs : List Value}

/-- The fault of a call that finds too many calls in progress. -/
def overflow (paren : Token) : Stop := .fault (.trouble .stackOverflow paren)

/-- Evaluating the callee and the arguments leaves the number of calls. -/
theorem Applies.calls (h : Applies p fuel callee args m c vs m') : m'.calls = m.calls := by
  obtain ⟨f, m₁, hf, hv, -⟩ := h.reaches
  exact ((each_keeps (fun e => eval_keeps p fuel e) args).ok hv).calls.trans
    ((eval_keeps p fuel callee).ok hf).calls

/-- The callee and its arguments settle what is called, but for the calls in progress. -/
theorem Applies.evalRule (h : Applies p fuel callee args m c vs m') (exec : Stmt → Eval Flow) :
    evalRule p (eval p fuel) exec (.call callee paren args) m =
      if maxCalls ≤ m'.calls then .error (overflow paren) m'
      else counted (apply p.clock exec vs c) m' := by
  obtain ⟨⟨f, m₁, hf, hv, hc⟩, arity⟩ := h
  have check : checkCall f vs.length paren m' =
      if maxCalls ≤ m'.calls then .error (overflow paren) m' else .ok c m' := by
    unfold checkCall
    rw [hc]
    dsimp only
    rw [if_neg (Decidable.not_not.2 arity)]
    rfl
  unfold Eval.evalRule
  dsimp only
  rw [bind_of_ok hf, bind_of_ok hv]
  split
  · rename_i full
    rw [if_pos full] at check
    exact bind_of_error check
  · rename_i room
    rw [if_neg room] at check
    rw [bind_of_ok check]

/-- Statements that do nothing do nothing in order. -/
theorem inOrder_skips (ss : List Stmt) (m : Machine) :
    inOrder (fun _ => pure .normal) ss m = .ok .normal m := by
  induction ss with
  | nil => rfl
  | cons s ss ih => exact (bind_of_ok rfl).trans ih

/-- A call of a function whose body does nothing returns. -/
theorem invoke_skips (f : Function) (vs : List Value) (m : Machine) :
    ∃ v m', invoke (fun _ => pure .normal) f vs m = .ok v m' := by
  obtain ⟨r, m₁, hr⟩ : ∃ r m₁, callFrame f vs m = .ok r m₁ := ⟨_, _, rfl⟩
  have body : inFrame r (inOrder (fun _ => pure .normal) f.decl.body) m₁ =
      .ok .normal { m₁ with frame := m₁.frame } := by
    unfold inFrame
    rw [inOrder_skips]
  unfold invoke
  rw [bind_of_ok hr, bind_of_ok body]
  unfold callResult
  cases f.isInitializer <;> exact ⟨_, _, rfl⟩

/-- So does a call of a class. -/
theorem construct_skips (ref : ClassRef) (c : Class) (vs : List Value) (m : Machine) :
    ∃ v m', construct (fun _ => pure .normal) ref c vs m = .ok v m' := by
  obtain ⟨o, m₁, ho⟩ : ∃ o m₁, onHeap (fun h => h.newObject ref) m = .ok o m₁ := ⟨_, _, rfl⟩
  unfold construct
  rw [bind_of_ok ho]
  cases c.initializer? with
  | none => exact ⟨_, _, rfl⟩
  | some f =>
    obtain ⟨bound, m₂, hb⟩ : ∃ b m₂, onHeap (fun h => h.bind f o) m₁ = .ok b m₂ := ⟨_, _, rfl⟩
    obtain ⟨v, m₃, hv⟩ := invoke_skips bound vs m₂
    dsimp only
    rw [bind_of_ok hb, bind_of_ok hv]
    exact ⟨_, _, rfl⟩

/-- A call of anything goes through if statements do nothing. -/
theorem apply_skips (clock : Nat → Float) (vs : List Value) (m : Machine) :
    ∀ c, ∃ v m', apply clock (fun _ => pure .normal) vs c m = .ok v m'
  | .native .clock => ⟨_, _, rfl⟩
  | .function f => invoke_skips f vs m
  | .construct ref c => construct_skips ref c vs m

/-- **A call raises the fault itself**, whatever statements do, if and only if the most calls are
in progress. -/
theorem Applies.raises_iff (h : Applies p fuel callee args m c vs m') :
    (∀ exec, Fails (overflow paren)
      (Eval.evalRule p (eval p fuel) exec (.call callee paren args)) m) ↔ maxCalls ≤ m'.calls := by
  constructor
  · intro raises
    refine Nat.not_lt.1 fun room => ?_
    obtain ⟨m₁, ends⟩ := raises fun _ => pure .normal
    rw [h.evalRule, if_neg (Nat.not_le.2 room), counted] at ends
    obtain ⟨v, m₂, hv⟩ := apply_skips p.clock vs { m' with calls := m'.calls + 1 } c
    rw [hv] at ends
    cases ends
  · intro full exec
    exact ⟨m', (h.evalRule exec).trans (if_pos full)⟩

/-- Then it enters no body, and leaves the machine as its arguments left it. -/
theorem Applies.eval_of_full (h : Applies p fuel callee args m c vs m')
    (full : maxCalls ≤ m'.calls) :
    eval p (fuel + 1) (.call callee paren args) m = .error (overflow paren) m' ∧
      ∀ s m₁, ¬ Starts p fuel (.eval (.call callee paren args)) m (.exec s) m₁ := by
  refine ⟨(h.evalRule (exec p fuel)).trans (if_pos full), fun s m₁ hs => ?_⟩
  obtain ⟨f, m₂, hf, hv, -⟩ := h.reaches
  cases hs with
  | body hf' hv' hc _ _ =>
    rw [hf] at hf'
    cases hf'
    rw [hv] at hv'
    cases hv'
    exact absurd (of_checkCall hc).2.2.2 (Nat.not_lt.2 full)

/-- The count that a call finds is put back after a result. -/
theorem counted_ok {α : Type} {run : Eval α} {a : α} {m₁ : Machine} (hr : Keeps False run)
    (h : run { m with calls := m.calls + 1 } = .ok a m₁) :
    counted run m = .ok a { m₁ with calls := m.calls } := by
  have inside : m₁.calls = m.calls + 1 := (hr.ok h).calls
  simp [counted, h, inside]

/-- The count that a call finds is put back after an error. -/
theorem counted_error {α : Type} {run : Eval α} {stop : Stop} {m₁ : Machine}
    (hr : Keeps False run) (h : run { m with calls := m.calls + 1 } = .error stop m₁) :
    counted run m = .error stop { m₁ with calls := m.calls } := by
  have inside : m₁.calls = m.calls + 1 := (hr.error h).calls
  simp [counted, h, inside]

/-- Otherwise its callee runs as one more call in progress. The call ends as the callee does, with
the count put back. -/
theorem Applies.eval_of_room (h : Applies p fuel callee args m c vs m')
    (room : m'.calls < maxCalls) :
    (∀ v m₁, apply p.clock (exec p fuel) vs c { m' with calls := m'.calls + 1 } = .ok v m₁ →
      eval p (fuel + 1) (.call callee paren args) m = .ok v { m₁ with calls := m'.calls }) ∧
    (∀ stop m₁, apply p.clock (exec p fuel) vs c { m' with calls := m'.calls + 1 } =
        .error stop m₁ →
      eval p (fuel + 1) (.call callee paren args) m =
        .error stop { m₁ with calls := m'.calls }) := by
  have callee_keeps : Keeps False (apply p.clock (exec p fuel) vs c) :=
    apply_keeps p.clock (exec_keeps p fuel) vs c
  have calls : eval p (fuel + 1) (.call callee paren args) m =
      counted (apply p.clock (exec p fuel) vs c) m' :=
    (h.evalRule (exec p fuel)).trans (if_neg (Nat.not_le.2 room))
  rw [calls]
  exact ⟨fun _ _ => counted_ok callee_keeps, fun _ _ => counted_error callee_keeps⟩

end Applies

/-! ## Entering bodies -/

/-- How many calls a task enters the body of when it starts another one. -/
def opens : Task → Task → Nat
  | .eval _, .exec _ => 1
  | _, _ => 0

/-- No call is entered to evaluate an expression. -/
theorem opens_eval (t : Task) (e : Expr) : opens t (.eval e) = 0 := by cases t <;> rfl

/-- A statement enters no call itself. -/
theorem opens_of_exec (s : Stmt) (t : Task) : opens (.exec s) t = 0 := by cases t <;> rfl

/-- To make the frames of a call leaves the number of calls. -/
theorem Enters.calls {vs : List Value} {c : Callable} {ss : List Stmt} (h : Enters vs c m ss m') :
    m'.calls = m.calls := by
  cases h with
  | function hf =>
    cases hf
    rfl
  | construct _ ho hb hf =>
    cases ho
    cases hb
    cases hf
    rfl

/-- **A body has one call more in progress than the call**, and every other part as many as the
whole. No body is entered past the most calls. -/
theorem Starts.calls (h : Starts p fuel t m t' m') :
    m'.calls = m.calls + opens t t' ∧ (m.calls ≤ maxCalls → m'.calls ≤ maxCalls) := by
  have stay : ∀ {m₁ : Machine}, m₁.calls = m.calls →
      m₁.calls = m.calls + 0 ∧ (m.calls ≤ maxCalls → m₁.calls ≤ maxCalls) :=
    fun same => ⟨same, fun h => same ▸ h⟩
  cases h with
  | right he | second he _ | setValue he | thenBranch he _ | elseBranch he _ | round he _ =>
    exact stay ((eval_keeps p fuel _).ok he).calls
  | argument hf hv =>
    exact stay <| ((each_keeps (fun e => eval_keeps p fuel e) _).ok hv).calls.trans
      ((eval_keeps p fuel _).ok hf).calls
  | again hc _ hb =>
    exact stay <| ((exec_keeps p fuel _).ok hb).calls.trans ((eval_keeps p fuel _).ok hc).calls
  | inner hf hs =>
    have inside := ((inOrder_keeps (exec_keeps p fuel) _).ok hs).calls
    cases hf
    exact stay inside
  | body hf hv hc hb hs =>
    have called := ((eval_keeps p fuel _).ok hf).calls
    have passed := ((each_keeps (fun e => eval_keeps p fuel e) _).ok hv).calls
    obtain ⟨rfl, -, -, room⟩ := of_checkCall hc
    have entered := hb.calls
    have inside := ((inOrder_keeps (exec_keeps p fuel) _).ok hs).calls
    dsimp only at entered
    rw [opens]
    omega
  | _ => exact stay rfl

/-- Running a task on `m` with the given fuel comes to another task on the machine `m'` under calls
that it has entered the bodies of, the outermost first. An expression starts a statement in the body
of what it calls, and nowhere else. -/
inductive Under (p : Setting) : Nat → Task → Machine → List Callable → Task → Machine → Prop where
  | self {fuel : Nat} {t : Task} {m : Machine} : Under p (fuel + 1) t m [] t m
  | expression {fuel : Nat} {t t' : Task} {e : Expr} {m m₁ m' : Machine} {calls : List Callable}
      (hs : Starts p fuel t m (.eval e) m₁) (hu : Under p fuel (.eval e) m₁ calls t' m') :
    Under p (fuel + 1) t m calls t' m'
  | statement {fuel : Nat} {t' : Task} {s s' : Stmt} {m m₁ m' : Machine} {calls : List Callable}
      (hs : Starts p fuel (.exec s) m (.exec s') m₁)
      (hu : Under p fuel (.exec s') m₁ calls t' m') :
    Under p (fuel + 1) (.exec s) m calls t' m'
  | body {fuel : Nat} {t' : Task} {callee : Expr} {paren : Token} {args : List Expr} {c : Callable}
      {vs : List Value} {s : Stmt} {m m₁ m₂ m' : Machine} {calls : List Callable}
      (ha : Applies p fuel callee args m c vs m₁)
      (hs : Starts p fuel (.eval (.call callee paren args)) m (.exec s) m₂)
      (hu : Under p fuel (.exec s) m₂ calls t' m') :
    Under p (fuel + 1) (.eval (.call callee paren args)) m (c :: calls) t' m'

variable {inProgress : List Callable}

/-- A task that is come to under calls is come to. -/
theorem Under.visits (h : Under p fuel t m inProgress t' m') : Visits p fuel t m t' m' := by
  induction h with
  | self => exact .self
  | expression hs _ ih | statement hs _ ih | body _ hs _ ih => exact .part hs ih

/-- What is entered is what the call applies. -/
theorem Starts.applies {e : Expr} {s : Stmt} (h : Starts p fuel (.eval e) m (.exec s) m') :
    ∃ callee paren args c vs m₁, e = .call callee paren args ∧
      Applies p fuel callee args m c vs m₁ := by
  cases h with
  | body hf hv hc _ _ =>
    obtain ⟨rfl, callable, arity, -⟩ := of_checkCall hc
    exact ⟨_, _, _, _, _, _, rfl, ⟨_, _, hf, hv, callable⟩, arity⟩

/-- Whatever is come to, it is come to under some calls. -/
theorem Visits.under (h : Visits p fuel t m t' m') : ∃ calls, Under p fuel t m calls t' m' := by
  induction h with
  | self => exact ⟨[], .self⟩
  | @part fuel t t₁ t' m m₁ m' hs _ ih =>
    obtain ⟨calls, hu⟩ := ih
    cases t₁ with
    | eval e => exact ⟨calls, .expression hs hu⟩
    | exec s =>
      cases t with
      | exec s' => exact ⟨calls, .statement hs hu⟩
      | eval e =>
        obtain ⟨_, _, _, c, _, _, rfl, ha⟩ := hs.applies
        exact ⟨c :: calls, .body ha hs hu⟩

/-- **The machine counts the calls in progress**, and there are never more than the most. -/
theorem Under.calls (h : Under p fuel t m inProgress t' m') :
    m'.calls = m.calls + inProgress.length ∧ (m.calls ≤ maxCalls → m'.calls ≤ maxCalls) := by
  induction h with
  | self => exact ⟨rfl, id⟩
  | expression hs _ ih =>
    obtain ⟨count, most⟩ := hs.calls
    rw [opens_eval] at count
    exact ⟨ih.1.trans (congrArg (· + _) count), fun h => ih.2 (most h)⟩
  | statement hs _ ih =>
    obtain ⟨count, most⟩ := hs.calls
    rw [opens_of_exec] at count
    exact ⟨ih.1.trans (congrArg (· + _) count), fun h => ih.2 (most h)⟩
  | body _ hs _ ih =>
    obtain ⟨count, most⟩ := hs.calls
    refine ⟨?_, fun h => ih.2 (most h)⟩
    rw [ih.1, count, opens, List.length_cons]
    omega

/-! ## What is come to is run -/

section Runs

variable {α β : Type} {stop : Stop} {c : Eval α} {f : α → Eval β} {a : α} {m₁ : Machine}

/-- A computation that fails has no use for what follows. -/
theorem Fails.bind (h : Fails stop c m) : Fails stop (c >>= f) m := by
  obtain ⟨m', h⟩ := h
  exact ⟨m', bind_of_error h⟩

/-- What follows a computation that returned fails for both. -/
theorem Fails.next (hc : c m = .ok a m₁) (h : Fails stop (f a) m₁) : Fails stop (c >>= f) m := by
  obtain ⟨m', h⟩ := h
  exact ⟨m', (bind_of_ok hc).trans h⟩

/-- A computation that fails in a frame does so from any. -/
theorem Fails.inFrame {r : FrameRef} (h : Fails stop c { m with frame := r }) :
    Fails stop (inFrame r c) m := by
  obtain ⟨m', h⟩ := h
  exact ⟨{ m' with frame := m.frame }, by simp [Eval.inFrame, h]⟩

/-- A call fails if its callee does with one call more in progress. -/
theorem Fails.counted (h : Fails stop c { m with calls := m.calls + 1 }) :
    Fails stop (counted c) m := by
  obtain ⟨m', h⟩ := h
  exact ⟨{ m' with calls := m'.calls - 1 }, by simp [Eval.counted, h]⟩

/-- A list fails at the item that does, behind those that return. -/
theorem Fails.each {f : α → Eval β} {post : List α} : ∀ {pre : List α} {bs : List β} {m : Machine},
    each f pre m = .ok bs m₁ → Fails stop (f a) m₁ → Fails stop (each f (pre ++ a :: post)) m
  | [], _, _, hpre, h => by
    cases hpre
    exact h.bind
  | _ :: _, _, _, hpre, h => by
    obtain ⟨b, m₂, hb, hpre⟩ := ok_of_bind hpre
    obtain ⟨bs, m₃, hbs, hpre⟩ := ok_of_bind hpre
    cases hpre
    exact .next hb (Fails.each hbs h).bind

/-- Statements in order fail at the one that does, behind those that end normally. -/
theorem Fails.inOrder {exec : Stmt → Eval Flow} {s : Stmt} {post : List Stmt} :
    ∀ {pre : List Stmt} {m : Machine}, inOrder exec pre m = .ok .normal m₁ →
      Fails stop (exec s) m₁ → Fails stop (inOrder exec (pre ++ s :: post)) m
  | [], _, hpre, h => by
    cases hpre
    exact h.bind
  | _ :: _, _, hpre, h => by
    obtain ⟨flow, m₂, hs, hpre⟩ := ok_of_bind hpre
    cases flow with
    | normal => exact .next hs (Fails.inOrder hpre h)
    | returned v => cases hpre

/-- A call runs the statements that calling its callee comes to. -/
theorem Enters.fails (clock : Nat → Float) {exec : Stmt → Eval Flow} {vs : List Value}
    {c : Callable} {body : List Stmt} (hb : Enters vs c m body m₁)
    (h : Fails stop (Eval.inOrder exec body) m₁) : Fails stop (apply clock exec vs c) m := by
  cases hb with
  | function hf => exact .next hf h.inFrame.bind
  | construct hi ho hb hf =>
    refine .next ho ?_
    rw [hi]
    exact .next hb (.bind (.next hf h.inFrame.bind))

/-- **What a task starts is run**, on the machine it is started on: a part that ends in a stop ends
the task in it. A body is run on a machine that counts the call. -/
theorem Starts.fails (h : Starts p fuel t m t' m') (hf : TaskFails p fuel stop t' m') :
    TaskFails p (fuel + 1) stop t m := by
  cases h with
  | grouping => exact hf
  | operand | left | first | assigned | callee | getObject | setObject | expression | print
  | condition | guard => exact Fails.bind hf
  | initializer | returned => exact Fails.bind hf
  | right hl => exact Fails.next hl (Fails.bind hf)
  | second hl hd =>
    refine Fails.next hl ?_
    rw [hd]
    exact hf
  | argument hc hv => exact Fails.next hc (Fails.bind (Fails.each hv hf))
  | body hc hv hk hb hs =>
    have called := Fails.counted (hb.fails p.clock (Fails.inOrder hs hf))
    exact Fails.next hc (Fails.next hv (Fails.next hk called))
  | setValue ho => exact Fails.next ho (Fails.bind hf)
  | inner hr hs => exact Fails.next hr (Fails.inFrame (Fails.inOrder hs hf))
  | thenBranch hc hv =>
    refine Fails.next hc ?_
    rw [hv]
    exact hf
  | elseBranch hc hv =>
    refine Fails.next hc ?_
    rw [hv]
    exact hf
  | round hc hv =>
    refine Fails.next hc ?_
    rw [hv]
    exact Fails.bind hf
  | again hc hv hb =>
    refine Fails.next hc ?_
    rw [hv]
    exact Fails.next hb hf

/-- **What is come to under calls is run there**: if it ends in a stop with the fuel it has left,
the whole ends in it. So the calls that are counted on the way are counted by the evaluator. -/
theorem Under.fails (h : Under p fuel t m inProgress t' m') :
    ∃ k, ∀ stop, TaskFails p k stop t' m' → TaskFails p fuel stop t m := by
  induction h with
  | self => exact ⟨_, fun _ hf => hf⟩
  | expression hs _ ih | statement hs _ ih | body _ hs _ ih =>
    obtain ⟨k, ih⟩ := ih
    exact ⟨k, fun stop hf => hs.fails (ih stop hf)⟩

end Runs

/-! ## Arguments and parameters -/

variable {callee : Expr} {paren : Token} {args : List Expr} {g : Function} {vs : List Value}

/-- **A function is invoked on as many arguments as it has parameters**, an initializer that the
call of its class comes to as well. -/
theorem Calls.arity (h : Calls p fuel callee paren args m g vs m') :
    vs.length = g.decl.params.length := by
  obtain ⟨_, _, _, c, _, -, -, hc, hi⟩ := h.reaches
  obtain ⟨-, -, arity, -⟩ := of_checkCall hc
  cases hi with
  | function => exact arity
  | @construct ref cls f bound o _ _ _ hinit ho hb =>
    cases hb
    rw [arity, Callable.arity, hinit]
    rfl

/-- Each statement that an expression starts is in the body of a function that it invokes. -/
theorem Starts.invokes {e : Expr} {s : Stmt} (h : Starts p fuel (.eval e) m (.exec s) m') :
    ∃ callee paren args g vs m₁, e = .call callee paren args ∧
      Calls p fuel callee paren args m g vs m₁ ∧ s ∈ g.decl.body := by
  cases h with
  | @body _ _ _ _ _ _ _ _ _ _ _ _ pre s post hf hv hc hb _ =>
    generalize hbody : pre ++ s :: post = body at hb
    have inside : s ∈ body := hbody ▸ List.mem_append_right pre (List.mem_cons_self ..)
    cases hb with
    | function hr => exact ⟨_, _, _, _, _, _, rfl, ⟨_, _, _, _, _, hf, hv, hc, .function⟩, inside⟩
    | construct hi ho hb _ =>
      exact ⟨_, _, _, _, _, _, rfl, ⟨_, _, _, _, _, hf, hv, hc, .construct hi ho hb⟩, inside⟩

end Eval
end Lox
