/-
# Printing to a sink that gets full

A sink that takes so many bytes and no more makes no difference to a computation whose output fits.
Otherwise the computation stops at the first write that does not fit, and as many bytes of its
output are printed as the sink takes (`Eval.Truncates`). No operation but `print` looks at the sink
(`Eval.Silent`), so this passes from the operations to everything that is made of them
(`Eval.eval_exec_truncates`).
-/

import Lox.Proofs.Eval.Keeps

namespace Lox

namespace Sink

/-- A sink that takes so many bytes and no more. -/
def limited (room : Nat) : Sink := ⟨.empty, some room, false⟩

end Sink

namespace Machine

variable {n : Nat} {m m' m'' : Machine}

/-- The machine with a sink that takes `n` bytes in all, those that were printed so far among
them. -/
def capped (n : Nat) (m : Machine) : Machine :=
  { m with sink := { m.sink with room := some (n - m.sink.written.size) } }

/-- The sink takes everything, and what was printed so far is not more than `n` bytes. -/
structure Fits (n : Nat) (m : Machine) : Prop where
  unlimited : m.sink.room = none
  size : m.sink.written.size ≤ n

/-- The sink of `m'` takes everything, and `m'` comes from `m` by printing some bytes. -/
structure Prints (m m' : Machine) : Prop where
  unlimited : m'.sink.room = none
  bytes : ∃ bytes, m'.sink.written = m.sink.written ++ bytes

/-- A machine with the same sink has printed nothing more. -/
theorem Prints.of_sink (h : m.sink.room = none) (hs : m'.sink = m.sink) : m.Prints m' :=
  ⟨hs ▸ h, .empty, by rw [hs, ByteArray.append_empty]⟩

/-- What is printed by one computation and then by another is printed by both. -/
theorem Prints.trans (h : m.Prints m') (h' : m'.Prints m'') : m.Prints m'' := by
  obtain ⟨bytes, hb⟩ := h.bytes
  obtain ⟨bytes', hb'⟩ := h'.bytes
  exact ⟨h'.unlimited, bytes ++ bytes', by rw [hb', hb, ByteArray.append_assoc]⟩

/-- Bytes that are printed later do not change the first ones. -/
theorem Prints.extract (h : m.Prints m') (hn : n < m.sink.written.size) :
    n < m'.sink.written.size ∧ m'.sink.written.extract 0 n = m.sink.written.extract 0 n := by
  obtain ⟨bytes, hb⟩ := h.bytes
  rw [hb, ByteArray.size_append, ByteArray.extract_append, Nat.zero_sub,
    Nat.sub_eq_zero_of_le (Nat.le_of_lt hn), ByteArray.extract_same, ByteArray.append_empty]
  exact ⟨by omega, rfl⟩

end Machine

namespace Eval

section Parts

variable {α β : Type} {n : Nat} {c : Eval α} {f : α → Eval β} {m : Machine}

/-- The machine that is left at an end. -/
def left : EStateM.Result Stop Machine α → Machine
  | .ok _ m => m
  | .error _ m => m

/-- How a computation ends on a machine with a sink for `n` bytes, compared to how it ends with one
that takes everything: in the same way, or at the first write that does not fit. -/
inductive Cut (n : Nat) :
    EStateM.Result Stop Machine α → EStateM.Result Stop Machine α → Prop
  | ok {a : α} {m : Machine} (hm : m.Fits n) : Cut n (.ok a m) (.ok a (m.capped n))
  | error {e : Stop} {m : Machine} (hm : m.Fits n) : Cut n (.error e m) (.error e (m.capped n))
  | full {r : EStateM.Result Stop Machine α} {m' : Machine}
      (hn : n < (left r).sink.written.size)
      (hw : m'.sink.written = (left r).sink.written.extract 0 n) :
    Cut n r (.error (.fault (.output .write)) m')

/-- With a sink for `n` bytes, the computation does the same up to the first write that does not
fit, and stops there. -/
structure Truncates (n : Nat) (c : Eval α) : Prop where
  prints : ∀ m : Machine, m.sink.room = none → m.Prints (left (c m))
  cut : ∀ m : Machine, m.Fits n → Cut n (c m) (c (m.capped n))

/-- What has nothing to do with the sink leaves it as it is. -/
theorem Silent.sink (hc : Silent c) (m : Machine) : (left (c m)).sink = m.sink := by
  have h := hc m m.sink
  cases hr : c m with
  | ok a m' =>
    rw [show { m with sink := m.sink } = m from rfl, hr] at h
    exact congrArg (fun r => (left r).sink) h
  | error e m' =>
    rw [show { m with sink := m.sink } = m from rfl, hr] at h
    exact congrArg (fun r => (left r).sink) h

/-- What has nothing to do with the sink does the same with one for `n` bytes. -/
theorem Silent.truncates (hc : Silent c) : Truncates n c := by
  refine ⟨fun m hm => .of_sink hm (hc.sink m), fun m hm => ?_⟩
  have hs := hc.sink m
  have hcap : c (m.capped n) = redirected (m.capped n).sink (c m) := hc m _
  rw [hcap, Machine.capped]
  cases hr : c m with
  | ok a m' =>
    rw [hr] at hs
    change m'.sink = m.sink at hs
    rw [← hs]
    exact .ok ⟨hs ▸ hm.unlimited, hs ▸ hm.size⟩
  | error e m' =>
    rw [hr] at hs
    change m'.sink = m.sink at hs
    rw [← hs]
    exact .error ⟨hs ▸ hm.unlimited, hs ▸ hm.size⟩

/-- Computations one behind the other stop at the first write that does not fit, if both parts do.
-/
theorem Truncates.bind (hc : Truncates n c) (hf : ∀ a, Truncates n (f a)) :
    Truncates n (c >>= f) := by
  refine ⟨fun m hm => ?_, fun m hm => ?_⟩
  · have first := hc.prints m hm
    change m.Prints (left (EStateM.bind c f m))
    unfold EStateM.bind
    cases hr : c m with
    | ok a m₁ =>
      rw [hr] at first
      exact first.trans ((hf a).prints m₁ first.unlimited)
    | error e m₁ =>
      rw [hr] at first
      exact first
  · have prints := hc.prints m hm.unlimited
    have cut := hc.cut m hm
    change Cut n (EStateM.bind c f m) (EStateM.bind c f (m.capped n))
    unfold EStateM.bind
    revert prints cut
    generalize c m = r, c (m.capped n) = r'
    intro prints cut
    cases cut with
    | ok hm₁ => exact (hf _).cut _ hm₁
    | error hm₁ => exact .error hm₁
    | full hn hw =>
      -- What comes after the full sink prints behind the bytes that count.
      cases r with
      | error e m₁ => exact .full hn hw
      | ok a m₁ =>
        obtain ⟨hn', he⟩ := ((hf a).prints m₁ prints.unlimited).extract hn
        exact .full hn' (hw.trans he.symm)

/-- So does a computation in a given frame. -/
theorem inFrame_truncates (hc : Truncates n c) (r : FrameRef) : Truncates n (inFrame r c) := by
  refine ⟨fun m hm => ?_, fun m hm => ?_⟩
  · have prints := hc.prints { m with frame := r } hm
    unfold inFrame
    revert prints
    generalize c { m with frame := r } = x
    intro prints
    cases x <;> exact ⟨prints.unlimited, prints.bytes⟩
  · have cut := hc.cut { m with frame := r } ⟨hm.unlimited, hm.size⟩
    unfold inFrame
    revert cut
    change Cut n _ (c { m.capped n with frame := r }) → _
    generalize c { m with frame := r } = x, c { m.capped n with frame := r } = y
    intro cut
    cases cut with
    | ok hm₁ => exact .ok ⟨hm₁.unlimited, hm₁.size⟩
    | error hm₁ => exact .error ⟨hm₁.unlimited, hm₁.size⟩
    | full hn hw => cases x <;> exact .full hn hw

/-- So does a call, which is taken off the count all the same. -/
theorem counted_truncates (hc : Truncates n c) : Truncates n (counted c) := by
  refine ⟨fun m hm => ?_, fun m hm => ?_⟩
  · have prints := hc.prints { m with calls := m.calls + 1 } hm
    unfold counted
    revert prints
    generalize c { m with calls := m.calls + 1 } = x
    intro prints
    cases x <;> exact ⟨prints.unlimited, prints.bytes⟩
  · have cut := hc.cut { m with calls := m.calls + 1 } ⟨hm.unlimited, hm.size⟩
    unfold counted
    revert cut
    change Cut n _ (c { m.capped n with calls := (m.capped n).calls + 1 }) → _
    generalize c { m with calls := m.calls + 1 } = x,
      c { m.capped n with calls := (m.capped n).calls + 1 } = y
    intro cut
    cases cut with
    | ok hm₁ => exact .ok ⟨hm₁.unlimited, hm₁.size⟩
    | error hm₁ => exact .error ⟨hm₁.unlimited, hm₁.size⟩
    | full hn hw => cases x <;> exact .full hn hw

end Parts

/-! ## Operations -/

section Operations

variable {α : Type} {n : Nat}

/-- To return a value has nothing to do with the sink. -/
theorem pure_silent (a : α) : Silent (pure a : Eval α) := fun _ _ => rfl

/-- Nor has a stop. -/
theorem throw_silent (e : Stop) : Silent (throw e : Eval α) := fun _ _ => rfl

/-- Nor has a failure. -/
theorem fail_silent (cause : Trouble) (token : Token) : Silent (fail cause token : Eval α) :=
  throw_silent _

/-- What a sink for `n` bytes takes of what is written to it behind the first bytes. -/
theorem write_limited {s : Sink} (bytes : ByteArray) (hs : s.written.size ≤ n) :
    Sink.write { s with room := some (n - s.written.size) } bytes =
      if (s.written ++ bytes).size ≤ n then
        ({ s with
            written := s.written ++ bytes
            room := some (n - (s.written ++ bytes).size) }, true)
      else ({ s with written := (s.written ++ bytes).extract 0 n, room := some 0 }, false) := by
  have hsize : (s.written ++ bytes).size = s.written.size + bytes.size := ByteArray.size_append
  unfold Sink.write
  dsimp only
  rw [hsize]
  by_cases h : bytes.size ≤ n - s.written.size
  · rw [if_pos h, if_pos (by omega), Nat.sub_add_eq]
  · have whole : s.written.extract 0 n = s.written := by
      have := ByteArray.extract_zero_max_size (a := s.written) (i := n)
      rwa [Nat.max_eq_left hs] at this
    rw [if_neg h, if_neg (by omega), ByteArray.extract_append, whole, Nat.zero_sub]

/-- **Printing to a sink that gets full** takes the bytes that fit, and stops. -/
theorem print_truncates (v : Value) : Truncates n (print v) := by
  have unlimited : ∀ m : Machine, m.sink.room = none → print v m =
      .ok () { m with sink := { m.sink with
        written := m.sink.written ++ (m.heap.text v ++ "\n").toUTF8 } } := by
    intro m hm
    simp [print, Sink.write, hm]
  refine ⟨fun m hm => ?_, fun m hm => ?_⟩
  · rw [unlimited m hm]
    exact ⟨hm, _, rfl⟩
  · rw [unlimited m hm.unlimited]
    unfold print
    dsimp only [Machine.capped]
    rw [write_limited _ hm.size]
    by_cases h : (m.sink.written ++ (m.heap.text v ++ "\n").toUTF8).size ≤ n
    · rw [if_pos h]
      exact .ok ⟨hm.unlimited, h⟩
    · rw [if_neg h]
      exact .full (Nat.lt_of_not_le h) rfl

end Operations

/-! ## Rules -/

section Rules

variable {α β : Type} {n : Nat} {eval : Expr → Eval Value} {exec : Stmt → Eval Flow}

theorem pure_truncates (a : α) : Truncates n (pure a : Eval α) := (pure_silent a).truncates

theorem fail_truncates (cause : Trouble) (token : Token) :
    Truncates n (fail cause token : Eval α) := (fail_silent cause token).truncates

/-- A list of computations stops at the first write that does not fit, if each does. -/
theorem each_truncates {f : α → Eval β} (hf : ∀ a, Truncates n (f a)) (as : List α) :
    Truncates n (each f as) := by
  induction as with
  | nil => exact pure_truncates _
  | cons a as ih => exact (hf a).bind fun _ => ih.bind fun _ => pure_truncates _

/-- So do statements in order. -/
theorem inOrder_truncates (hx : ∀ s, Truncates n (exec s)) (ss : List Stmt) :
    Truncates n (inOrder exec ss) := by
  induction ss with
  | nil => exact pure_truncates _
  | cons s ss ih =>
    refine (hx s).bind fun flow => ?_
    cases flow with
    | normal => exact ih
    | returned v => exact pure_truncates _

/-- So does a call of a function. -/
theorem invoke_truncates (hx : ∀ s, Truncates n (exec s)) (f : Function) (args : List Value) :
    Truncates n (invoke exec f args) :=
  (callFrame_operates f args).silent.truncates.bind fun frame =>
    (inFrame_truncates (inOrder_truncates hx f.decl.body) frame).bind fun flow =>
      (callResult_asks f flow).silent.truncates

/-- So does a call of a class. -/
theorem construct_truncates (hx : ∀ s, Truncates n (exec s)) (ref : ClassRef) (c : Class)
    (args : List Value) : Truncates n (construct exec ref c args) := by
  refine (onHeap_operates (Heap.newObject_grows ..)).silent.truncates.bind fun o => ?_
  cases c.initializer? with
  | none => exact pure_truncates _
  | some f =>
    refine (onHeap_operates (Heap.bind_grows ..)).silent.truncates.bind fun bound => ?_
    exact (invoke_truncates hx bound args).bind fun _ => pure_truncates _

/-- So does any call. -/
theorem apply_truncates (clock : Nat → Float) (hx : ∀ s, Truncates n (exec s))
    (args : List Value) : ∀ c, Truncates n (apply clock exec args c)
  | .native .clock => Silent.truncates fun _ _ => rfl
  | .function f => invoke_truncates hx f args
  | .construct ref c => construct_truncates hx ref c args

/-- So does an expression that may be missing. -/
theorem orNil_truncates (he : ∀ e, Truncates n (eval e)) : ∀ e, Truncates n (orNil eval e)
  | none => pure_truncates _
  | some e => he e

/-- One step of evaluation stops there, if what it refers to does. -/
theorem evalRule_truncates (p : Setting) (he : ∀ e, Truncates n (eval e))
    (hx : ∀ s, Truncates n (exec s)) : ∀ e, Truncates n (evalRule p eval exec e)
  | .literal .nil => pure_truncates _
  | .literal (.bool _) => pure_truncates _
  | .literal (.number _) => pure_truncates _
  | .literal (.string _) => pure_truncates _
  | .grouping inner => he inner
  | .unary op operand => (he operand).bind fun v => (applyUnary_asks op v).silent.truncates
  | .binary left op right =>
    (he left).bind fun l => (he right).bind fun r => (applyBinary_asks op l r).silent.truncates
  | .logical left op right => (he left).bind fun l => by
    cases h : decides op l
    · simpa [h] using he right
    · simpa [h] using pure_truncates l
  | .ident _ _ => (readName_asks ..).silent.truncates
  | .receiver _ _ => (readName_asks ..).silent.truncates
  | .assign _ _ value =>
    (he value).bind fun _ => (assignName_operates ..).silent.truncates.bind fun _ =>
      pure_truncates _
  | .call callee _ args =>
    (he callee).bind fun _ => (each_truncates he args).bind fun _ =>
      (checkCall_asks ..).silent.truncates.bind fun c =>
        counted_truncates (apply_truncates p.clock hx _ c)
  | .get object name => (he object).bind fun v => by
    cases v with
    | object o => exact (getProperty_operates o name).silent.truncates
    | _ => exact fail_truncates _ _
  | .set object name value => (he object).bind fun v => by
    cases v with
    | object o =>
      exact (he value).bind fun v => (setProperty_operates o name v).silent.truncates.bind fun _ =>
        pure_truncates _
    | _ => exact fail_truncates _ _

/-- One step of execution stops there, if what it refers to does. -/
theorem execRule_truncates (he : ∀ e, Truncates n (eval e)) (hx : ∀ s, Truncates n (exec s)) :
    ∀ s, Truncates n (execRule eval exec s)
  | .expression e => (he e).bind fun _ => pure_truncates _
  | .print e => (he e).bind fun v => (print_truncates v).bind fun _ => pure_truncates _
  | .var name init => by
    have defined : ∀ v, Truncates n (define name.lexeme v) := fun v =>
      Silent.truncates fun _ _ => rfl
    exact (orNil_truncates he init).bind fun v => (defined v).bind fun _ => pure_truncates _
  | .block body => by
    have opened : Truncates n innerFrame := Silent.truncates fun _ _ => rfl
    exact opened.bind fun frame => inFrame_truncates (inOrder_truncates hx body) frame
  | .branch cond thenB elseB => (he cond).bind fun v => by
    cases h : v.isTruthy
    · cases elseB with
      | none => simpa [h] using pure_truncates _
      | some s => simpa [h] using hx s
    · simpa [h] using hx thenB
  | .loop cond body => (he cond).bind fun v => by
    cases h : v.isTruthy
    · simpa [h] using pure_truncates _
    · simp only [if_true]
      refine (hx body).bind fun flow => ?_
      cases flow with
      | normal => exact hx _
      | returned v => exact pure_truncates _
  | .function decl => by
    have declared : Truncates n (declareFunction decl) := Silent.truncates fun _ _ => rfl
    exact declared.bind fun _ => pure_truncates _
  | .ret _ value => (orNil_truncates he value).bind fun _ => pure_truncates _
  | .classDecl name decls => by
    have declared : Truncates n (declareClass name decls) := Silent.truncates fun _ _ => rfl
    exact declared.bind fun _ => pure_truncates _

end Rules

/-- **Evaluation on a sink that gets full** is evaluation, cut off at the first write that does not
fit. -/
theorem eval_exec_truncates (n : Nat) (p : Setting) : ∀ fuel,
    (∀ e, Truncates n (eval p fuel e)) ∧ ∀ s, Truncates n (exec p fuel s)
  | 0 => ⟨fun _ => (throw_silent _).truncates, fun _ => (throw_silent _).truncates⟩
  | fuel + 1 => by
    obtain ⟨he, hx⟩ := eval_exec_truncates n p fuel
    exact ⟨evalRule_truncates p he hx, execRule_truncates he hx⟩

/-- A program stops at the first write that does not fit. -/
theorem execProgram_truncates (n : Nat) (p : Setting) (fuel : Nat) (ss : List Stmt) :
    Truncates n (execProgram p fuel ss) := by
  induction ss with
  | nil => exact pure_truncates _
  | cons s ss ih => exact ((eval_exec_truncates n p fuel).2 s).bind fun _ => ih

/-- So it does if its output is handed on behind it. -/
theorem interpret_truncates (n : Nat) (p : Setting) (fuel : Nat) (ss : List Stmt) :
    Truncates n (interpret p fuel ss) := by
  refine (execProgram_truncates n p fuel ss).bind fun _ => ?_
  have flushed : ∀ m : Machine, flush m =
      if m.sink.refusesFlush then .error (.fault (.output .flush)) m else .ok () m := fun _ => rfl
  refine ⟨fun m hm => .of_sink hm ?_, fun m hm => ?_⟩
  · rw [flushed]
    split <;> rfl
  · have same : (m.capped n).sink.refusesFlush = m.sink.refusesFlush := rfl
    rw [flushed, flushed, same]
    split
    · exact .error hm
    · exact .ok hm

end Eval

end Lox
