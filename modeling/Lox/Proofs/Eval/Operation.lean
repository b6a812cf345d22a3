/-
# Operations

The steps of evaluation that run nothing further: reading and assigning names, applying operators,
reading and setting properties, checking a call, and changes of the heap. An operation has a result
or comes to trouble at a token; it changes nothing but the heap, which grows, and has nothing to do
with the sink (`Eval.Operates`). What trouble there can be, and in what way the heap may change, is
said of each operation once. Whatever else is asked of operations follows from that.
-/

import Lox.Eval
import Lox.Proofs.Heap.Growth
import Lox.Proofs.Tree.Formed

namespace Lox
namespace Eval

section Operates

variable {α : Type} {causes causes' : Trouble → Prop} {changes : Heap → Heap → Prop}
  {c : Eval α} {m : Machine}

/-- The same end on a machine with another sink. -/
def redirected (sink : Sink) : EStateM.Result Stop Machine α → EStateM.Result Stop Machine α
  | .ok a m => .ok a { m with sink := sink }
  | .error e m => .error e { m with sink := sink }

/-- The computation has nothing to do with the sink. -/
def Silent (c : Eval α) : Prop :=
  ∀ (m : Machine) (sink : Sink), c { m with sink := sink } = redirected sink (c m)

/-- How an operation may end on a machine: with a result, or in trouble of one of the causes. The
heap has grown at most, and changed as `changes` says; all else is as before. -/
inductive MayEnd (causes : Trouble → Prop) (changes : Heap → Heap → Prop) (m : Machine) :
    EStateM.Result Stop Machine α → Prop
  | ok {a : α} {h : Heap} (grows : ∀ gains, m.heap.Grows gains h) (change : changes m.heap h) :
    MayEnd causes changes m (.ok a { m with heap := h })
  | trouble {cause : Trouble} {token : Token} {h : Heap} (allowed : causes cause)
      (grows : ∀ gains, m.heap.Grows gains h) (change : changes m.heap h) :
    MayEnd causes changes m (.error (.fault (.trouble cause token)) { m with heap := h })

variable (causes changes c) in
/-- The computation is an operation, with trouble of the causes at most. -/
structure Operates : Prop where
  ends (m : Machine) : MayEnd causes changes m (c m)
  silent : Silent c

variable (causes c) in
/-- The operation leaves the machine as it is. -/
abbrev Asks : Prop := Operates causes Eq c

/-- A result on the same machine. -/
theorem MayEnd.same (a : α) : MayEnd causes Eq m (.ok a m) := .ok (fun _ => .refl _) rfl

/-- Trouble on the same machine. -/
theorem MayEnd.failed {cause : Trouble} (h : causes cause) (token : Token) :
    MayEnd causes Eq m (fail cause token m : EStateM.Result Stop Machine α) :=
  .trouble h (fun _ => .refl _) rfl

/-- There may be trouble of more causes. -/
theorem Operates.mono (hc : Operates causes changes c)
    (h : ∀ cause, causes cause → causes' cause) : Operates causes' changes c where
  ends m := by
    have ends := hc.ends m
    generalize c m = r at ends ⊢
    cases ends with
    | ok grows change => exact .ok grows change
    | trouble allowed grows change => exact .trouble (h _ allowed) grows change
  silent := hc.silent

/-- To return a value asks for nothing. -/
theorem pure_asks (a : α) : Asks causes (pure a : Eval α) := ⟨fun _ => .same a, fun _ _ => rfl⟩

/-- To fail asks for nothing. -/
theorem fail_asks {cause : Trouble} (h : causes cause) (token : Token) :
    Asks causes (fail cause token : Eval α) := ⟨fun _ => .failed h token, fun _ _ => rfl⟩

/-- A change of the heap that makes it grow is an operation without trouble. -/
theorem onHeap_operates {f : Heap → α × Heap}
    (h : ∀ {gains heap}, Heap.Grows gains heap (f heap).2) :
    Operates (fun _ => False) (fun _ _ => True) (onHeap f) :=
  ⟨fun _ => .ok (fun _ => h) trivial, fun _ _ => rfl⟩

end Operates

/-! ## Names -/

/-- Reading a name asks for its value; there may be none. -/
theorem readName_asks (use : NameUse) (place : Place) (name : Token) :
    Asks (· = .undefined use place name.lexeme) (readName use place name) := by
  refine ⟨fun m => ?_, fun m sink => ?_⟩
  · unfold readName
    cases valueAt? m place name.lexeme with
    | some v => exact .same v
    | none =>
      refine .failed ?_ name
      rfl
  · have same : valueAt? { m with sink := sink } place name.lexeme =
        valueAt? m place name.lexeme := by
      cases place <;> rfl
    unfold readName
    rw [same]
    cases valueAt? m place name.lexeme <;> rfl

/-- A name that is read is bound at its place. -/
theorem of_readName {use : NameUse} {place : Place} {name : Token} {v : Value} {m m' : Machine}
    (h : readName use place name m = .ok v m') :
    m' = m ∧ valueAt? m place name.lexeme = some v := by
  unfold readName at h
  cases hv : valueAt? m place name.lexeme with
  | none =>
    rw [hv] at h
    cases h
  | some v' =>
    rw [hv] at h
    cases h
    exact ⟨rfl, rfl⟩

/-- Assigning at a place gives no frame a name. -/
theorem assignedAt_grows (h : Heap) (r : FrameRef) (place : Place) (name : String) (v : Value)
    {gains : FrameRef → Prop} : h.Grows gains (assignedAt h r place name v).2 := by
  cases place with
  | global => exact Heap.assignLocal_grows ..
  | outward d => exact Heap.assignAt_grows ..

/-- The functions and the classes of the heaps are the same. -/
def SameCode (h h' : Heap) : Prop := h'.functions = h.functions ∧ h'.classes = h.classes

/-- Assigning in a frame makes no function and no class. -/
theorem assignLocal_code (h : Heap) (r : FrameRef) (name : String) (v : Value) :
    SameCode h (h.assignLocal r name v).2 := by
  unfold Heap.assignLocal
  split <;> exact ⟨rfl, rfl⟩

/-- Neither does assigning at a place. -/
theorem assignedAt_code (h : Heap) (r : FrameRef) (place : Place) (name : String) (v : Value) :
    SameCode h (assignedAt h r place name v).2 := by
  cases place with
  | global => exact assignLocal_code ..
  | outward d =>
    simp only [assignedAt, Heap.assignAt]
    split
    · exact assignLocal_code ..
    · exact ⟨rfl, rfl⟩

/-- Assigning a name changes what frames bind; the name may be bound nowhere. -/
theorem assignName_operates (place : Place) (name : Token) (v : Value) :
    Operates (· = .undefined .write place name.lexeme) SameCode (assignName place name v) := by
  refine ⟨fun m => ?_, fun m sink => ?_⟩
  · have grows : ∀ gains, m.heap.Grows gains
        (assignedAt m.heap m.frame place name.lexeme v).2 := fun _ => assignedAt_grows ..
    have code := assignedAt_code m.heap m.frame place name.lexeme v
    unfold assignName
    dsimp only
    cases (assignedAt m.heap m.frame place name.lexeme v).1 with
    | true => exact .ok grows code
    | false => exact .trouble rfl grows code
  · unfold assignName
    dsimp only
    cases (assignedAt m.heap m.frame place name.lexeme v).1 <;> rfl

/-! ## Operators -/

/-- A sign asks for nothing: its operand may be no number, or it is no sign. -/
theorem applyUnary_asks (op : Token) (v : Value) :
    Asks (fun cause => cause = .operandNotNumber ∨
      cause = .unknownUnary ∧ op.kind ∉ [Kind.punct .bang, Kind.punct .minus])
      (applyUnary op v) := by
  unfold applyUnary
  split
  · exact pure_asks _
  · exact pure_asks _
  · exact fail_asks (.inl rfl) op
  · exact fail_asks (.inr ⟨rfl, by simp_all⟩) op

/-- An operation on numbers knows the operators but those that take other values as well. -/
theorem applyNumeric_asks (op : Token) (x y : Float) :
    Asks (fun cause => cause = .unknownBinary ∧ (op.kind ∈ binaryOps →
      op.kind ∈ [Kind.punct .plus, Kind.punct .bangEqual, Kind.punct .equalEqual]))
      (applyNumeric op x y) := by
  unfold applyNumeric
  split <;> first | exact pure_asks _ | skip
  exact fail_asks ⟨rfl, by simp_all [binaryOps]⟩ op

/-- An operation asks for nothing: its operands may not be of the right kind, or its operator is
none. -/
theorem applyBinary_asks (op : Token) (left right : Value) :
    Asks (fun cause => cause = .operandsNotAddable ∨ cause = .operandsNotNumbers ∨
      cause = .unknownBinary ∧ op.kind ∉ binaryOps) (applyBinary op left right) := by
  unfold applyBinary
  split
  · split <;> first | exact pure_asks _ | exact fail_asks (.inl rfl) op
  · exact pure_asks _
  · exact pure_asks _
  · split
    · refine (applyNumeric_asks op _ _).mono fun cause h => .inr (.inr ⟨h.1, fun hop => ?_⟩)
      have := h.2 hop
      simp_all
    · exact fail_asks (.inr (.inl rfl)) op

/-! ## Objects -/

/-- Reading a property may bind a method and make a function of it; there may be none. -/
theorem getProperty_operates (o : ObjectRef) (name : Token) :
    Operates (· = .undefinedProperty name.lexeme) (fun _ _ => True) (getProperty o name) := by
  refine ⟨fun m => ?_, fun m sink => ?_⟩
  · unfold getProperty
    cases (m.heap.object? o).bind fun object => object.fields.get? name.lexeme with
    | some v => exact .ok (fun _ => .refl _) trivial
    | none =>
      cases m.heap.method? o name.lexeme with
      | some f =>
        exact .ok (fun _ => (Heap.bind_grows ..).trans (Heap.newFunction_grows ..)) trivial
      | none => exact .trouble rfl (fun _ => .refl _) trivial
  · unfold getProperty
    dsimp only
    cases (m.heap.object? o).bind fun object => object.fields.get? name.lexeme with
    | some v => rfl
    | none => cases m.heap.method? o name.lexeme <;> rfl

/-- Setting a field is never trouble. -/
theorem setProperty_operates (o : ObjectRef) (name : Token) (v : Value) :
    Operates (fun _ => False) SameCode (setProperty o name v) :=
  ⟨fun _ => .ok (fun _ => Heap.setField_grows ..) ⟨rfl, rfl⟩, fun _ _ => rfl⟩

/-! ## Calls -/

/-- Checking a call asks for what is called, its arity and the number of calls. -/
theorem checkCall_asks (callee : Value) (count : Nat) (paren : Token) :
    Asks (fun cause => cause = .notCallable ∨ (∃ arity, cause = .wrongArity arity count) ∨
      cause = .stackOverflow) (checkCall callee count paren) := by
  refine ⟨fun m => ?_, fun m sink => ?_⟩
  · unfold checkCall
    cases m.heap.callable? callee with
    | none => exact .failed (.inl rfl) paren
    | some c =>
      dsimp only
      split
      · exact .failed (.inr (.inl ⟨_, rfl⟩)) paren
      · split
        · exact .failed (.inr (.inr rfl)) paren
        · exact .same c
  · unfold checkCall
    dsimp only
    cases m.heap.callable? callee with
    | none => rfl
    | some c =>
      dsimp only
      split
      · rfl
      · split <;> rfl

/-- A call goes on only with something callable, with the right number of arguments, and below the
most calls in progress; it leaves the machine as it is. -/
theorem of_checkCall {callee : Value} {count : Nat} {paren : Token} {m m' : Machine}
    {c : Callable} (h : checkCall callee count paren m = .ok c m') :
    m' = m ∧ m.heap.callable? callee = some c ∧ count = c.arity ∧ m.calls < maxCalls := by
  unfold checkCall at h
  cases hc : m.heap.callable? callee with
  | none =>
    rw [hc] at h
    cases h
  | some c' =>
    rw [hc] at h
    dsimp only at h
    by_cases ha : count = c'.arity
    · rw [if_neg (Decidable.not_not.2 ha)] at h
      by_cases hcalls : m.calls ≥ maxCalls
      · rw [if_pos hcalls] at h
        cases h
      · rw [if_neg hcalls] at h
        cases h
        exact ⟨rfl, rfl, ha, by omega⟩
    · rw [if_pos ha] at h
      cases h

/-- The result of a call is never trouble. -/
theorem callResult_asks (f : Function) (flow : Flow) :
    Asks (fun _ => False) (callResult f flow) := by
  refine ⟨fun m => ?_, fun m sink => ?_⟩
  · unfold callResult
    cases f.isInitializer <;> cases flow <;> exact .same _
  · unfold callResult
    cases f.isInitializer <;> cases flow <;> rfl

/-- The frame of a call is opened without trouble. -/
theorem callFrame_operates (f : Function) (args : List Value) :
    Operates (fun _ => False) (fun _ _ => True) (callFrame f args) :=
  onHeap_operates (Heap.newFrame_grows ..)

/-! ## Output -/

/-- Printing is no operation: it writes to the sink, changes nothing else, and fails if the sink
does not take everything. -/
theorem print_ends (v : Value) (m : Machine) : ∃ sink,
    print v m = .ok () { m with sink := sink } ∨
      print v m = .error (.fault (.output .write)) { m with sink := sink } := by
  refine ⟨(m.sink.write (m.heap.text v ++ "\n").toUTF8).1, ?_⟩
  unfold print
  dsimp only
  cases (m.sink.write (m.heap.text v ++ "\n").toUTF8).2
  · exact .inr rfl
  · exact .inl rfl

/-- Handing on the output changes nothing, and fails if the sink refuses it. -/
theorem flush_ends (m : Machine) :
    flush m = .ok () m ∨ flush m = .error (.fault (.output .flush)) m := by
  unfold flush
  cases m.sink.refusesFlush
  · exact .inl rfl
  · exact .inr rfl

end Eval
end Lox
