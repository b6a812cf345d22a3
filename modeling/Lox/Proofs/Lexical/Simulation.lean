/-
# The two evaluators in step

Two computations, one on each evaluator's machine, end alike if they are started at the same place
on matched machines (`Sim`): with related results or with the same stop, and on matched machines
again. Every step of evaluating an expression keeps this (`sim_evalRule`), if the names of the
expression are in their places.
-/

import Lox.Proofs.Lexical.Pairing
import Lox.Proofs.Tree.Ids

namespace Lox

open Scope (Scopes)

namespace Lexical

open Eval (Keeps after)

/-- The active frame of the evaluator with distances has no names but those of its scope. -/
def Exact (h : Heap) : Scopes → FrameRef → Prop
  | [], _ => True
  | scope :: _, r => ∀ n, (h.getLocal? r n).isSome = true → scope.contains n = true

/-- The active frame has no more names than before if no frame gains any. -/
theorem Exact.grows {h h' : Heap} {scopes : Scopes} {r : FrameRef} (he : Exact h scopes r)
    (g : h.Grows (fun _ => False) h') (hr : (h.frame? r).isSome = true) : Exact h' scopes r := by
  cases scopes with
  | nil => trivial
  | cons scope outer => exact fun n hn => he n ((g.bound_iff id hr).1 hn)

/-- What can be said of a pair of heaps and of the active frames. -/
abbrev Assertion := Pairing → FrameRef → FrameRef → Prop

/-- Both evaluators are at the same place in the scopes. -/
structure At (scopes : Scopes) (w : Pairing) (r e : FrameRef) : Prop where
  view : w.View scopes r e
  exact : Exact w.real scopes r

/-- The heaps of two machines. -/
abbrev pair (home : FrameRef → String → FrameRef) (m m' : Machine) : Pairing :=
  ⟨m.heap, m'.heap, home⟩

/-- The machines do not differ as far as programs can tell. -/
structure Rel (T : Distances → Prop) (home : FrameRef → String → FrameRef) (m m' : Machine) :
    Prop where
  matched : (pair home m m').Matched T
  calls : m'.calls = m.calls
  sink : m'.sink = m.sink
  readings : m'.readings = m.readings

section

variable {α β γ δ : Type}

/-- Two computations end alike. -/
inductive Ends (T : Distances → Prop) (w : Pairing) (post : α → β → Assertion) :
    EStateM.Result Stop Machine α → EStateM.Result Stop Machine β → Prop where
  | ok {a : α} {b : β} {m m' : Machine} {home : FrameRef → String → FrameRef}
      (hr : Rel T home m m') (hl : w.Later (pair home m m'))
      (hp : post a b (pair home m m') m.frame m'.frame) : Ends T w post (.ok a m) (.ok b m')
  | error {e : Stop} {m m' : Machine} {home : FrameRef → String → FrameRef}
      (hr : Rel T home m m') (hl : w.Later (pair home m m')) :
    Ends T w post (.error e m) (.error e m')

/-- Started on matched machines for which `pre` holds, two computations end alike. -/
def Sim (T : Distances → Prop) (pre : Assertion) (c : Eval α) (c' : Eval β)
    (post : α → β → Assertion) : Prop :=
  ∀ home m m', Rel T home m m' → pre (pair home m m') m.frame m'.frame →
    Ends T (pair home m m') post (c m) (c' m')

variable {T : Distances → Prop} {pre pre' : Assertion} {post post' : α → β → Assertion}
  {c : Eval α} {c' : Eval β} {w w' : Pairing}

/-- What is said of ends may be said of earlier heaps, and weakened. -/
theorem Ends.mono {x : EStateM.Result Stop Machine α} {y : EStateM.Result Stop Machine β}
    (h : Ends T w' post x y) (l : w.Later w')
    (hp : ∀ a b w r e, post a b w r e → post' a b w r e) : Ends T w post' x y := by
  cases h with
  | ok hr hl h => exact .ok hr (l.trans hl) (hp _ _ _ _ _ h)
  | error hr hl => exact .error hr (l.trans hl)

/-- More may be asked before, and less behind. -/
theorem Sim.weaken (h : Sim T pre c c' post) (hpre : ∀ w r e, pre' w r e → pre w r e)
    (hpost : ∀ a b w r e, post a b w r e → post' a b w r e) : Sim T pre' c c' post' :=
  fun home m m' hr hp => (h home m m' hr (hpre _ _ _ hp)).mono (.refl _) hpost

/-- Computations that end alike are gone on with alike. -/
theorem Ends.bind {f : α → Eval γ} {f' : β → Eval δ} {last : γ → δ → Assertion} {m m' : Machine}
    (h : Ends T w post (c m) (c' m')) (hf : ∀ a b home m₁ m₁', Rel T home m₁ m₁' →
      w.Later (pair home m₁ m₁') → post a b (pair home m₁ m₁') m₁.frame m₁'.frame →
      Ends T (pair home m₁ m₁') last (f a m₁) (f' b m₁')) :
    Ends T w last ((c >>= f) m) ((c' >>= f') m') := by
  change Ends T _ last (EStateM.bind c f m) (EStateM.bind c' f' m')
  unfold EStateM.bind
  revert h
  generalize c m = x, c' m' = y
  intro h
  cases h with
  | ok hr hl hp => exact (hf _ _ _ _ _ hr hl hp).mono hl fun _ _ _ _ _ h => h
  | error hr hl => exact .error hr hl

/-- Computations one behind the other run in step if both parts do. -/
theorem Sim.bind {f : α → Eval γ} {f' : β → Eval δ} {last : γ → δ → Assertion}
    (hc : Sim T pre c c' post) (hf : ∀ a b, Sim T (post a b) (f a) (f' b) last) :
    Sim T pre (c >>= f) (c' >>= f') last := fun home m m' hr hp =>
  (hc home m m' hr hp).bind fun a b _ _ _ hr₁ _ hp₁ => hf a b _ _ _ hr₁ hp₁

/-- To return values leaves what was known. -/
theorem sim_pure (a : α) (b : β) :
    Sim T pre (pure a) (pure b) fun x y w r e => x = a ∧ y = b ∧ pre w r e :=
  fun _ _ _ hr hp => .ok hr (.refl _) ⟨rfl, rfl, hp⟩

/-- To stop in one way is an end alike. -/
theorem sim_throw (e : Stop) : Sim T pre (throw e : Eval α) (throw e : Eval β) post :=
  fun _ _ _ hr _ => .error hr (.refl _)

/-- To fail in one way is an end alike. -/
theorem sim_fail (cause : Trouble) (token : Token) :
    Sim T pre (Eval.fail cause token : Eval α) (Eval.fail cause token : Eval β) post := sim_throw _

variable (pre) in
/-- One and the same value on both sides. -/
def Same (a b : α) (w : Pairing) (r e : FrameRef) : Prop := b = a ∧ pre w r e

/-- Goes on with the value that both sides have. -/
theorem Sim.same {c c' : Eval α} {f f' : α → Eval γ} {last : γ → γ → Assertion}
    (hc : Sim T pre c c' (Same pre))
    (hf : ∀ a, Sim T pre (f a) (f' a) last) : Sim T pre (c >>= f) (c' >>= f') last := by
  refine hc.bind fun a b => ?_
  rintro home m m' hr ⟨rfl, hp⟩
  exact hf b home m m' hr hp

/-- To return one value is done in step. -/
theorem sim_return (a : α) : Sim T pre (pure a) (pure a) (Same pre) :=
  (sim_pure a a).weaken (fun _ _ _ h => h) fun _ _ _ _ _ h => ⟨h.2.1.trans h.1.symm, h.2.2⟩

end

section Operators

variable {T : Distances → Prop} {pre : Assertion}

/-- A sign has one result. -/
theorem sim_applyUnary (op : Token) (v : Value) :
    Sim T pre (Eval.applyUnary op v) (Eval.applyUnary op v) (Same pre) := by
  unfold Eval.applyUnary
  split <;> first | exact sim_return _ | exact sim_fail _ _

/-- An operation on numbers has one result. -/
theorem sim_applyNumeric (op : Token) (x y : Float) :
    Sim T pre (Eval.applyNumeric op x y) (Eval.applyNumeric op x y) (Same pre) := by
  unfold Eval.applyNumeric
  split <;> first | exact sim_return _ | exact sim_fail _ _

/-- An operation on values has one result. -/
theorem sim_applyBinary (op : Token) (left right : Value) :
    Sim T pre (Eval.applyBinary op left right) (Eval.applyBinary op left right) (Same pre) := by
  unfold Eval.applyBinary
  split
  · split <;> first | exact sim_return _ | exact sim_fail _ _
  · exact sim_return _
  · exact sim_return _
  · split
    · exact sim_applyNumeric _ _ _
    · exact sim_fail _ _

end Operators

section Names

variable {T : Distances → Prop} {scopes : Scopes} {home : FrameRef → String → FrameRef}
  {m m' : Machine}

/-- Where a local name is found on both sides. -/
theorem At.found (ha : At scopes (pair home m m') m.frame m'.frame) (hr : Rel T home m m')
    {name : String} {d : Nat} (hd : scopes.distance? name = some d) :
    ∃ a, m.heap.ancestor? m.frame d = some a ∧ (pair home m m').Bound a name ∧
      m'.heap.holder? m'.frame name = some (home a name) := by
  obtain ⟨a, ha, hb, ho⟩ := ha.view.found name d hd
  refine ⟨a, ha, hb, ?_⟩
  rw [ho.holder?]
  exact if_pos (hr.matched.home_bound hb)

/-- Where a global name is found on both sides. -/
theorem At.missing (ha : At scopes (pair home m m') m.frame m'.frame) (hr : Rel T home m m')
    {name : String} (hd : scopes.distance? name = none) :
    m'.heap.holder? m'.frame name =
      if (m.heap.getLocal? .global name).isSome then some .global else none := by
  rw [(ha.view.missing name hd).holder?, hr.matched.globals]

/-- A name at its distance is the name found outward. -/
theorem sim_readName (use : NameUse) {D : Distances} {id : NodeId} {t : Token}
    (hd : D.get? id = scopes.distance? t.lexeme) :
    Sim T (At scopes) (Eval.readName use (Eval.placeOf D id) t) (readName use t)
      (Same (At scopes)) := by
  intro home m m' hr ha
  cases hdist : scopes.distance? t.lexeme with
  | some d =>
    obtain ⟨a, han, hb, hh⟩ := ha.found hr hdist
    obtain ⟨v, hv⟩ := Option.isSome_iff_exists.1 hb
    have hreal : Eval.valueAt? m (.outward d) t.lexeme = some v := by
      rw [Eval.valueAt?, Heap.getAt?, han]
      exact hv
    have hlex : (m'.heap.holder? m'.frame t.lexeme).bind
        (fun r => m'.heap.getLocal? r t.lexeme) = some v := by
      rw [hh]
      exact (hr.matched.values a t.lexeme hb).trans hv
    simp only [Eval.readName, Eval.placeOf, hd, hdist, hreal, readName, hlex]
    exact .ok hr (.refl _) ⟨rfl, ha⟩
  | none =>
    have hlex : (m'.heap.holder? m'.frame t.lexeme).bind
        (fun r => m'.heap.getLocal? r t.lexeme) = m.heap.getLocal? .global t.lexeme := by
      rw [ha.missing hr hdist]
      cases hv : m.heap.getLocal? .global t.lexeme with
      | none => rfl
      | some v => exact (hr.matched.globals t.lexeme).trans hv
    simp only [Eval.readName, Eval.placeOf, hd, hdist, Eval.valueAt?, readName, hlex]
    cases m.heap.getLocal? .global t.lexeme with
    | none => exact .error hr (.refl _)
    | some v => exact .ok hr (.refl _) ⟨rfl, ha⟩

/-- Machines do not differ when a variable is assigned in the frames it lives in. -/
theorem Rel.assign (hr : Rel T home m m') {a : FrameRef} {name : String}
    (hb : (pair home m m').Bound a name) (v : Value) :
    Rel T home { m with heap := m.heap.define a name v }
      { m' with heap := m'.heap.define (home a name) name v } :=
  ⟨hr.matched.assign hb v, hr.calls, hr.sink, hr.readings⟩

/-- Both evaluators stay at the same place when a variable is assigned. -/
theorem At.assign (ha : At scopes (pair home m m') m.frame m'.frame) (hr : Rel T home m m')
    {a : FrameRef} {name : String} (hb : (pair home m m').Bound a name) (v : Value) :
    At scopes ((pair home m m').assign a name v) m.frame m'.frame :=
  ⟨ha.view.later (Pairing.assign_later hr.matched.toPaired hb v),
    ha.exact.grows (Heap.define_grows _ _ _ _ (.inr hb)) ha.view.present⟩

/-- A name is assigned at its distance where it is found outward. -/
theorem sim_assignName {D : Distances} {id : NodeId} {t : Token}
    (hd : D.get? id = scopes.distance? t.lexeme) (v : Value) :
    Sim T (At scopes) (Eval.assignName (Eval.placeOf D id) t v) (assignName t v)
      (Same (At scopes)) := by
  intro home m m' hr ha
  cases hdist : scopes.distance? t.lexeme with
  | some d =>
    obtain ⟨a, han, hb, hh⟩ := ha.found hr hdist
    have hreal : Eval.assignedAt m.heap m.frame (.outward d) t.lexeme v =
        (true, m.heap.define a t.lexeme v) := by
      rw [Eval.assignedAt, Heap.assignAt, han]
      exact if_pos hb
    simp only [Eval.assignName, Eval.placeOf, hd, hdist, hreal, if_true, assignName, hh]
    exact .ok (hr.assign hb v) (Pairing.assign_later hr.matched.toPaired hb v)
      ⟨rfl, ha.assign hr hb v⟩
  | none =>
    have hh := ha.missing hr hdist
    simp only [Eval.assignName, Eval.placeOf, hd, hdist, Eval.assignedAt, Heap.assignLocal,
      assignName]
    cases hv : (m.heap.getLocal? .global t.lexeme).isSome with
    | false =>
      rw [hh, hv]
      exact .error hr (.refl _)
    | true =>
      rw [hh, hv]
      have hb : (pair home m m').Bound .global t.lexeme := hv
      have hg : home .global t.lexeme = .global := hr.matched.home _
      have hr' := hr.assign hb v
      have ha' := ha.assign hr hb v
      have hl := Pairing.assign_later hr.matched.toPaired hb v
      rw [Pairing.assign] at ha' hl
      simp only [hg] at hr' ha' hl
      exact .ok hr' hl ⟨rfl, ha'⟩

end Names

section Objects

variable {T : Distances → Prop} {scopes : Scopes} {home : FrameRef → String → FrameRef}
  {m m' : Machine}

/-- The place stays the same while other frames are worked on. -/
theorem At.later {w w' : Pairing} {r e : FrameRef} (ha : At scopes w r e) (l : w.Later w')
    (g : w.real.Grows (fun _ => False) w'.real) : At scopes w' r e :=
  ⟨ha.view.later l, ha.exact.grows g ha.view.present⟩

/-- A value has one text on both machines. -/
theorem Rel.text_eq (hr : Rel T home m m') (v : Value) : m'.heap.text v = m.heap.text v :=
  hr.matched.alike.text_eq (fun _ _ hf => hf.sameFace) v

/-- Printing is done in step. -/
theorem sim_print (v : Value) :
    Sim T (At scopes) (Eval.print v) (Eval.print v) (Same (At scopes)) := by
  intro home m m' hr ha
  unfold Eval.print
  rw [hr.text_eq, hr.sink]
  dsimp only
  cases (m.sink.write (m.heap.text v ++ "\n").toUTF8).2 with
  | false => exact .error ⟨hr.matched, hr.calls, rfl, hr.readings⟩ (.refl _)
  | true => exact .ok ⟨hr.matched, hr.calls, rfl, hr.readings⟩ (.refl _) ⟨rfl, ha⟩

/-- The clock shows the same. -/
theorem sim_readClock (clock : Nat → Float) :
    Sim T (At scopes) (Eval.readClock clock) (Eval.readClock clock) (Same (At scopes)) := by
  intro home m m' hr ha
  unfold Eval.readClock
  rw [hr.readings]
  exact .ok ⟨hr.matched, hr.calls, hr.sink, rfl⟩ (.refl _) ⟨rfl, ha⟩

/-- A field is set in step. -/
theorem sim_setProperty (o : ObjectRef) (name : Token) (v : Value) :
    Sim T (At scopes) (Eval.setProperty o name v) (Eval.setProperty o name v)
      (Same (At scopes)) := by
  intro home m m' hr ha
  obtain ⟨hm, hl⟩ := hr.matched.setField o name.lexeme v
  exact .ok ⟨hm, hr.calls, hr.sink, hr.readings⟩ hl ⟨rfl, ha.later hl (Heap.setField_grows ..)⟩

/-- A property is read in step: a field has one value, and matched methods are bound in frames of
one kind. -/
theorem sim_getProperty (o : ObjectRef) (name : Token) :
    Sim T (At scopes) (Eval.getProperty o name) (Eval.getProperty o name) (Same (At scopes)) := by
  intro home m m' hr ha
  have hobject : m'.heap.object? o = m.heap.object? o := by
    rw [Heap.object?, Heap.object?, hr.matched.alike.objects]
  have hmethod := hr.matched.alike.method?_rel o name.lexeme
  unfold Eval.getProperty
  rw [hobject]
  cases (m.heap.object? o).bind fun object => object.fields.get? name.lexeme with
  | some v => exact .ok hr (.refl _) ⟨rfl, ha⟩
  | none =>
    revert hmethod
    generalize m.heap.method? o name.lexeme = f, m'.heap.method? o name.lexeme = f'
    intro hmethod
    cases hmethod with
    | none => exact .error hr (.refl _)
    | @some f f' hf =>
      obtain ⟨home₁, hm₁, hl₁, hf₁⟩ := hf.bind hr.matched (o := o) rfl
      obtain ⟨hm₂, hl₂⟩ := hm₁.newFunction hf₁
      have hl := hl₁.trans hl₂
      have g : m.heap.Grows (fun _ => False)
          ((m.heap.bind f o).2.newFunction (m.heap.bind f o).1).2 :=
        (Heap.bind_grows ..).trans (Heap.newFunction_grows ..)
      have href : m'.heap.functions.size = m.heap.functions.size :=
        hr.matched.alike.functionCount
      exact .ok ⟨hm₂, hr.calls, hr.sink, hr.readings⟩ hl
        ⟨congrArg (fun n => Value.function ⟨n⟩) href, ha.later hl g⟩

/-! ## Calls -/

/-- A call is checked in step, and what is called is matched. -/
theorem sim_checkCall (callee : Value) (count : Nat) (paren : Token) :
    Sim T (At scopes) (Eval.checkCall callee count paren) (Eval.checkCall callee count paren)
      fun c c' w r e => Callable.Alike (w.FunctionMatch T) (w.MethodMatch T) c c' ∧
        count = c.arity ∧ At scopes w r e := by
  intro home m m' hr ha
  have hc := hr.matched.alike.callable?_rel callee
  unfold Eval.checkCall
  revert hc
  generalize m.heap.callable? callee = c, m'.heap.callable? callee = c'
  intro hc
  cases hc with
  | none => exact .error hr (.refl _)
  | @some c c' hc =>
    have harity : c'.arity = c.arity :=
      hc.arity (fun _ _ hf => hf.sameFace) fun _ _ hf => hf.sameFace
    dsimp only
    rw [harity, hr.calls]
    by_cases h₁ : count ≠ c.arity
    · rw [if_pos h₁, if_pos h₁]
      exact .error hr (.refl _)
    · rw [if_neg h₁, if_neg h₁]
      by_cases h₂ : m.calls ≥ maxCalls
      · rw [if_pos h₂, if_pos h₂]
        exact .error hr (.refl _)
      · rw [if_neg h₂, if_neg h₂]
        exact .ok hr (.refl _) ⟨hc, Decidable.of_not_not h₁, ha⟩

/-- Calls are counted in step. -/
theorem sim_counted {α β : Type} {pre : Assertion} {c : Eval α} {c' : Eval β}
    {post : α → β → Assertion} (hc : Sim T pre c c' post) :
    Sim T pre (Eval.counted c) (Eval.counted c') post := by
  intro home m m' hr hp
  have h := hc home { m with calls := m.calls + 1 } { m' with calls := m'.calls + 1 }
    ⟨hr.matched, congrArg (· + 1) hr.calls, hr.sink, hr.readings⟩ hp
  unfold Eval.counted
  revert h
  generalize c { m with calls := m.calls + 1 } = x, c' { m' with calls := m'.calls + 1 } = y
  intro h
  cases h with
  | ok hr₁ hl hp₁ =>
    exact .ok ⟨hr₁.matched, congrArg (· - 1) hr₁.calls, hr₁.sink, hr₁.readings⟩ hl hp₁
  | error hr₁ hl =>
    exact .error ⟨hr₁.matched, congrArg (· - 1) hr₁.calls, hr₁.sink, hr₁.readings⟩ hl

/-- Running inside new frames at the same place, and coming back. -/
theorem ends_inFrame {α : Type} {c c' : Eval α} {parent parent' : FrameRef}
    {inner : Scopes} {scope : Bindings Scope.Status} {values : Bindings Value}
    (hr : Rel T home m m') (ha : At scopes (pair home m m') m.frame m'.frame)
    (hv : (pair home m m').View inner parent parent')
    (hw : ∀ n, scope.contains n = values.contains n) (hk : Keeps True c)
    (hc : Sim T (At (scope :: inner)) c c' fun a b _ _ _ => b = a) :
    Ends T (pair home m m') (Same (At scopes))
      (Eval.inFrame ⟨m.heap.frames.size⟩ c { m with heap := (m.heap.newFrame parent values).2 })
      (Eval.inFrame ⟨m'.heap.frames.size⟩ c'
        { m' with heap := (m'.heap.newFrame parent' values).2 }) := by
  have hl := Pairing.enter_later (pair home m m') parent parent' values
  have hin : At (scope :: inner) ((pair home m m').enter parent parent' values)
      ⟨m.heap.frames.size⟩ ⟨m'.heap.frames.size⟩ := by
    refine ⟨hv.enter hr.matched.toPaired hw, fun n hn => ?_⟩
    rw [hw, Bindings.contains]
    simpa [Pairing.enter, Heap.getLocal?_newFrame] using hn
  have h := hc _ { m with heap := (m.heap.newFrame parent values).2, frame := ⟨m.heap.frames.size⟩ }
    { m' with heap := (m'.heap.newFrame parent' values).2, frame := ⟨m'.heap.frames.size⟩ }
    ⟨hr.matched.enter parent parent' values, hr.calls, hr.sink, hr.readings⟩ hin
  -- Only the new frame gains names, and it was not there before.
  have g : ∀ {m₁ : Machine}, after c { m with
      heap := (m.heap.newFrame parent values).2, frame := ⟨m.heap.frames.size⟩ } = m₁ →
      m.heap.Grows (fun _ => False) m₁.heap := by
    rintro m₁ rfl
    have k := hk { m with
      heap := (m.heap.newFrame parent values).2, frame := ⟨m.heap.frames.size⟩ }
    refine ((Heap.newFrame_grows ..).trans k.heap).weaken fun r f hf hr => ?_
    exact Heap.ne_size_of_present (by simp [hf]) hr.2
  unfold Eval.inFrame
  dsimp only
  revert h g
  generalize hx : c { m with
    heap := (m.heap.newFrame parent values).2, frame := ⟨m.heap.frames.size⟩ } = x
  generalize c' { m' with
    heap := (m'.heap.newFrame parent' values).2, frame := ⟨m'.heap.frames.size⟩ } = y
  intro h g
  cases h with
  | ok hr₁ hl₁ hp =>
    have hl₂ := hl.trans hl₁
    exact .ok ⟨hr₁.matched, hr₁.calls, hr₁.sink, hr₁.readings⟩ hl₂
      ⟨hp, ha.later hl₂ (g (Eval.after_ok hx))⟩
  | error hr₁ hl₁ =>
    exact .error ⟨hr₁.matched, hr₁.calls, hr₁.sink, hr₁.readings⟩ (hl.trans hl₁)

/-- The result of a call is the same, for an initializer its receiver. -/
theorem sim_callResult {f f' : Function} (flow : Flow) :
    Sim T (fun w r e => w.FunctionMatch T f f' ∧ At scopes w r e) (Eval.callResult f flow)
      (Eval.callResult f' flow) (Same (At scopes)) := by
  rintro home m m' hr ⟨hf, ha⟩
  unfold Eval.callResult
  rw [hf.isInitializer]
  cases hi : f.isInitializer with
  | true =>
    obtain ⟨hb, hh⟩ := hf.receiver hi
    have hv := hr.matched.values _ _ hb
    rw [hh] at hv
    simp only [Heap.getAt?_zero, if_true]
    exact .ok hr (.refl _) ⟨congrArg (fun v => Option.getD v Value.nil) hv, ha⟩
  | false => cases flow <;> exact .ok hr (.refl _) ⟨rfl, ha⟩

end Objects

/-! ## Rules -/

section Rules

variable {T : Distances → Prop} {eval eval' : Expr → Eval Value} {exec exec' : Stmt → Eval Flow}

variable (T eval eval') in
/-- Expressions are evaluated in step. -/
def EvalSim : Prop := ∀ e scopes, e.Located true T scopes →
  Sim T (At scopes) (eval e) (eval' e) (Same (At scopes))

variable (T exec exec') in
/-- Statements are run in step. -/
def ExecSim : Prop := ∀ s scopes, s.Placed true T scopes →
  Sim T (At scopes) (exec s) (exec' s) (Same (At (s.scopesAfter scopes)))

/-- Statements in order end in step. -/
theorem sim_inOrder (hx : ExecSim T exec exec') : ∀ (ss : List Stmt) (scopes : Scopes),
    Stmt.PlacedList true T ss scopes →
      Sim T (At scopes) (Eval.inOrder exec ss) (Eval.inOrder exec' ss) fun a b _ _ _ => b = a
  | [], _, _ => (sim_return _).weaken (fun _ _ _ h => h) fun _ _ _ _ _ h => h.1
  | s :: ss, scopes, hp => by
    rw [Stmt.PlacedList] at hp
    refine (hx s scopes hp.1).bind fun flow flow' => ?_
    rintro home m m' hr ⟨rfl, ha⟩
    cases flow' with
    | normal => exact sim_inOrder hx ss _ hp.2 home m m' hr ha
    | returned v => exact .ok hr (.refl _) rfl

/-- Matched functions called with the same arguments end in step. -/
theorem sim_invoke (hx : ExecSim T exec exec') (kx : ∀ s, Keeps True (exec s)) {scopes : Scopes}
    (f f' : Function) (args : List Value) :
    Sim T (fun w r e => (w.FunctionMatch T f f' ∧ args.length = f.arity) ∧ At scopes w r e)
      (Eval.invoke exec f args) (Eval.invoke exec' f' args) (Same (At scopes)) := by
  rintro home m m' hr ⟨⟨hf, hargs⟩, ha⟩
  obtain ⟨inner, hp, hv⟩ := hf.place
  obtain ⟨⟨name, params, body⟩, closure, isInit⟩ := f
  obtain ⟨decl', closure', isInit'⟩ := f'
  obtain rfl : decl' = ⟨name, params, body⟩ := hf.decl
  rw [FunDecl.Placed] at hp
  have h := ends_inFrame hr ha hv (Scope.contains_ofParams hargs) (Eval.inOrder_keeps kx body)
    (sim_inOrder hx body _ hp)
  refine h.bind fun flow flow' home₁ m₁ m₁' hr₁ hl₁ hs => ?_
  obtain ⟨rfl, ha₁⟩ := hs
  exact sim_callResult _ _ _ _ hr₁ ⟨hf.later hl₁, ha₁⟩

/-- Classes with matched methods called with the same arguments end in step. -/
theorem sim_construct (hx : ExecSim T exec exec') (kx : ∀ s, Keeps True (exec s))
    {scopes : Scopes} (ref : ClassRef) (c c' : Class) (args : List Value) :
    Sim T (fun w r e => (c.Alike (w.MethodMatch T) c' ∧
        args.length = (Callable.construct ref c).arity) ∧ At scopes w r e)
      (Eval.construct exec ref c args) (Eval.construct exec' ref c' args) (Same (At scopes)) := by
  rintro home m m' hr ⟨⟨hc, hargs⟩, ha⟩
  have hi := hc.initializer
  obtain ⟨hm, hl⟩ := hr.matched.newObject ref
  have href : (m'.heap.newObject ref).1 = (m.heap.newObject ref).1 := by
    have hobjects : m'.heap.objects = m.heap.objects := hr.matched.alike.objects
    simp only [Heap.newObject, hobjects]
  have ha₁ := ha.later hl (Heap.newObject_grows ..)
  have hr₁ : Rel T home { m with heap := (m.heap.newObject ref).2 }
      { m' with heap := (m'.heap.newObject ref).2 } := ⟨hm, hr.calls, hr.sink, hr.readings⟩
  simp only [Callable.arity] at hargs
  unfold Eval.construct
  revert hi hargs
  generalize c.initializer? = i, c'.initializer? = i'
  intro hargs hi
  cases hi with
  | none => exact .ok hr₁ hl ⟨congrArg Value.object href, ha₁⟩
  | @some f f' hf =>
    obtain ⟨home₂, hm₂, hl₂, hf₂⟩ := (hf.later hl).bind hm href
    have ha₂ := ha₁.later hl₂ (Heap.bind_grows ..)
    have h := sim_invoke hx kx _ _ args home₂ { m with heap := _ } { m' with heap := _ }
      ⟨hm₂, hr.calls, hr.sink, hr.readings⟩ ⟨⟨hf₂, hargs⟩, ha₂⟩
    exact (h.mono (hl.trans hl₂) fun _ _ _ _ _ h => h).bind fun _ _ _ _ _ hr₃ _ hs =>
      .ok hr₃ (.refl _) ⟨congrArg Value.object href, hs.2⟩

/-- Whatever is called, calls end in step. -/
theorem sim_apply (clock : Nat → Float) (hx : ExecSim T exec exec')
    (kx : ∀ s, Keeps True (exec s)) {scopes : Scopes} (c c' : Callable) (args : List Value) :
    Sim T (fun w r e => Callable.Alike (w.FunctionMatch T) (w.MethodMatch T) c c' ∧
        args.length = c.arity ∧ At scopes w r e)
      (Eval.apply clock exec args c) (Eval.apply clock exec' args c') (Same (At scopes)) := by
  rintro home m m' hr ⟨hc, hargs, ha⟩
  cases hc with
  | native f =>
    cases f
    exact sim_readClock clock home m m' hr ha
  | function hf => exact sim_invoke hx kx _ _ args home m m' hr ⟨⟨hf, hargs⟩, ha⟩
  | construct ref hc => exact sim_construct hx kx ref _ _ args home m m' hr ⟨⟨hc, hargs⟩, ha⟩

/-- Expressions one after the other are evaluated in step. -/
theorem sim_each (he : EvalSim T eval eval') {scopes : Scopes} : ∀ es : List Expr,
    (∀ e ∈ es, e.Located true T scopes) →
      Sim T (At scopes) (Eval.each eval es) (Eval.each eval' es) (Same (At scopes))
  | [], _ => sim_return _
  | e :: es, hl => (he e scopes (hl e (List.mem_cons_self ..))).same fun _ =>
    (sim_each he es fun e h => hl e (List.mem_cons_of_mem _ h)).same fun _ => sim_return _

/-- So is an expression that may be missing. -/
theorem sim_orNil (he : EvalSim T eval eval') {scopes : Scopes} (e : Option Expr)
    (hl : ∀ e' ∈ e, e'.Located true T scopes) :
    Sim T (At scopes) (Eval.orNil eval e) (Eval.orNil eval' e) (Same (At scopes)) := by
  cases e with
  | none => exact sim_return _
  | some e => exact he e scopes (hl e rfl)

/-- One step of evaluation is in step, if what it refers to is. -/
theorem sim_evalRule {p : Setting} (hT : T p.distances) (he : EvalSim T eval eval')
    (hx : ExecSim T exec exec') (kx : ∀ s, Keeps True (exec s)) :
    EvalSim T (Eval.evalRule p eval exec) (evalRule p.clock eval' exec') := by
  intro e scopes hl
  rw [Expr.Located] at hl
  cases e with
  | literal l => cases l <;> exact sim_return _
  | grouping inner =>
    rw [Expr.names] at hl
    exact he inner scopes hl
  | unary op operand =>
    rw [Expr.names] at hl
    exact (he operand scopes hl).same fun v => sim_applyUnary op v
  | binary left op right =>
    rw [Expr.names] at hl
    exact (he left scopes fun n hn => hl n (List.mem_append_left _ hn)).same fun l =>
      (he right scopes fun n hn => hl n (List.mem_append_right _ hn)).same fun r =>
        sim_applyBinary op l r
  | logical left op right =>
    rw [Expr.names] at hl
    refine (he left scopes fun n hn => hl n (List.mem_append_left _ hn)).same fun l => ?_
    cases Eval.decides op l
    · exact he right scopes fun n hn => hl n (List.mem_append_right _ hn)
    · exact sim_return l
  | ident id name =>
    rw [Expr.names] at hl
    exact sim_readName .read (hl _ (List.mem_singleton_self _) (fun _ => rfl) _ hT)
  | receiver id keyword =>
    rw [Expr.names] at hl
    exact sim_readName .receiver (hl _ (List.mem_singleton_self _) (fun _ => rfl) _ hT)
  | assign id name value =>
    rw [Expr.names] at hl
    exact (he value scopes fun n hn => hl n (List.mem_cons_of_mem _ hn)).same fun v =>
      (sim_assignName (hl _ (List.mem_cons_self ..) (fun _ => rfl) _ hT) v).same fun _ =>
        sim_return v
  | call callee paren args =>
    rw [Expr.names] at hl
    refine (he callee scopes fun n hn => hl n (List.mem_append_left _ hn)).same fun f => ?_
    refine (sim_each he args fun e hmem n hn =>
      hl n (List.mem_append_right _ (Expr.mem_namesList hmem hn))).same fun vs => ?_
    exact (sim_checkCall f vs.length paren).bind fun c c' =>
      sim_counted (sim_apply p.clock hx kx c c' vs)
  | get object name =>
    rw [Expr.names] at hl
    refine (he object scopes hl).same fun v => ?_
    cases v with
    | object o => exact sim_getProperty o name
    | _ => exact sim_fail _ _
  | set object name value =>
    rw [Expr.names] at hl
    refine (he object scopes fun n hn => hl n (List.mem_append_left _ hn)).same fun v => ?_
    cases v with
    | object o =>
      exact (he value scopes fun n hn => hl n (List.mem_append_right _ hn)).same fun v =>
        (sim_setProperty o name v).same fun _ => sim_return v
    | _ => exact sim_fail _ _

end Rules

end Lexical

end Lox
