/-
# Receivers while a program runs

Where uses of the receiver find it before a program runs, they find it while it runs
(`Invariant.receiving`): a tree inside a method runs in a frame that serves a call of the method,
bound to an object, and the use of the receiver yields that object (`receiver_yields`). All that
runs in one call without a further one has the same receiver (`Activation.receives`), and the call
of an initializer yields it (`initializer_yields`).
-/

import Lox.Proofs.Eval.Onward
import Lox.Proofs.Heap.Receiver
import Lox.Proofs.Scope.Receivers

namespace Lox

/-- Trees inside a method run for an object that the method is bound to. Initializers are bound. -/
def Invariant.receiving (T : Distances → Prop) : Invariant MethodPlace where
  rules := .receivers T
  own _ := True
  leads := Heap.Steady
  value _ _ := True
  frame k h r := ∀ d method, k = some (d, method) → ∃ g o, h.Serves r d g o ∧ g.decl = method
  receives h r := ∃ o, h.Receives r 0 o
  leads_refl := .refl
  leads_trans := .trans
  value_leads _ _ := trivial
  frame_leads hs hr d method hk := by
    obtain ⟨g, o, hg, hd⟩ := hr d method hk
    exact ⟨g, o, hg.steady hs, hd⟩
  receives_leads hs hr := by
    obtain ⟨o, ho⟩ := hr
    exact ⟨o, ho.steady hs⟩
  plain _ := trivial
  binding _ _ := trivial
  field _ _ _ := trivial
  assigned h := h.2 rfl
  define _ _ hn := ⟨trivial, .define hn _ _⟩
  openFrame := by
    intro k h parent values _ hp hv
    refine ⟨trivial, .newFrame h parent values, fun d method hk => ?_⟩
    have unbound : values.get? Heap.receiverName = none := by
      cases hget : values.get? Heap.receiverName with
      | none => rfl
      | some v => exact absurd rfl (hv _ v hget).1
    obtain ⟨⟨d', method'⟩, rfl, hplace⟩ := Option.map_eq_some_iff.1 hk
    cases hplace
    obtain ⟨g, o, hg, hd⟩ := hp d' method' rfl
    exact ⟨g, o, hg.newFrame unbound, hd⟩
  bindFrame := by
    intro k h name f o _ _ _ hm
    have bound := Heap.bind_boundTo hm
    refine ⟨trivial, .newFrame h f.closure _, fun d method hk => ?_, o, bound.receiver⟩
    cases hk
    exact ⟨_, o, bound.serves, rfl⟩
  newFunction f _ := ⟨trivial, .of_frames (Heap.newFunction_grows ..) rfl, trivial⟩
  newClass c _ := ⟨trivial, .of_frames (Heap.newClass_grows ..) rfl, trivial⟩
  newObject _ _ := ⟨trivial, .of_frames (Heap.newObject_grows ..) rfl, trivial⟩
  setField _ _ := ⟨trivial, .of_frames (Heap.setField_grows ..) rfl⟩

/-- What holds with more tables in view holds with fewer. -/
theorem Invariant.Holds.receiving_mono {T T' : Distances → Prop} (hT : ∀ D, T' D → T D) {h : Heap}
    (hh : (Invariant.receiving T).Holds h) : (Invariant.receiving T').Holds h where
  functions r f hr := by
    obtain ⟨k, hd, hf⟩ := hh.functions r f hr
    exact ⟨k, hd.mono (TreeRules.receivers_weakens hT), hf⟩
  classes r c hr name f hm := by
    obtain ⟨k, hd, hf⟩ := hh.classes r c hr name f hm
    exact ⟨k, hd.mono (TreeRules.receivers_weakens hT), hf⟩
  own := trivial

namespace Eval

variable {T : Distances → Prop} {p : Setting} {fuel : Nat} {m m₁ m' : Machine} {d : Nat}
  {o : ObjectRef} {g : Function} {vs : List Value}

/-! ## Uses of the receiver -/

/-- A use of the receiver yields the object that the method around it is bound to. -/
theorem receiver_yields {id : NodeId} {keyword : Token} (hT : T p.distances)
    (ht : (Invariant.receiving T).Fits (.eval (.receiver id keyword)) m) :
    ∃ d g o, m.heap.Serves m.frame d g o ∧ id ∈ g.decl.receivers ∧
      ∀ k, eval p (k + 1) (.receiver id keyword) m = .ok (.object o) m := by
  obtain ⟨k, hs, ho⟩ := ht
  have rule := ho ⟨.receiver, id, keyword⟩ (by simp [Expr.names])
  obtain ⟨hname, d, method, hk, hid, hd⟩ := rule.1 rfl
  dsimp only at hname hid hd
  obtain ⟨g, o, hg, rfl⟩ := hs.frame d method hk
  refine ⟨d, g, o, hg, hid, fun k => ?_⟩
  have found : valueAt? m (placeOf p.distances id) keyword.lexeme = some (.object o) := by
    rw [placeOf, hd _ hT, hname]
    exact hg.receiver.getAt?
  change readName .receiver (placeOf p.distances id) keyword m = .ok (.object o) m
  unfold readName
  rw [found]

/-! ## Inside a call -/

/-- What a task starts is in a further call, or in the same one and with the same receiver. -/
theorem Starts.receives {t t' : Task} (h : Starts p fuel t m t' m')
    (ht : (Invariant.receiving T).Fits t m) : m.calls < m'.calls ∨ m'.calls = m.calls ∧
      ∀ d o, m.heap.Receives m.frame d o → ∃ d', m'.heap.Receives m'.frame d' o := by
  have steady : m.heap.Steady m'.heap := (Invariant.starts h ht).1
  have stay : m'.frame = m.frame → m'.calls = m.calls → m'.calls = m.calls ∧
      ∀ d o, m.heap.Receives m.frame d o → ∃ d', m'.heap.Receives m'.frame d' o := by
    intro hframe hcalls
    exact ⟨hcalls, fun d o hr => ⟨d, hframe ▸ hr.steady steady⟩⟩
  cases h with
  | right h | second h | setValue h | thenBranch h | elseBranch h | round h =>
    have first := (eval_keeps p fuel _).ok h
    exact .inr (stay first.frame first.calls)
  | argument hf hv =>
    have first := (eval_keeps p fuel _).ok hf
    have second := (each_keeps (fun e => eval_keeps p fuel e) _).ok hv
    exact .inr (stay (second.frame.trans first.frame) (second.calls.trans first.calls))
  | again hc _ hb =>
    have first := (eval_keeps p fuel _).ok hc
    have second := (exec_keeps p fuel _).ok hb
    exact .inr (stay (second.frame.trans first.frame) (second.calls.trans first.calls))
  | @inner _ m₁ _ pre s post r hf hpre =>
    obtain ⟨k, hs, ho⟩ := ht
    rw [Stmt.Obeys, Stmt.obeysList_iff] at ho
    obtain ⟨hm₁, hr⟩ := (Invariant.innerFrame_sustains hs).ok hf
    have body := (Invariant.inOrder_fits (m := { m₁ with frame := r }) ⟨hm₁.holds, hr⟩ ho hpre).1
    have kept := (inOrder_keeps (exec_keeps p fuel) pre).ok hpre
    cases hf
    refine .inr ⟨kept.calls, fun d o hr => ⟨d + 1, ?_⟩⟩
    rw [kept.frame]
    exact (hr.newFrame rfl).steady body
  | @body _ m₁ m₂ m₃ m₄ _ callee paren args f vs c pre s post hf hv hc hb hpre =>
    left
    have known := ((eval_keeps p fuel _).ok hf).calls
    have passed := ((each_keeps (fun e => eval_keeps p fuel e) _).ok hv).calls
    have checked := (of_checkCall hc).1
    have inside := ((inOrder_keeps (exec_keeps p fuel) pre).ok hpre).calls
    have entered : m₄.calls = m₃.calls + 1 := by
      generalize pre ++ s :: post = body at hb
      cases hb with
      | function hf =>
        cases hf
        rfl
      | construct _ ho hb hf =>
        cases ho
        cases hb
        cases hf
        rfl
    rw [inside, entered, checked, passed, known]
    exact Nat.lt_succ_self _
  | _ => exact .inr (stay rfl rfl)

/-- So it is with all that a task comes to. -/
theorem Visits.receives {t t' : Task} (h : Visits p fuel t m t' m')
    (ht : (Invariant.receiving T).Fits t m) : m.calls < m'.calls ∨ m'.calls = m.calls ∧
      ∀ d o, m.heap.Receives m.frame d o → ∃ d', m'.heap.Receives m'.frame d' o := by
  induction h with
  | self => exact .inr ⟨rfl, fun d _ hr => ⟨d, hr⟩⟩
  | part hs _ ih =>
    have rest := ih (Invariant.starts hs ht).2
    rcases hs.receives ht with further | ⟨hcalls, first⟩
    · left
      rcases rest with more | ⟨same, -⟩ <;> omega
    · rcases rest with more | ⟨same, second⟩
      · left
        omega
      · refine .inr ⟨same.trans hcalls, fun d o hr => ?_⟩
        obtain ⟨d', hr'⟩ := first d o hr
        exact second d' o hr'

/-- A call of `c` on `m` comes to invoke a function on the machine `m'`. -/
inductive Invokes : Callable → Machine → Function → Machine → Prop where
  | function {f : Function} {m : Machine} : Invokes (.function f) m f m
  | construct {ref : ClassRef} {c : Class} {f bound : Function} {o : ObjectRef}
      {m m₁ m₂ : Machine} (hi : c.initializer? = some f)
      (ho : onHeap (fun h => h.newObject ref) m = .ok o m₁)
      (hb : onHeap (fun h => h.bind f o) m₁ = .ok bound m₂) :
    Invokes (.construct ref c) m bound m₂

/-- Evaluating the call on `m`, the parts with the given fuel, comes to invoke `g` on the values
`vs` and the machine `m'`. -/
structure Calls (p : Setting) (fuel : Nat) (callee : Expr) (paren : Token) (args : List Expr)
    (m : Machine) (g : Function) (vs : List Value) (m' : Machine) : Prop where
  reaches : ∃ f m₁ m₂ c m₃, eval p fuel callee m = .ok f m₁ ∧
    each (eval p fuel) args m₁ = .ok vs m₂ ∧ checkCall f vs.length paren m₂ = .ok c m₃ ∧
      Invokes c { m₃ with calls := m₃.calls + 1 } g m'

/-- Invoking `g` on the values `vs` and the machine `m` comes to the task on the machine `m'`, which
no further call is in progress on. -/
structure Activation (p : Setting) (fuel : Nat) (g : Function) (vs : List Value) (m : Machine)
    (t : Task) (m' : Machine) : Prop where
  visits : ∃ r m₁ pre s post m₂, callFrame g vs m = .ok r m₁ ∧ g.decl.body = pre ++ s :: post ∧
    inOrder (exec p fuel) pre { m₁ with frame := r } = .ok .normal m₂ ∧
      Visits p fuel (.exec s) m₂ t m'
  calls : m'.calls = m.calls

/-- What is invoked can be called where it is. -/
theorem Calls.callee {callee : Expr} {paren : Token} {args : List Expr}
    (ht : (Invariant.receiving T).Fits (.eval (.call callee paren args)) m)
    (hc : Calls p fuel callee paren args m g vs m') :
    (Invariant.receiving T).Holds m'.heap ∧ (Invariant.receiving T).Callee m'.heap g := by
  obtain ⟨f, m₁, m₂, c, m₃, hf, hv, hcheck, hi⟩ := hc.reaches
  obtain ⟨k, hs, ho⟩ := ht
  obtain ⟨hm₃, hcallable, -⟩ := Invariant.called ((Invariant.receiving T).eval_sustains p fuel) hs ho
    hf hv hcheck
  cases hi with
  | function => exact ⟨hm₃.holds, hcallable⟩
  | @construct ref c f bound o _ m₄ _ hi ho hb =>
    obtain ⟨holds, -, hbound⟩ := hm₃.holds.initializer hcallable.1 hcallable.2 hi
    cases ho
    cases hb
    exact ⟨holds, hbound⟩

/-- The frame of a call has the receiver of the function that is called. -/
theorem callFrame_receives {k : MethodPlace} (hd : g.decl.Obeys (.receivers T) k) {r : FrameRef}
    (hf : callFrame g vs m = .ok r m₁) (hr : m.heap.Receives g.closure d o) :
    m₁.heap.Receives r (d + 1) o := by
  cases hf
  refine hr.newFrame ?_
  cases hget : ((∅ : Bindings Value).insertMany
    ((g.decl.params.map (·.lexeme)).zip vs)).get? Heap.receiverName with
  | none => rfl
  | some v =>
    rcases Bindings.get?_insertMany hget with hget | hmem
    · cases hget
    · obtain ⟨t, ht, hname⟩ := List.mem_map.1 (List.of_mem_zip hmem).1
      exact absurd hname (hd.params t ht)

/-- All that runs in one call has the receiver of the function that is called. -/
theorem Activation.receives {t : Task} (hm : (Invariant.receiving T).Holds m.heap)
    (hf : (Invariant.receiving T).Callee m.heap g) (h : Activation p fuel g vs m t m') :
    (Invariant.receiving T).Fits t m' ∧
      ∀ d o, m.heap.Receives g.closure d o → ∃ d', m'.heap.Receives m'.frame d' o := by
  obtain ⟨⟨r, m₁, pre, s, post, m₂, hr, hb, hpre, hv⟩, hcalls⟩ := h
  obtain ⟨hm₁, k, hframe, hbody⟩ := (Invariant.callFrame_sustains hm hf
    fun v (_ : v ∈ vs) => trivial).ok hr
  rw [hb] at hbody
  obtain ⟨steady, hs⟩ := Invariant.inOrder_fits (m := { m₁ with frame := r })
    ⟨hm₁.holds, hframe⟩ hbody hpre
  have kept := (inOrder_keeps (exec_keeps p fuel) pre).ok hpre
  have opened : m₁.calls = m.calls := by
    cases hr
    rfl
  refine ⟨(Invariant.visits hv hs).2, fun d o hrec => ?_⟩
  obtain ⟨_, hd, -⟩ := hf
  have first := (callFrame_receives hd hr hrec).steady steady
  rw [← show m₂.frame = r from kept.frame] at first
  rcases hv.receives hs with further | ⟨-, same⟩
  · have := kept.calls
    dsimp only at this
    omega
  · exact same _ o first

/-! ## Functions that see the receiver -/

/-- A property of an object is a field, or else a method of its class, bound to the object. -/
theorem get_bound {object : Expr} {name : Token} {v : Value}
    (ht : (Invariant.receiving T).Fits (.eval (.get object name)) m)
    (ho : eval p fuel object m = .ok (.object o) m₁)
    (h : eval p (fuel + 1) (.get object name) m = .ok v m') :
    (m₁.heap.object? o).bind (fun x => x.fields.get? name.lexeme) = some v ∨
      ∃ r f g, v = .function r ∧ m₁.heap.method? o name.lexeme = some f ∧
        m'.heap.function? r = some g ∧ g = { f with closure := g.closure } ∧
          m'.heap.BoundTo g o ∧ g.isInitializer = (name.lexeme == Heap.initializerName) := by
  obtain ⟨k, hs, hobeys⟩ := ht
  have holds := (((Invariant.receiving T).eval_sustains p fuel object k m hs
    (hobeys.part (by simp [Expr.names]))).ok ho).1.holds
  change (eval p fuel object >>= _) m = _ at h
  rw [bind_of_ok ho] at h
  dsimp only [getProperty] at h
  cases hfield : (m₁.heap.object? o).bind fun x => x.fields.get? name.lexeme with
  | some w =>
    rw [hfield] at h
    cases h
    exact .inl rfl
  | none =>
    rw [hfield] at h
    cases hm : m₁.heap.method? o name.lexeme with
    | none =>
      rw [hm] at h
      cases h
    | some f =>
      rw [hm] at h
      cases h
      have bound := Heap.bind_boundTo hm
      have flag := holds.isInitializer hm
      refine .inr ⟨_, f, (m₁.heap.bind f o).1, rfl, rfl, ?_, rfl,
        bound.steady (.of_frames (Heap.newFunction_grows ..) rfl), flag⟩
      simp [Heap.newFunction, Heap.function?]

/-- A function that is declared sees the receiver of the frame it is declared in. -/
theorem function_receives {decl : FunDecl}
    (ht : (Invariant.receiving T).Fits (.exec (.function decl)) m)
    (hr : m.heap.Receives m.frame d o) :
    ∃ r g m', (∀ k, exec p (k + 1) (.function decl) m = .ok .normal m') ∧
      m'.heap.getLocal? m.frame decl.name.lexeme = some (.function r) ∧
      m'.heap.function? r = some g ∧ g.decl = decl ∧ m'.heap.Receives g.closure d o := by
  obtain ⟨k, hs, ho⟩ := ht
  rw [Stmt.Obeys] at ho
  obtain ⟨f, hf⟩ := hr.frame
  refine ⟨(m.heap.newFunction ⟨decl, m.frame, false⟩).1, ⟨decl, m.frame, false⟩,
    _, fun k => rfl, ?_, ?_, rfl, ?_⟩
  · have present : ((m.heap.newFunction ⟨decl, m.frame, false⟩).2.frame? m.frame).isSome = true :=
      Option.isSome_iff_exists.2 ⟨f, hf⟩
    exact (Heap.getLocal?_define _ _ _ _ _ _ present).trans (if_pos ⟨rfl, rfl⟩)
  · simp [Heap.function?, Heap.newFunction, Heap.define]
  · have made : m.heap.Steady (m.heap.newFunction ⟨decl, m.frame, false⟩).2 :=
      .of_frames (Heap.newFunction_grows ..) rfl
    exact hr.steady (made.trans (.define ho.1 _ _))

/-! ## Initializers and new objects -/

/-- A call that returned did so with one call more in progress, which was then taken off the count.
-/
theorem ok_of_counted {α : Type} {c : Eval α} {a : α} (h : counted c m = .ok a m') :
    ∃ m₁, c { m with calls := m.calls + 1 } = .ok a m₁ ∧ m'.heap = m₁.heap := by
  unfold counted at h
  cases hc : c { m with calls := m.calls + 1 } with
  | ok b m₁ =>
    rw [hc] at h
    cases h
    exact ⟨m₁, rfl, rfl⟩
  | error e m₁ =>
    rw [hc] at h
    cases h

/-- Whatever its body returns, an initializer yields its receiver. -/
theorem initializer_yields {v : Value} (hm : (Invariant.receiving T).Holds m.heap)
    (hf : (Invariant.receiving T).Callee m.heap g) (hi : g.isInitializer = true)
    (h : invoke (exec p fuel) g vs m = .ok v m') :
    ∃ o, m.heap.Receives g.closure 0 o ∧ v = .object o := by
  obtain ⟨r, m₁, hr, h⟩ := ok_of_bind h
  obtain ⟨flow, m₂, hflow, h⟩ := ok_of_bind h
  obtain ⟨hm₁, k, hframe, hbody⟩ := (Invariant.callFrame_sustains hm hf
    fun v (_ : v ∈ vs) => trivial).ok hr
  have inside := Invariant.inOrder_sustains ((Invariant.receiving T).exec_sustains p fuel)
    g.decl.body { m₁ with frame := r } ⟨hm₁.holds, hframe⟩ hbody
  obtain ⟨hm₂, -⟩ := inside.inFrame.ok hflow
  obtain ⟨_, -, -, hrec⟩ := hf
  obtain ⟨o, ho⟩ := hrec hi
  have later := (ho.steady (hm₁.leads.trans hm₂.leads)).getAt?
  refine ⟨o, ho, ?_⟩
  unfold callResult at h
  rw [if_pos hi, later] at h
  cases h
  rfl

/-- Making an object yields the new object, also after an initializer has run on it. -/
theorem ok_of_construct {exec : Stmt → Eval Flow} {ref : ClassRef} {c : Class} {v : Value}
    (h : construct exec ref c vs m = .ok v m') :
    v = .object (m.heap.newObject ref).1 ∧
      (c.initializer? = none ∧ m'.heap = (m.heap.newObject ref).2 ∨
        ∃ f w, c.initializer? = some f ∧
          invoke exec ((m.heap.newObject ref).2.bind f (m.heap.newObject ref).1).1 vs
            { m with heap := ((m.heap.newObject ref).2.bind f (m.heap.newObject ref).1).2 } =
              .ok w m') := by
  obtain ⟨o, m₁, ho, h⟩ := ok_of_bind h
  cases ho
  cases hi : c.initializer? with
  | none =>
    rw [hi] at h
    cases h
    exact ⟨rfl, .inl ⟨rfl, rfl⟩⟩
  | some f =>
    rw [hi] at h
    obtain ⟨bound, m₂, hb, h⟩ := ok_of_bind h
    cases hb
    obtain ⟨w, m₃, hw, h⟩ := ok_of_bind h
    cases h
    exact ⟨rfl, .inr ⟨f, w, rfl, hw⟩⟩

/-- A call that comes to an initializer yields its receiver, and so does the initializer. -/
theorem Calls.initializer {callee : Expr} {paren : Token} {args : List Expr} {v : Value}
    (ht : (Invariant.receiving T).Fits (.eval (.call callee paren args)) m)
    (hc : Calls p fuel callee paren args m g vs m₁) (hi : g.isInitializer = true)
    (h : eval p (fuel + 1) (.call callee paren args) m = .ok v m') :
    ∃ o m₂, m₁.heap.Receives g.closure 0 o ∧ v = .object o ∧
      invoke (exec p fuel) g vs m₁ = .ok (.object o) m₂ := by
  obtain ⟨holds, hcallee⟩ := hc.callee ht
  obtain ⟨f, m₂, m₃, c, m₄, hf, hv, hcheck, hinvokes⟩ := hc.reaches
  change (eval p fuel callee >>= _) m = _ at h
  rw [bind_of_ok hf, bind_of_ok hv, bind_of_ok hcheck] at h
  obtain ⟨m₅, h, -⟩ := ok_of_counted h
  cases hinvokes with
  | function =>
    obtain ⟨o, ho, rfl⟩ := initializer_yields holds hcallee hi h
    exact ⟨o, m₅, ho, rfl, h⟩
  | @construct ref c f bound o _ m₆ _ hinit ho hb =>
    cases ho
    cases hb
    obtain ⟨rfl, ⟨hnone, -⟩ | ⟨f', w, hsome, hw⟩⟩ := ok_of_construct h
    · rw [hinit] at hnone
      cases hnone
    · rw [hinit] at hsome
      cases hsome
      obtain ⟨o, ho, rfl⟩ := initializer_yields holds hcallee hi hw
      obtain ⟨-, rfl⟩ := ho.unique (Heap.bind_receives _ f _)
      exact ⟨_, _, ho, rfl, hw⟩

/-- What the call of a class invokes is an initializer. -/
theorem Calls.isInitializer {callee : Expr} {paren : Token} {args : List Expr} {ref : ClassRef}
    {m₂ : Machine} (ht : (Invariant.receiving T).Fits (.eval (.call callee paren args)) m)
    (hf : eval p fuel callee m = .ok (.ofClass ref) m₁)
    (hc : Calls p fuel callee paren args m g vs m₂) : g.isInitializer = true := by
  obtain ⟨f, m₃, m₄, c, m₅, hf', hv, hcheck, hinvokes⟩ := hc.reaches
  rw [hf] at hf'
  cases hf'
  have he := (Invariant.receiving T).eval_sustains p fuel
  obtain ⟨k, hs, ho⟩ := ht
  obtain ⟨hm₁, -⟩ := (he callee k m hs (ho.part (by simp [Expr.names]))).ok hf
  obtain ⟨hm₄, -⟩ := (Invariant.each_sustains he args m₁ (hs.follows hm₁) ho.argument).ok hv
  obtain ⟨-, hcallable, -⟩ := of_checkCall hcheck
  obtain ⟨cls, hcls, rfl⟩ := Option.map_eq_some_iff.1 hcallable
  cases hinvokes with
  | construct hi hmade hb =>
    cases hmade
    cases hb
    obtain ⟨_, -, -, flag⟩ := hm₄.holds.classes ref cls hcls _ _ hi
    exact flag.trans (beq_self_eq_true _)

/-- The call of a class yields a new object of the class. -/
theorem construct_yields {callee : Expr} {paren : Token} {args : List Expr} {v : Value}
    {ref : ClassRef} (hf : eval p fuel callee m = .ok (.ofClass ref) m₁)
    (h : eval p (fuel + 1) (.call callee paren args) m = .ok v m') :
    ∃ vs m₂ o object, each (eval p fuel) args m₁ = .ok vs m₂ ∧ m₂.heap.object? o = none ∧
      v = .object o ∧ m'.heap.object? o = some object ∧ object.classRef = ref := by
  change (eval p fuel callee >>= _) m = _ at h
  rw [bind_of_ok hf] at h
  obtain ⟨vs, _, hv, h⟩ := ok_of_bind h
  obtain ⟨c, m₂, hc, h⟩ := ok_of_bind h
  obtain ⟨rfl, hcallable, -⟩ := of_checkCall hc
  obtain ⟨cls, -, rfl⟩ := Option.map_eq_some_iff.1 hcallable
  obtain ⟨m₄, h, heap⟩ := ok_of_counted h
  have fresh : m₂.heap.object? (m₂.heap.newObject ref).1 = none := by
    simp [Heap.newObject, Heap.object?]
  have made : (m₂.heap.newObject ref).2.object? (m₂.heap.newObject ref).1 = some ⟨ref, ∅⟩ := by
    simp [Heap.newObject, Heap.object?]
  obtain ⟨rfl, ⟨-, same⟩ | ⟨f, w, -, hw⟩⟩ := ok_of_construct h
  · refine ⟨vs, m₂, _, ⟨ref, ∅⟩, hv, fresh, rfl, ?_, rfl⟩
    rw [heap, same]
    exact made
  · have ran : ∀ g, Keeps False (invoke (exec p fuel) g vs) := fun g =>
      invoke_keeps (exec_keeps p fuel) g vs
    obtain ⟨object, hobj, hcls, -⟩ := ((ran _).ok hw).heap.objects _ _ made
    rw [← heap] at hobj
    exact ⟨vs, m₂, _, object, hv, fresh, rfl, hobj, hcls⟩

end Eval
end Lox
