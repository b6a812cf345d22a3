/-
# Reads and writes of resolved names

Wherever a running program comes to, it stands in frames that mirror the scopes around the task it
comes to (`Starts.fits`, `Visits.fits`). An initializer is evaluated before its variable is bound,
while the scopes around it have that variable already (`Expr.Stands`). So a name that the table has
a distance for is bound at that distance when it is read (`reads_bound`), and when it is written,
unless the write stands in the initializer of the variable itself (`writes_bound`).
-/

import Lox.Proofs.Eval.Mirrored
import Lox.Proofs.Eval.Visits
import Lox.Proofs.Tree.Ids

namespace Lox

open Scope (Scopes)

section

variable (T : Distances → Prop) (U : Task → Machine → Prop)

/-- The expression has its places in the scopes, or it is a part of the initializer of a variable
and has them in the scopes with that variable declared. The declaration is one of `U`. -/
inductive Expr.Stands (e : Expr) (scopes : Scopes) : Prop where
  | settled (hp : e.Placed false T scopes)
  | initializer {x : Token} {init : Expr} {m : Machine} (hu : U (.exec (.var x (some init))) m)
      (part : e.names ⊆ init.names) (hp : e.Placed false T (scopes.put x.lexeme .declared))

/-- The active frame mirrors the scopes in which the names of the task have their places. -/
def Task.Fits : Task → Machine → Prop
  | .eval e, m => ∃ scopes, e.Stands T U scopes ∧ m.Stands scopes
  | .exec s, m => ∃ scopes, s.Placed false T scopes ∧ m.Stands scopes

end

section

variable {T : Distances → Prop} {U : Task → Machine → Prop} {e e' : Expr} {scopes : Scopes}

/-- A part of an expression stands where the expression does. -/
theorem Expr.Stands.part (h : e.Stands T U scopes) (part : e'.names ⊆ e.names) :
    e'.Stands T U scopes := by
  cases h with
  | settled hp => exact .settled fun node hn => hp node (part hn)
  | initializer hu sub hp =>
    exact .initializer hu (fun _ hn => sub (part hn)) fun node hn => hp node (part hn)

/-- The names of an expression that stands in scopes are located there. -/
theorem Expr.Stands.located (h : e.Stands T U scopes) : e.Located false T scopes := by
  cases h with
  | settled hp => exact hp.located
  | initializer _ _ hp => exact hp.located_initializer

end

namespace Eval

variable {T : Distances → Prop} {U : Task → Machine → Prop} {p : Setting} {fuel : Nat}
  {m m' : Machine}

section

variable {α : Type} {pre : Machine → Prop} {c : Eval α} {post : α → Machine → Prop} {a : α}

/-- What is known of a result and of the machine it is left on. -/
theorem Binds.ok (hc : Binds T pre c post) (hb : m.heap.Bound T) (hm : pre m)
    (h : c m = .ok a m') : m'.heap.Bound T ∧ post a m' := by
  obtain ⟨hb', hp⟩ := hc m hb hm
  exact ⟨after_ok h ▸ hb', hp a m' h⟩

end

/-- Behind an expression the heap is bound and the scopes are mirrored as before. -/
theorem eval_ok {scopes : Scopes} {e : Expr} {v : Value} (hb : m.heap.Bound T)
    (hs : m.Stands scopes) (h : eval p fuel e m = .ok v m') :
    m'.heap.Bound T ∧ m'.Stands scopes :=
  (eval_standing (eval_exec_binds T p fuel).1 (eval_keeps p fuel) scopes e).ok hb hs h

/-- So they are behind several of them. -/
theorem each_ok {scopes : Scopes} {es : List Expr} {vs : List Value} (hb : m.heap.Bound T)
    (hs : m.Stands scopes) (h : each (eval p fuel) es m = .ok vs m') :
    m'.heap.Bound T ∧ m'.Stands scopes :=
  ⟨((each_binds (eval_exec_binds T p fuel).1 es).ok hb trivial h).1,
    hs.kept ((each_keeps (eval_keeps p fuel) es).ok h)⟩

/-- Behind the statements before it a statement stands in frames that mirror its scopes. -/
theorem inOrder_fits : ∀ {pre : List Stmt} {s : Stmt} {post : List Stmt} {scopes : Scopes}
    {m : Machine}, Stmt.PlacedList false T (pre ++ s :: post) scopes → m.heap.Bound T →
      m.Stands scopes → inOrder (exec p fuel) pre m = .ok .normal m' →
        m'.heap.Bound T ∧ (Task.exec s).Fits T U m'
  | [], s, post, scopes, m, hp, hb, hs, h => by
    cases h
    rw [List.nil_append, Stmt.PlacedList] at hp
    exact ⟨hb, scopes, hp.1, hs⟩
  | s₁ :: pre, s, post, scopes, m, hp, hb, hs, h => by
    rw [List.cons_append, Stmt.PlacedList] at hp
    cases h₁ : exec p fuel s₁ m with
    | error e m₁ =>
      have : inOrder (exec p fuel) (s₁ :: pre) m = .error e m₁ := bind_of_error h₁
      rw [this] at h
      cases h
    | ok flow m₁ =>
      have := (bind_of_ok h₁).symm.trans h
      cases flow with
      | returned v => cases this
      | normal =>
        obtain ⟨hb₁, hs₁⟩ := ((eval_exec_binds T p fuel).2 s₁ scopes hp.1).ok hb hs h₁
        exact inOrder_fits hp.2 hb₁ (hs₁ rfl) this

/-- The frame of a call mirrors the scopes that the body is placed in. -/
theorem callFrame_fits {f : Function} {args : List Value} {r : FrameRef} (hb : m.heap.Bound T)
    (hf : f.Bound T m.heap) (ha : args.length = f.arity) (h : callFrame f args m = .ok r m') :
    m'.heap.Bound T ∧ ∃ scopes, Stmt.PlacedList false T f.decl.body scopes ∧
      Machine.Stands scopes { m' with frame := r } := by
  obtain ⟨scopes, hp, hm⟩ := hf
  obtain ⟨⟨_, params, stmts⟩, _, _⟩ := f
  cases h
  rw [FunDecl.Placed] at hp
  exact ⟨hb.grows (Heap.newFrame_grows ..) rfl rfl,
    _, hp, hm.newFrame (Scope.ofParams_within ha)⟩

/-- So does the frame that any call runs a body in. -/
theorem Enters.fits {args : List Value} {c : Callable} {body : List Stmt}
    (h : Enters args c m body m') (hb : m.heap.Bound T) (hc : c.Bound T m.heap)
    (ha : args.length = c.arity) :
    m'.heap.Bound T ∧ ∃ scopes, Stmt.PlacedList false T body scopes ∧ m'.Stands scopes := by
  cases h with
  | function hf =>
    obtain ⟨hb', hfits⟩ := callFrame_fits hb hc ha hf
    exact ⟨hb', hfits⟩
  | @construct ref c f bound o _ m₁ m₂ m₃ r hi ho hbind hf =>
    obtain ⟨scopes, hp, hm⟩ := hc _ f hi
    have g : m.heap.Grows (fun _ => True) (m.heap.newObject ref).2 := Heap.newObject_grows ..
    have hb₁ := (hb.grows g rfl rfl).grows (Heap.bind_grows _ f (m.heap.newObject ref).1) rfl rfl
    have hf₁ := Function.Bound.bind hp (hm.grows g) (m.heap.newObject ref).1
    simp only [Callable.arity, hi] at ha
    have made : m₂.heap.Bound T ∧ bound.Bound T m₂.heap ∧ args.length = bound.arity := by
      cases ho
      cases hbind
      exact ⟨hb₁, hf₁, ha⟩
    obtain ⟨hb', hfits⟩ := callFrame_fits made.1 made.2.1 made.2.2 hf
    exact ⟨hb', hfits⟩

/-- What a task starts fits where it is started. -/
theorem Starts.fits {t t' : Task} (h : Starts p fuel t m t' m') (hb : m.heap.Bound T) (hu : U t m)
    (ht : t.Fits T U m) : m'.heap.Bound T ∧ t'.Fits T U m' := by
  cases t with
  | eval e =>
    obtain ⟨scopes, hp, hs⟩ := ht
    cases h with
    | grouping | operand | left | first | assigned | callee | getObject | setObject =>
      exact ⟨hb, scopes, hp.part (by simp [Expr.names]), hs⟩
    | right hl | second hl | setValue hl =>
      obtain ⟨hb₁, hs₁⟩ := eval_ok hb hs hl
      exact ⟨hb₁, scopes, hp.part (by simp [Expr.names]), hs₁⟩
    | argument hf hv =>
      obtain ⟨hb₁, hs₁⟩ := eval_ok hb hs hf
      obtain ⟨hb₂, hs₂⟩ := each_ok hb₁ hs₁ hv
      refine ⟨hb₂, scopes, hp.part fun node hn => ?_, hs₂⟩
      rw [Expr.names]
      exact List.mem_append_right _
        (Expr.mem_namesList (List.mem_append_right _ (List.mem_cons_self ..)) hn)
    | body hf hv hc hbody hpre =>
      obtain ⟨hb₁, hs₁⟩ := eval_ok hb hs hf
      obtain ⟨hb₂, hs₂⟩ := each_ok hb₁ hs₁ hv
      obtain ⟨hb₃, hbound, ha⟩ := (checkCall_binds _ _ _).ok hb₂ trivial hc
      obtain ⟨hb₄, inner, hp₄, hs₄⟩ := hbody.fits hb₃ hbound ha
      exact inOrder_fits hp₄ hb₄ hs₄ hpre
  | exec s =>
    obtain ⟨scopes, hp, hs⟩ := ht
    cases h with
    | expression | print =>
      rw [Stmt.Placed] at hp
      exact ⟨hb, scopes, .settled hp, hs⟩
    | initializer =>
      rw [Stmt.Placed] at hp
      exact ⟨hb, scopes, .initializer hu (fun _ h => h) (hp.2 _ rfl), hs⟩
    | inner hf hpre =>
      rw [Stmt.Placed] at hp
      cases hf
      have hb₁ := hb.grows (Heap.newFrame_grows _ m.frame ∅) rfl rfl
      have hs₁ : Machine.Stands (∅ :: scopes) { m with
        heap := (m.heap.newFrame m.frame ∅).2, frame := ⟨m.heap.frames.size⟩ } :=
        Heap.Mirrors.newFrame hs fun _ h => h
      exact inOrder_fits hp hb₁ hs₁ hpre
    | @condition _ _ _ elseB =>
      cases elseB <;> rw [Stmt.Placed] at hp <;> exact ⟨hb, scopes, .settled hp.1, hs⟩
    | @thenBranch _ _ _ _ elseB _ hc =>
      obtain ⟨hb₁, hs₁⟩ := eval_ok hb hs hc
      cases elseB with
      | none =>
        rw [Stmt.Placed] at hp
        exact ⟨hb₁, scopes, hp.2.2, hs₁⟩
      | some s =>
        rw [Stmt.Placed] at hp
        exact ⟨hb₁, scopes, hp.2.1.2, hs₁⟩
    | elseBranch hc =>
      rw [Stmt.Placed] at hp
      obtain ⟨hb₁, hs₁⟩ := eval_ok hb hs hc
      exact ⟨hb₁, scopes, hp.2.2.2, hs₁⟩
    | guard =>
      rw [Stmt.Placed] at hp
      exact ⟨hb, scopes, .settled hp.1, hs⟩
    | round hc =>
      rw [Stmt.Placed] at hp
      obtain ⟨hb₁, hs₁⟩ := eval_ok hb hs hc
      exact ⟨hb₁, scopes, hp.2.2, hs₁⟩
    | again hc _ hbody =>
      have hp' := hp
      rw [Stmt.Placed] at hp'
      obtain ⟨hb₁, hs₁⟩ := eval_ok hb hs hc
      obtain ⟨hb₂, hs₂⟩ := (plain_binds (eval_exec_binds T p fuel).2 hp'.2).ok hb₁ hs₁ hbody
      exact ⟨hb₂, scopes, hp, hs₂ rfl⟩
    | returned =>
      rw [Stmt.Placed] at hp
      exact ⟨hb, scopes, .settled (hp _ rfl), hs⟩

/-- Whatever a running program comes to fits where it comes to it. -/
theorem Visits.fits {t t' : Task} (h : Visits p fuel t m t' m') (hb : m.heap.Bound T)
    (hU : ∀ t' m', Visits p fuel t m t' m' → U t' m') (ht : t.Fits T U m) :
    m'.heap.Bound T ∧ t'.Fits T U m' := by
  induction h with
  | self => exact ⟨hb, ht⟩
  | part hs _ ih =>
    obtain ⟨hb₁, ht₁⟩ := hs.fits hb (hU _ _ .self) ht
    exact ih hb₁ (fun _ _ hv => hU _ _ (.part hs hv)) ht₁

/-- A name that is read and that the table has a distance for is bound at that distance. -/
theorem reads_bound {e : Expr} {use : NameUse} {id : NodeId} {name : Token} {d : Nat}
    (he : (Task.eval e).Fits T U m) (hn : ⟨use, id, name⟩ ∈ e.names) (hu : use ≠ .write)
    {D : Distances} (hT : T D) (hd : D.get? id = some d) :
    ∃ a, m.heap.ancestor? m.frame d = some a ∧
      (m.heap.getLocal? a name.lexeme).isSome = true := by
  obtain ⟨scopes, hp, hs⟩ := he
  have := hp.located _ hn (fun h => absurd h hu) D hT
  exact hs.bound (this.symm.trans hd)

/-- A name that is written and that the table has a distance for is bound at that distance, or the
write is a part of the initializer of the variable it means. -/
theorem writes_bound {e : Expr} {use : NameUse} {id : NodeId} {name : Token} {d : Nat}
    (he : (Task.eval e).Fits T U m) (hn : ⟨use, id, name⟩ ∈ e.names)
    {D : Distances} (hT : T D) (hd : D.get? id = some d) :
    (∃ a, m.heap.ancestor? m.frame d = some a ∧
      (m.heap.getLocal? a name.lexeme).isSome = true) ∨
    d = 0 ∧ ∃ x init m₀, U (.exec (.var x (some init))) m₀ ∧ ⟨use, id, name⟩ ∈ init.names ∧
      x.lexeme = name.lexeme := by
  obtain ⟨scopes, hp, hs⟩ := he
  cases hp with
  | settled hp => exact .inl (hs.bound (((hp _ hn).distance D hT).symm.trans hd))
  | @initializer x init m₀ hu part hp =>
    have found := ((hp _ hn).distance D hT).symm.trans hd
    cases scopes with
    | nil => simp [Scopes.put, Scopes.distance?] at found
    | cons scope outer =>
      by_cases hx : x.lexeme = name.lexeme
      · simp [Scopes.put, Scopes.distance?, List.findIdx?_cons, hx] at found
        exact .inr ⟨found.symm, x, init, m₀, hu, part hn, hx⟩
      · refine .inl (hs.bound ?_)
        simpa [Scopes.put, Scopes.distance?, List.findIdx?_cons, hx] using found

end Eval

end Lox
