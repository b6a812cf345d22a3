/-
# Variables of two evaluators

A variable of the evaluator with distances is a name in a frame. `Pairing.home` tells in which frame
of the lexical evaluator's heap it lives. A frame of the one and a frame of the other are the same
place in the program (`Pairing.View`) if each name leads from both to one variable. What the heaps
hold is the same as far as programs can tell (`Pairing.Matched`); each operation of a running
program keeps it so.
-/

import Lox.Proofs.Heap.Alike
import Lox.Proofs.Lexical.Frames

namespace Lox

open Scope (Scopes)

namespace Lexical

/-- The heaps of the two evaluators, and for each variable of the first the frame of the second in
which it lives. -/
structure Pairing where
  real : Heap
  lexical : Heap
  home : FrameRef → String → FrameRef

namespace Pairing

/-- The variable exists. -/
def Bound (w : Pairing) (r : FrameRef) (name : String) : Prop :=
  (w.real.getLocal? r name).isSome = true

/-- `w'` can come from `w`: frames of the lexical heap other than the global one gain no names, and
variables stay where they are. -/
structure Later (w w' : Pairing) : Prop where
  real : w.real.Grows (fun _ => True) w'.real
  lexical : w.lexical.Grows (fun r => r = .global) w'.lexical
  home : ∀ r name, w.Bound r name → w'.home r name = w.home r name

/-- The frames `r` and `e` are the same place in the given scopes. -/
structure View (w : Pairing) (scopes : Scopes) (r e : FrameRef) : Prop where
  present : (w.real.frame? r).isSome = true
  found : ∀ name d, scopes.distance? name = some d → ∃ a, w.real.ancestor? r d = some a ∧
    w.Bound a name ∧ w.lexical.Outward name e (w.home a name)
  missing : ∀ name, scopes.distance? name = none → w.lexical.Outward name e .global
  outermost : scopes = [] → r = .global ∧ e = .global
  inner : scopes ≠ [] → r ≠ .global ∧ e ≠ .global

variable {w w' w'' : Pairing}

/-- A pairing may stay as it is. -/
theorem Later.refl (w : Pairing) : w.Later w := ⟨.refl _, .refl _, fun _ _ _ => rfl⟩

/-- What is later than a later pairing is later. -/
theorem Later.trans (l : w.Later w') (l' : w'.Later w'') : w.Later w'' where
  real := l.real.trans l'.real
  lexical := l.lexical.trans l'.lexical
  home r name hb := (l'.home r name (l.real.bound hb)).trans (l.home r name hb)

/-- Frames that are the same place stay so. -/
theorem View.later {scopes : Scopes} {r e : FrameRef} (v : w.View scopes r e) (l : w.Later w') :
    w'.View scopes r e where
  present := by
    obtain ⟨f, hf⟩ := Option.isSome_iff_exists.1 v.present
    obtain ⟨f', hf', -⟩ := l.real.frames r f hf
    simp [hf']
  found name d hd := by
    obtain ⟨a, ha, hb, ho⟩ := v.found name d hd
    refine ⟨a, Heap.ancestor?_grows l.real ha, l.real.bound hb, ?_⟩
    rw [l.home a name hb]
    exact ho.grows l.lexical
  missing name hd := (v.missing name hd).grows l.lexical
  outermost := v.outermost
  inner := v.inner

/-- The frame of a place is there in the lexical heap. -/
theorem View.lexical_present {scopes : Scopes} {r e : FrameRef} (v : w.View scopes r e) :
    (w.lexical.frame? e).isSome = true := by
  have present : ∀ {a : FrameRef}, w.lexical.Outward "" e a →
      (w.lexical.frame? e).isSome = true := by
    intro a ho
    cases ho with
    | here hf _ => exact hf
    | out hf => simp [hf]
  cases hd : scopes.distance? "" with
  | none => exact present (v.missing "" hd)
  | some d =>
    obtain ⟨a, -, -, ho⟩ := v.found "" d hd
    exact present ho

section

variable (T : Distances → Prop) (w : Pairing)

/-- Functions of one declaration, made at the same place. An initializer finds its receiver in the
frame it was made in. -/
structure FunctionMatch (f f' : Function) : Prop where
  decl : f'.decl = f.decl
  isInitializer : f'.isInitializer = f.isInitializer
  place : ∃ scopes, f.decl.Placed true T scopes ∧ w.View scopes f.closure f'.closure
  receiver : f.isInitializer = true →
    w.Bound f.closure Heap.receiverName ∧ w.home f.closure Heap.receiverName = f'.closure

/-- Methods of one declaration, of classes made at the same place. -/
structure MethodMatch (f f' : Function) : Prop where
  decl : f'.decl = f.decl
  isInitializer : f'.isInitializer = f.isInitializer
  place : ∃ scopes, f.decl.Placed true T (Scope.ofClass :: scopes) ∧
    w.View scopes f.closure f'.closure

/-- The frames of both heaps hold the same variables with the same values. -/
structure Paired : Prop where
  values : ∀ r name, w.Bound r name →
    w.lexical.getLocal? (w.home r name) name = w.real.getLocal? r name
  apart : ∀ r r' name, w.Bound r name → w.Bound r' name → w.home r name = w.home r' name → r = r'
  home : ∀ name, w.home .global name = .global
  globals : ∀ name, w.lexical.getLocal? .global name = w.real.getLocal? .global name
  real_global : (w.real.frame? .global).isSome = true
  lexical_global : (w.lexical.frame? .global).isSome = true

/-- The heaps are the same as far as programs can tell. -/
structure Matched : Prop extends w.Paired where
  alike : w.real.Alike (w.FunctionMatch T) (w.MethodMatch T) w.lexical

end

variable {T : Distances → Prop}

/-- Functions stay matched. -/
theorem FunctionMatch.later {f f' : Function} (hf : w.FunctionMatch T f f') (l : w.Later w') :
    w'.FunctionMatch T f f' where
  decl := hf.decl
  isInitializer := hf.isInitializer
  place := by
    obtain ⟨scopes, hp, hv⟩ := hf.place
    exact ⟨scopes, hp, hv.later l⟩
  receiver hi := by
    obtain ⟨hb, hh⟩ := hf.receiver hi
    exact ⟨l.real.bound hb, (l.home _ _ hb).trans hh⟩

/-- Methods stay matched. -/
theorem MethodMatch.later {f f' : Function} (hf : w.MethodMatch T f f') (l : w.Later w') :
    w'.MethodMatch T f f' where
  decl := hf.decl
  isInitializer := hf.isInitializer
  place := by
    obtain ⟨scopes, hp, hv⟩ := hf.place
    exact ⟨scopes, hp, hv.later l⟩

/-- Matched functions look the same from outside. -/
theorem FunctionMatch.sameFace {f f' : Function} (hf : w.FunctionMatch T f f') : f.SameFace f' :=
  ⟨by rw [hf.decl], by rw [Function.arity, hf.decl, Function.arity]⟩

/-- Matched methods look the same from outside. -/
theorem MethodMatch.sameFace {f f' : Function} (hf : w.MethodMatch T f f') : f.SameFace f' :=
  ⟨by rw [hf.decl], by rw [Function.arity, hf.decl, Function.arity]⟩

/-- Heaps stay alike by what matches functions and methods. -/
theorem alike_later {h h' : Heap} (ha : h.Alike (w.FunctionMatch T) (w.MethodMatch T) h')
    (l : w.Later w') : h.Alike (w'.FunctionMatch T) (w'.MethodMatch T) h' :=
  ha.mono (fun _ _ hf => hf.later l) fun _ _ hf => hf.later l

/-- Only the global frame is the home of global variables. -/
theorem Paired.home_ne_global (h : w.Paired) {r : FrameRef} {name : String} (hb : w.Bound r name)
    (hr : r ≠ .global) : w.home r name ≠ .global := by
  intro hh
  have hg : w.Bound .global name := by
    rw [Bound, ← h.globals, ← hh, h.values r name hb]
    exact hb
  exact hr (h.apart r .global name hb hg (hh.trans (h.home name).symm))

/-- A variable that exists is bound in the frame it lives in. -/
theorem Paired.home_bound (h : w.Paired) {r : FrameRef} {name : String} (hb : w.Bound r name) :
    (w.lexical.getLocal? (w.home r name) name).isSome = true := by
  rw [h.values r name hb]
  exact hb

/-! ## Assignments -/

/-- A new value for a variable. -/
def assign (w : Pairing) (a : FrameRef) (name : String) (v : Value) : Pairing :=
  ⟨w.real.define a name v, w.lexical.define (w.home a name) name v, w.home⟩

/-- A new value for a variable leaves a later pairing. -/
theorem assign_later (h : w.Paired) {a : FrameRef} {name : String} (hb : w.Bound a name)
    (v : Value) : w.Later (w.assign a name v) where
  real := Heap.define_grows _ _ _ _ (.inl trivial)
  lexical := Heap.define_grows _ _ _ _ (.inr (h.home_bound hb))
  home _ _ _ := rfl

/-- Heaps stay matched when a variable is assigned on both sides. -/
theorem Matched.assign (h : w.Matched T) {a : FrameRef} {name : String} (hb : w.Bound a name)
    (v : Value) : (w.assign a name v).Matched T := by
  have ha := Heap.frame?_isSome_of_getLocal? hb
  have he := Heap.frame?_isSome_of_getLocal? (h.home_bound hb)
  have hreal := fun r n => w.real.getLocal?_define a r name n v ha
  have hlex := fun r n => w.lexical.getLocal?_define (w.home a name) r name n v he
  have hold : ∀ r n, (w.assign a name v).Bound r n → w.Bound r n := by
    intro r n hr
    rw [Bound, Pairing.assign, hreal] at hr
    split at hr
    · rename_i hc
      exact hc.1 ▸ hc.2 ▸ hb
    · exact hr
  refine ⟨⟨fun r n hr => ?_, fun r r' n hr hr' => h.apart r r' n (hold r n hr) (hold r' n hr'),
    h.home, fun n => ?_, ?_, ?_⟩, ?_⟩
  · simp only [Pairing.assign, hreal, hlex]
    by_cases hc : a = r ∧ name = n
    · obtain ⟨rfl, rfl⟩ := hc
      simp
    · have : ¬ (w.home a name = w.home r n ∧ name = n) := by
        rintro ⟨hh, rfl⟩
        exact hc ⟨h.apart a r name hb (hold r name hr) hh, rfl⟩
      simp only [hc, this, if_false]
      exact h.values r n (hold r n hr)
  · simp only [Pairing.assign, hreal, hlex]
    by_cases hg : a = .global
    · subst hg
      simp [h.home, h.globals]
    · have := h.home_ne_global hb hg
      simp [hg, this, h.globals]
  · simp [Pairing.assign, Heap.frame?_define_eq, h.real_global]
  · simp [Pairing.assign, Heap.frame?_define_eq, h.lexical_global]
  · exact alike_later (h.alike.of_eq rfl rfl rfl rfl rfl rfl) (assign_later h.toPaired hb v)

/-! ## Declarations -/

/-- A new global variable, or a new value for one. -/
def declareGlobal (w : Pairing) (name : String) (v : Value) : Pairing :=
  ⟨w.real.define .global name v, w.lexical.define .global name v, w.home⟩

/-- A global declaration leaves a later pairing. -/
theorem declareGlobal_later (w : Pairing) (name : String) (v : Value) :
    w.Later (w.declareGlobal name v) where
  real := Heap.define_grows _ _ _ _ (.inl trivial)
  lexical := Heap.define_grows _ _ _ _ (.inl rfl)
  home _ _ _ := rfl

/-- Heaps stay matched when a global name is declared on both sides. -/
theorem Matched.declareGlobal (h : w.Matched T) (name : String) (v : Value) :
    (w.declareGlobal name v).Matched T := by
  have hreal := fun r n => w.real.getLocal?_define .global r name n v h.real_global
  have hlex := fun r n => w.lexical.getLocal?_define .global r name n v h.lexical_global
  have hold : ∀ r n, r ≠ .global → (w.declareGlobal name v).Bound r n → w.Bound r n := by
    intro r n hg hr
    rw [Bound, Pairing.declareGlobal, hreal] at hr
    simpa [Bound, Ne.symm hg] using hr
  refine ⟨⟨fun r n hr => ?_, fun r r' n hr hr' hh => ?_, h.home, fun n => ?_, ?_, ?_⟩, ?_⟩
  · simp only [Pairing.declareGlobal, hreal, hlex]
    by_cases hg : r = .global
    · subst hg
      simp [h.home, h.globals]
    · have := h.home_ne_global (hold r n hg hr) hg
      simp only [Ne.symm hg, Ne.symm this, false_and, if_false]
      exact h.values r n (hold r n hg hr)
  · by_cases hg : r = .global
    · by_cases hg' : r' = .global
      · rw [hg, hg']
      · rw [hg] at hh
        exact absurd (hh.symm.trans (h.home n)) (h.home_ne_global (hold r' n hg' hr') hg')
    · by_cases hg' : r' = .global
      · rw [hg'] at hh
        exact absurd (hh.trans (h.home n)) (h.home_ne_global (hold r n hg hr) hg)
      · exact h.apart r r' n (hold r n hg hr) (hold r' n hg' hr') hh
  · simp only [Pairing.declareGlobal, hreal, hlex, h.globals]
  · simp [Pairing.declareGlobal, Heap.frame?_define_eq, h.real_global]
  · simp [Pairing.declareGlobal, Heap.frame?_define_eq, h.lexical_global]
  · exact alike_later (h.alike.of_eq rfl rfl rfl rfl rfl rfl) (declareGlobal_later w name v)

/-- A new local variable, in a frame of its own in the lexical heap. -/
def declare (w : Pairing) (r e : FrameRef) (name : String) (v : Value) : Pairing :=
  ⟨w.real.define r name v,
    (w.lexical.newFrame e ∅).2.define ⟨w.lexical.frames.size⟩ name v,
    fun r' n => if r' = r ∧ n = name then ⟨w.lexical.frames.size⟩ else w.home r' n⟩

/-- The frame that is opened for a local variable binds it and nothing else. -/
theorem getLocal?_declared (h : Heap) (e r : FrameRef) (name n : String) (v : Value) :
    ((h.newFrame e ∅).2.define ⟨h.frames.size⟩ name v).getLocal? r n =
      if r = ⟨h.frames.size⟩ then (if name = n then some v else none)
      else h.getLocal? r n := by
  rw [Heap.getLocal?_define _ _ _ _ _ _ (by simp [Heap.frame?_newFrame]), Heap.getLocal?_newFrame]
  by_cases hr : r = ⟨h.frames.size⟩
  · subst hr
    simp
  · simp [hr, Ne.symm hr]

/-- A local declaration leaves a later pairing. -/
theorem declare_later (w : Pairing) {r : FrameRef} (e : FrameRef) {name : String}
    (hn : ¬ w.Bound r name) (v : Value) : w.Later (w.declare r e name v) where
  real := Heap.define_grows _ _ _ _ (.inl trivial)
  lexical := by
    have g : w.lexical.Grows (fun r => r = ⟨w.lexical.frames.size⟩)
        (w.declare r e name v).lexical :=
      (Heap.newFrame_grows ..).trans (Heap.define_grows _ _ _ _ (.inl rfl))
    refine g.weaken fun r f hf hr => absurd hr (Heap.ne_size_of_present (by simp [hf]))
  home r' n hb := by
    refine if_neg ?_
    rintro ⟨rfl, rfl⟩
    exact hn hb

/-- Heaps stay matched when a local variable is added to a frame of the one and has a frame of its
own in the other. -/
theorem Matched.declare (h : w.Matched T) {r e : FrameRef} {name : String}
    (hr : (w.real.frame? r).isSome = true) (hg : r ≠ .global) (hn : ¬ w.Bound r name) (v : Value) :
    (w.declare r e name v).Matched T := by
  have hreal := fun r' n => w.real.getLocal?_define r r' name n v hr
  have hlex := fun r' n => getLocal?_declared w.lexical e r' name n v
  have hold : ∀ r' n, ¬ (r' = r ∧ n = name) → (w.declare r e name v).Bound r' n →
      w.Bound r' n := by
    intro r' n hne hb
    rw [Bound, Pairing.declare, hreal] at hb
    rwa [if_neg fun hc => hne ⟨hc.1.symm, hc.2.symm⟩] at hb
  -- The home of an old variable is an old frame.
  have hhome : ∀ r' n, w.Bound r' n → w.home r' n ≠ ⟨w.lexical.frames.size⟩ := fun r' n hb =>
    Heap.ne_size_of_present (Heap.frame?_isSome_of_getLocal? (h.home_bound hb))
  refine ⟨⟨fun r' n hb => ?_, fun r₁ r₂ n hb₁ hb₂ hh => ?_, fun n => ?_, fun n => ?_, ?_, ?_⟩, ?_⟩
  · simp only [Pairing.declare, hreal, hlex]
    by_cases hc : r' = r ∧ n = name
    · obtain ⟨rfl, rfl⟩ := hc
      simp
    · have hc' : ¬ (r = r' ∧ name = n) := fun hc' => hc ⟨hc'.1.symm, hc'.2.symm⟩
      simp only [hc, hc', if_false, hhome r' n (hold r' n hc hb)]
      exact h.values r' n (hold r' n hc hb)
  · simp only [Pairing.declare] at hh
    by_cases hc₁ : r₁ = r ∧ n = name
    · by_cases hc₂ : r₂ = r ∧ n = name
      · rw [hc₁.1, hc₂.1]
      · rw [if_pos hc₁, if_neg hc₂] at hh
        exact absurd hh.symm (hhome r₂ n (hold r₂ n hc₂ hb₂))
    · by_cases hc₂ : r₂ = r ∧ n = name
      · rw [if_neg hc₁, if_pos hc₂] at hh
        exact absurd hh (hhome r₁ n (hold r₁ n hc₁ hb₁))
      · rw [if_neg hc₁, if_neg hc₂] at hh
        exact h.apart r₁ r₂ n (hold r₁ n hc₁ hb₁) (hold r₂ n hc₂ hb₂) hh
  · exact (if_neg fun hc => hg hc.1.symm).trans (h.home n)
  · simp only [Pairing.declare, hreal, hlex, hg, false_and, if_false,
      Heap.ne_size_of_present h.lexical_global, h.globals]
  · simp [Pairing.declare, Heap.frame?_define_eq, h.real_global]
  · simp [Pairing.declare, Heap.frame?_define_eq, Heap.frame?_newFrame, h.lexical_global,
      Heap.ne_size_of_present h.lexical_global]
  · exact alike_later (h.alike.of_eq rfl rfl rfl rfl rfl rfl) (declare_later w e hn v)

/-- A name that is declared in the innermost scope is no scope away, and the others are where they
were. -/
theorem distance?_put {scopes : Scopes} (hs : scopes ≠ []) (name n : String) :
    (scopes.put name .defined).distance? n = if name = n then some 0 else scopes.distance? n := by
  cases scopes with
  | nil => exact absurd rfl hs
  | cons scope outer =>
    by_cases hn : name = n <;> simp [Scopes.distance?, Scopes.put, List.findIdx?_cons, hn]

/-- Behind the declaration the two frames are the same place, with the name in its scopes. -/
theorem View.declare {scopes : Scopes} {r e : FrameRef} (hv : w.View scopes r e)
    (hs : scopes ≠ []) {name : String} (hn : ¬ w.Bound r name) (v : Value)
    (hg : (w.lexical.frame? .global).isSome = true) :
    (w.declare r e name v).View (scopes.put name .defined) r ⟨w.lexical.frames.size⟩ := by
  have later := hv.later (declare_later w e hn v)
  have hlex := fun r' n => getLocal?_declared w.lexical e r' name n v
  have hne : (⟨w.lexical.frames.size⟩ : FrameRef) ≠ .global := (Heap.ne_size_of_present hg).symm
  have frame : (w.declare r e name v).lexical.frame? ⟨w.lexical.frames.size⟩ =
      some ⟨(∅ : Bindings Value).insert name v, some e⟩ := by
    simp [Pairing.declare, Heap.frame?_define_eq, Heap.frame?_newFrame]
  have hi : e.index < w.lexical.frames.size := by
    obtain ⟨f, hf⟩ := Option.isSome_iff_exists.1 hv.lexical_present
    exact Heap.lt_size_of_frame? hf
  have outside : ∀ {n a}, name ≠ n → (w.declare r e name v).lexical.Outward n e a →
      (w.declare r e name v).lexical.Outward n ⟨w.lexical.frames.size⟩ a := by
    intro n a hn ho
    exact .out frame hne (by simp [Pairing.declare, hlex, hn]) rfl hi ho
  refine ⟨later.present, fun n d hd => ?_, fun n hd => ?_, fun he => ?_, fun _ => ?_⟩
  · rw [distance?_put hs] at hd
    split at hd
    · rename_i hname
      subst hname
      cases hd
      refine ⟨r, ?_, ?_, ?_⟩
      · obtain ⟨f, hf⟩ := Option.isSome_iff_exists.1 later.present
        simp [Heap.ancestor?, hf]
      · rw [Bound, Pairing.declare, Heap.getLocal?_define _ _ _ _ _ _ hv.present]
        simp
      · have home : (w.declare r e name v).home r name = ⟨w.lexical.frames.size⟩ :=
          if_pos ⟨rfl, rfl⟩
        rw [home]
        exact .here (by simp [frame]) (.inr (by simp [Pairing.declare, hlex]))
    · rename_i hname
      obtain ⟨a, ha, hb, ho⟩ := later.found n d hd
      exact ⟨a, ha, hb, outside hname ho⟩
  · rw [distance?_put hs] at hd
    split at hd
    · cases hd
    · rename_i hname
      exact outside hname (later.missing n hd)
  · cases scopes with
    | nil => exact absurd rfl hs
    | cons scope outer => cases he
  · exact ⟨(hv.inner hs).1, hne⟩

/-! ## New frames -/

/-- A new frame in both heaps. -/
def enter (w : Pairing) (r e : FrameRef) (values : Bindings Value) : Pairing :=
  ⟨(w.real.newFrame r values).2, (w.lexical.newFrame e values).2,
    fun r' n => if r' = ⟨w.real.frames.size⟩ then ⟨w.lexical.frames.size⟩ else w.home r' n⟩

/-- A new frame on both sides leaves a later pairing. -/
theorem enter_later (w : Pairing) (r e : FrameRef) (values : Bindings Value) :
    w.Later (w.enter r e values) where
  real := Heap.newFrame_grows ..
  lexical := Heap.newFrame_grows ..
  home _ _ hb := if_neg (Heap.ne_size_of_present (Heap.frame?_isSome_of_getLocal? hb))

/-- Heaps stay matched when a frame with the same bindings is opened on both sides. -/
theorem Matched.enter (h : w.Matched T) (r e : FrameRef) (values : Bindings Value) :
    (w.enter r e values).Matched T := by
  have hreal := fun r' n => w.real.getLocal?_newFrame r values r' n
  have hlex := fun r' n => w.lexical.getLocal?_newFrame e values r' n
  have hold : ∀ r' n, r' ≠ ⟨w.real.frames.size⟩ → (w.enter r e values).Bound r' n →
      w.Bound r' n := by
    intro r' n hne hb
    rw [Bound, Pairing.enter, hreal] at hb
    rwa [if_neg hne] at hb
  have hhome : ∀ r' n, w.Bound r' n → w.home r' n ≠ ⟨w.lexical.frames.size⟩ := fun r' n hb =>
    Heap.ne_size_of_present (Heap.frame?_isSome_of_getLocal? (h.home_bound hb))
  have hg := Heap.ne_size_of_present h.real_global
  have hg' := Heap.ne_size_of_present h.lexical_global
  refine ⟨⟨fun r' n hb => ?_, fun r₁ r₂ n hb₁ hb₂ hh => ?_, fun n => ?_, fun n => ?_, ?_, ?_⟩, ?_⟩
  · simp only [Pairing.enter, hreal, hlex]
    by_cases hc : r' = ⟨w.real.frames.size⟩
    · simp [hc]
    · simp only [hc, if_false, hhome r' n (hold r' n hc hb)]
      exact h.values r' n (hold r' n hc hb)
  · simp only [Pairing.enter] at hh
    by_cases hc₁ : r₁ = ⟨w.real.frames.size⟩
    · by_cases hc₂ : r₂ = ⟨w.real.frames.size⟩
      · rw [hc₁, hc₂]
      · rw [if_pos hc₁, if_neg hc₂] at hh
        exact absurd hh.symm (hhome r₂ n (hold r₂ n hc₂ hb₂))
    · by_cases hc₂ : r₂ = ⟨w.real.frames.size⟩
      · rw [if_neg hc₁, if_pos hc₂] at hh
        exact absurd hh (hhome r₁ n (hold r₁ n hc₁ hb₁))
      · rw [if_neg hc₁, if_neg hc₂] at hh
        exact h.apart r₁ r₂ n (hold r₁ n hc₁ hb₁) (hold r₂ n hc₂ hb₂) hh
  · exact (if_neg hg).trans (h.home n)
  · simp only [Pairing.enter, hreal, hlex, hg, hg', if_false, h.globals]
  · simp [Pairing.enter, Heap.frame?_newFrame, hg, h.real_global]
  · simp [Pairing.enter, Heap.frame?_newFrame, hg', h.lexical_global]
  · exact alike_later (h.alike.of_eq rfl rfl rfl rfl rfl rfl) (enter_later w r e values)

/-- The new frames are the same place in one scope more. -/
theorem View.enter {scopes : Scopes} {r e : FrameRef} (hv : w.View scopes r e) (h : w.Paired)
    {scope : Bindings Scope.Status} {values : Bindings Value}
    (hw : ∀ n, scope.contains n = values.contains n) :
    (w.enter r e values).View (scope :: scopes) ⟨w.real.frames.size⟩ ⟨w.lexical.frames.size⟩ := by
  have later := hv.later (enter_later w r e values)
  have hlex := fun r' n => w.lexical.getLocal?_newFrame e values r' n
  have hne := (Heap.ne_size_of_present h.real_global).symm
  have hne' := (Heap.ne_size_of_present h.lexical_global).symm
  have real : (w.enter r e values).real.frame? ⟨w.real.frames.size⟩ = some ⟨values, some r⟩ := by
    simp [Pairing.enter, Heap.frame?_newFrame]
  have lexical : (w.enter r e values).lexical.frame? ⟨w.lexical.frames.size⟩ =
      some ⟨values, some e⟩ := by
    simp [Pairing.enter, Heap.frame?_newFrame]
  have hi : e.index < w.lexical.frames.size := by
    obtain ⟨f, hf⟩ := Option.isSome_iff_exists.1 hv.lexical_present
    exact Heap.lt_size_of_frame? hf
  have outside : ∀ {n a}, scope.contains n = false →
      (w.enter r e values).lexical.Outward n e a →
      (w.enter r e values).lexical.Outward n ⟨w.lexical.frames.size⟩ a := by
    intro n a hn ho
    refine .out lexical hne' ?_ rfl hi ho
    rw [hw, Bindings.contains] at hn
    simpa [Pairing.enter, hlex] using hn
  have distance : ∀ n, Scopes.distance? (scope :: scopes) n =
      if scope.contains n then some 0 else (scopes.distance? n).map (· + 1) := by
    intro n
    rw [Scopes.distance?, List.findIdx?_cons]
    rfl
  refine ⟨by simp [real], fun n d hd => ?_, fun n hd => ?_, fun he => (by cases he),
    fun _ => ⟨hne, hne'⟩⟩
  · rw [distance] at hd
    split at hd
    · rename_i hc
      cases hd
      rw [hw, Bindings.contains] at hc
      refine ⟨⟨w.real.frames.size⟩, by simp [Heap.ancestor?, real], ?_, ?_⟩
      · simpa [Bound, Pairing.enter, Heap.getLocal?_newFrame] using hc
      · simp only [Pairing.enter, if_true]
        exact .here (by simp [Heap.frame?_newFrame]) (.inr (by simpa [hlex] using hc))
    · rename_i hc
      obtain ⟨d', hd', rfl⟩ := Option.map_eq_some_iff.1 hd
      obtain ⟨a, ha, hb, ho⟩ := later.found n d' hd'
      exact ⟨a, by simp [Heap.ancestor?, real, ha], hb, outside (by simpa using hc) ho⟩
  · rw [distance] at hd
    split at hd
    · cases hd
    · rename_i hc
      exact outside (by simpa using hc) (later.missing n (Option.map_eq_none_iff.1 hd))

/-! ## Functions, classes and objects -/

/-- Heaps stay matched when matched functions are made. -/
theorem Matched.newFunction (h : w.Matched T) {f f' : Function} (hf : w.FunctionMatch T f f') :
    Matched T ⟨(w.real.newFunction f).2, (w.lexical.newFunction f').2, w.home⟩ ∧
      w.Later ⟨(w.real.newFunction f).2, (w.lexical.newFunction f').2, w.home⟩ := by
  have l : w.Later ⟨(w.real.newFunction f).2, (w.lexical.newFunction f').2, w.home⟩ :=
    ⟨Heap.newFunction_grows .., Heap.newFunction_grows .., fun _ _ _ => rfl⟩
  exact ⟨⟨⟨h.values, h.apart, h.home, h.globals, h.real_global, h.lexical_global⟩,
    alike_later (h.alike.newFunction hf) l⟩, l⟩

/-- Heaps stay matched when classes with matched methods are made. -/
theorem Matched.newClass (h : w.Matched T) {c c' : Class} (hc : c.Alike (w.MethodMatch T) c') :
    Matched T ⟨(w.real.newClass c).2, (w.lexical.newClass c').2, w.home⟩ ∧
      w.Later ⟨(w.real.newClass c).2, (w.lexical.newClass c').2, w.home⟩ := by
  have l : w.Later ⟨(w.real.newClass c).2, (w.lexical.newClass c').2, w.home⟩ :=
    ⟨Heap.newClass_grows .., Heap.newClass_grows .., fun _ _ _ => rfl⟩
  exact ⟨⟨⟨h.values, h.apart, h.home, h.globals, h.real_global, h.lexical_global⟩,
    alike_later (h.alike.newClass hc) l⟩, l⟩

/-- Heaps stay matched when objects of one class are made. -/
theorem Matched.newObject (h : w.Matched T) (c : ClassRef) :
    Matched T ⟨(w.real.newObject c).2, (w.lexical.newObject c).2, w.home⟩ ∧
      w.Later ⟨(w.real.newObject c).2, (w.lexical.newObject c).2, w.home⟩ := by
  have l : w.Later ⟨(w.real.newObject c).2, (w.lexical.newObject c).2, w.home⟩ :=
    ⟨Heap.newObject_grows .., Heap.newObject_grows .., fun _ _ _ => rfl⟩
  exact ⟨⟨⟨h.values, h.apart, h.home, h.globals, h.real_global, h.lexical_global⟩,
    alike_later (h.alike.newObject c) l⟩, l⟩

/-- Heaps stay matched when a field is set. -/
theorem Matched.setField (h : w.Matched T) (o : ObjectRef) (name : String) (v : Value) :
    Matched T ⟨w.real.setField o name v, w.lexical.setField o name v, w.home⟩ ∧
      w.Later ⟨w.real.setField o name v, w.lexical.setField o name v, w.home⟩ := by
  have l : w.Later ⟨w.real.setField o name v, w.lexical.setField o name v, w.home⟩ :=
    ⟨Heap.setField_grows .., Heap.setField_grows .., fun _ _ _ => rfl⟩
  exact ⟨⟨⟨h.values, h.apart, h.home, h.globals, h.real_global, h.lexical_global⟩,
    alike_later (h.alike.setField o name v) l⟩, l⟩

/-- Methods bound to one object see it as their receiver. -/
theorem MethodMatch.bind {f f' : Function} (hf : w.MethodMatch T f f') (h : w.Matched T)
    {o o' : ObjectRef} (ho : o' = o) :
    ∃ home, Matched T ⟨(w.real.bind f o).2, (w.lexical.bind f' o').2, home⟩ ∧
      w.Later ⟨(w.real.bind f o).2, (w.lexical.bind f' o').2, home⟩ ∧
      FunctionMatch T ⟨(w.real.bind f o).2, (w.lexical.bind f' o').2, home⟩
        (w.real.bind f o).1 (w.lexical.bind f' o').1 := by
  subst ho
  obtain ⟨scopes, hp, hv⟩ := hf.place
  have hw : ∀ n, Scope.ofClass.contains n =
      ((∅ : Bindings Value).insert Heap.receiverName (.object o')).contains n := fun n => by
    rw [Scope.ofClass, Bindings.contains_insert, Bindings.contains_insert]
    rfl
  refine ⟨_, h.enter f.closure f'.closure _, enter_later .., hf.decl, hf.isInitializer,
    ⟨_, hp, hv.enter h.toPaired hw⟩, fun _ => ⟨?_, if_pos rfl⟩⟩
  change ((w.real.newFrame f.closure _).2.getLocal? ⟨w.real.frames.size⟩ _).isSome = true
  rw [Heap.getLocal?_newFrame, if_pos rfl, Bindings.get?_insert, if_pos rfl]
  rfl

end Pairing

end Lexical

end Lox
