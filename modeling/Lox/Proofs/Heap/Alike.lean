/-
# Heaps with the same functions, classes and objects

Two heaps are alike if they hold the same functions, classes and objects under the same references,
where functions are compared by a relation `F` and the methods of classes by a relation `M`. Frames
do not count. Values, which hold references only, then mean the same in both: they have one text and
can be called in the same ways.
-/

import Lox.Heap.Callable
import Lox.Heap.Text
import Mathlib.Data.List.Forall2

namespace Lox

/-- Functions that look the same from outside: they are shown and called in the same way. -/
structure Function.SameFace (f f' : Function) : Prop where
  name : f'.decl.name.lexeme = f.decl.name.lexeme
  arity : f'.arity = f.arity

section

variable (F M : Function → Function → Prop)

/-- Classes with one name and the same methods. -/
structure Class.Alike (c c' : Class) : Prop where
  name : c'.name = c.name
  methods : ∀ n, Option.Rel M (c.methods.get? n) (c'.methods.get? n)

/-- Things to call that are alike. -/
inductive Callable.Alike : Callable → Callable → Prop where
  | native (f : Native) : Callable.Alike (.native f) (.native f)
  | function {f f' : Function} (hf : F f f') : Callable.Alike (.function f) (.function f')
  | construct (ref : ClassRef) {c c' : Class} (hc : c.Alike M c') :
    Callable.Alike (.construct ref c) (.construct ref c')

/-- The same functions, classes and objects. -/
structure Heap.Alike (h h' : Heap) : Prop where
  functions : ∀ r, Option.Rel F (h.function? r) (h'.function? r)
  functionCount : h'.functions.size = h.functions.size
  classes : ∀ r, Option.Rel (Class.Alike M) (h.class? r) (h'.class? r)
  classCount : h'.classes.size = h.classes.size
  objects : h'.objects = h.objects

end

section

variable {F M : Function → Function → Prop} {h h' : Heap}

/-- Values that may be missing are related by a weaker relation. -/
theorem Option.Rel.mono {α β : Type} {R S : α → β → Prop} (hRS : ∀ a b, R a b → S a b)
    {a : Option α} {b : Option β} (hab : Option.Rel R a b) : Option.Rel S a b := by
  cases hab with
  | some hr => exact .some (hRS _ _ hr)
  | none => exact .none

/-- Alike classes have alike initializers, or none. -/
theorem Class.Alike.initializer {c c' : Class} (hc : c.Alike M c') :
    Option.Rel M c.initializer? c'.initializer? := hc.methods _

/-- Alike things to call take as many arguments. -/
theorem Callable.Alike.arity (hF : ∀ f f', F f f' → f.SameFace f')
    (hM : ∀ f f', M f f' → f.SameFace f') {c c' : Callable} (hc : Callable.Alike F M c c') :
    c'.arity = c.arity := by
  cases hc with
  | native f => rfl
  | function hf => exact (hF _ _ hf).arity
  | construct ref hc =>
    have hi := hc.initializer
    simp only [Callable.arity]
    revert hi
    generalize Class.initializer? _ = i, Class.initializer? _ = i'
    intro hi
    cases hi with
    | none => rfl
    | some hm => exact (hM _ _ hm).arity

/-- Binding related values to the same names in the same order. -/
theorem Bindings.insertMany_rel {α : Type} {R : α → α → Prop} {xs ys : List (String × α)}
    (hxy : List.Forall₂ (fun x y => y.1 = x.1 ∧ R x.2 y.2) xs ys) :
    ∀ {b b' : Bindings α}, (∀ n, Option.Rel R (b.get? n) (b'.get? n)) →
      ∀ n, Option.Rel R ((b.insertMany xs).get? n) ((b'.insertMany ys).get? n) := by
  induction hxy with
  | nil => exact fun hb => hb
  | @cons x y xs ys hx _ ih =>
    intro b b' hb
    refine ih fun n => ?_
    rw [hx.1, Bindings.get?_insert, Bindings.get?_insert]
    split
    · exact .some hx.2
    · exact hb n

namespace Heap.Alike

/-- Heaps that are alike are so by weaker relations. -/
theorem mono {F' M' : Function → Function → Prop} (ha : h.Alike F M h')
    (hF : ∀ f f', F f f' → F' f f') (hM : ∀ f f', M f f' → M' f f') : h.Alike F' M' h' where
  functions r := Option.Rel.mono hF (ha.functions r)
  functionCount := ha.functionCount
  classes r := Option.Rel.mono
    (fun _ _ hc => ⟨hc.name, fun n => Option.Rel.mono hM (hc.methods n)⟩) (ha.classes r)
  classCount := ha.classCount
  objects := ha.objects

/-- Frames do not count. -/
theorem of_eq {k k' : Heap} (ha : h.Alike F M h') (hf : k.functions = h.functions)
    (hc : k.classes = h.classes) (ho : k.objects = h.objects) (hf' : k'.functions = h'.functions)
    (hc' : k'.classes = h'.classes) (ho' : k'.objects = h'.objects) : k.Alike F M k' := by
  obtain ⟨_, _, _, _⟩ := k
  obtain ⟨_, _, _, _⟩ := k'
  obtain ⟨_, _, _, _⟩ := h
  obtain ⟨_, _, _, _⟩ := h'
  cases hf
  cases hc
  cases ho
  cases hf'
  cases hc'
  cases ho'
  exact ⟨ha.functions, ha.functionCount, ha.classes, ha.classCount, ha.objects⟩

/-- A class has one name in both. -/
theorem className_eq (ha : h.Alike F M h') (r : ClassRef) : h'.className r = h.className r := by
  have hc := ha.classes r
  unfold className
  revert hc
  generalize h.class? r = c, h'.class? r = c'
  intro hc
  cases hc with
  | none => rfl
  | some hc => exact hc.name

/-- A value is shown in the same way. -/
theorem text_eq (ha : h.Alike F M h') (hF : ∀ f f', F f f' → f.SameFace f') (v : Value) :
    h'.text v = h.text v := by
  cases v with
  | function r =>
    have hf := ha.functions r
    simp only [text]
    revert hf
    generalize h.function? r = f, h'.function? r = f'
    intro hf
    cases hf with
    | none => rfl
    | some hf => simp only [(hF _ _ hf).name]
  | ofClass r => exact ha.className_eq r
  | object r =>
    simp only [text, object?, ha.objects, ha.className_eq]
  | bool b => cases b <;> rfl
  | _ => rfl

/-- A value can be called in the same way in both. -/
theorem callable?_rel (ha : h.Alike F M h') (v : Value) :
    Option.Rel (Callable.Alike F M) (h.callable? v) (h'.callable? v) := by
  cases v with
  | native f => exact .some (.native f)
  | function r =>
    have hf := ha.functions r
    simp only [callable?]
    revert hf
    generalize h.function? r = f, h'.function? r = f'
    intro hf
    cases hf with
    | none => exact .none
    | some hf => exact .some (.function hf)
  | ofClass r =>
    have hc := ha.classes r
    simp only [callable?]
    revert hc
    generalize h.class? r = c, h'.class? r = c'
    intro hc
    cases hc with
    | none => exact .none
    | some hc => exact .some (.construct r hc)
  | _ => exact .none

/-- An object has alike methods of one name in both, or none. -/
theorem method?_rel (ha : h.Alike F M h') (o : ObjectRef) (name : String) :
    Option.Rel M (h.method? o name) (h'.method? o name) := by
  simp only [method?, object?, ha.objects]
  cases h.objects[o.index]? with
  | none => exact .none
  | some object =>
    have hc := ha.classes object.classRef
    simp only [Option.bind_some]
    revert hc
    generalize h.class? object.classRef = c, h'.class? object.classRef = c'
    intro hc
    cases hc with
    | none => exact .none
    | some hc => exact hc.methods name

/-- Arrays that are related place by place stay so with a related item at the end of each. -/
theorem getElem?_push_rel {α : Type} {R : α → α → Prop} {xs ys : Array α} {x y : α}
    (hs : ys.size = xs.size) (hr : ∀ i : Nat, Option.Rel R xs[i]? ys[i]?) (hxy : R x y) (i : Nat) :
    Option.Rel R (xs.push x)[i]? (ys.push y)[i]? := by
  rw [Array.getElem?_push, Array.getElem?_push, hs]
  split
  · exact .some hxy
  · exact hr i

/-- Alike functions are put under one reference. -/
theorem newFunction (ha : h.Alike F M h') {f f' : Function} (hf : F f f') :
    (h.newFunction f).2.Alike F M (h'.newFunction f').2 where
  functions r := getElem?_push_rel ha.functionCount (fun i => ha.functions ⟨i⟩) hf r.index
  functionCount := by simp [Heap.newFunction, ha.functionCount]
  classes := ha.classes
  classCount := ha.classCount
  objects := ha.objects

/-- Alike classes are put under one reference. -/
theorem newClass (ha : h.Alike F M h') {c c' : Class} (hc : c.Alike M c') :
    (h.newClass c).2.Alike F M (h'.newClass c').2 where
  functions := ha.functions
  functionCount := ha.functionCount
  classes r := getElem?_push_rel ha.classCount (fun i => ha.classes ⟨i⟩) hc r.index
  classCount := by simp [Heap.newClass, ha.classCount]
  objects := ha.objects

/-- Objects of one class are put under one reference. -/
theorem newObject (ha : h.Alike F M h') (c : ClassRef) :
    (h.newObject c).2.Alike F M (h'.newObject c).2 where
  functions := ha.functions
  functionCount := ha.functionCount
  classes := ha.classes
  classCount := ha.classCount
  objects := by simp only [Heap.newObject, ha.objects]

/-- Setting a field keeps heaps alike. -/
theorem setField (ha : h.Alike F M h') (r : ObjectRef) (name : String) (v : Value) :
    (h.setField r name v).Alike F M (h'.setField r name v) where
  functions := ha.functions
  functionCount := ha.functionCount
  classes := ha.classes
  classCount := ha.classCount
  objects := by simp only [Heap.setField, ha.objects]

end Heap.Alike

end

end Lox
