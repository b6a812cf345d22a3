/-
# Well-formed heaps

A heap is well formed if nothing on it refers to what is not there, no frame is among its own
ancestors, and every frame has the global one among them (`Heap.WellFormed`). Parents are made
before the frames inside them, so that their references are smaller (`Heap.Linked`). That is what
single changes of a heap keep.
-/

import Lox.Proofs.Heap.Growth
import Mathlib.Logic.Relation

namespace Lox
namespace Heap

/-- What the value refers to is on the heap. -/
def Has (h : Heap) : Value → Prop
  | .function r => (h.function? r).isSome = true
  | .ofClass r => (h.class? r).isSome = true
  | .object r => (h.object? r).isSome = true
  | _ => True

/-- The frame `p` is the parent of the frame `r`. -/
def Parent (h : Heap) (r p : FrameRef) : Prop := ∃ f, h.frame? r = some f ∧ f.parent = some p

/-- Nothing refers to what is not there, and the frames are a tree with the global frame at its
root. -/
structure WellFormed (h : Heap) : Prop where
  global : ∃ f, h.frame? .global = some f ∧ f.parent = none
  parent : ∀ r p, h.Parent r p → (h.frame? p).isSome = true
  acyclic : ∀ r, ¬ Relation.TransGen h.Parent r r
  rooted : ∀ r f, h.frame? r = some f → ∃ d, h.ancestor? r d = some .global
  binding : ∀ r f name v, h.frame? r = some f → f.values.get? name = some v → h.Has v
  closure : ∀ r f, h.function? r = some f → (h.frame? f.closure).isSome = true
  method : ∀ r c name f, h.class? r = some c → c.methods.get? name = some f →
    (h.frame? f.closure).isSome = true
  classRef : ∀ r o, h.object? r = some o → (h.class? o.classRef).isSome = true
  field : ∀ r o name v, h.object? r = some o → o.fields.get? name = some v → h.Has v

/-- The frames come after their parents, and what the frames and the objects refer to is there. -/
structure Linked (h : Heap) : Prop where
  global : ∃ f, h.frame? .global = some f ∧ f.parent = none
  earlier : ∀ r f, h.frame? r = some f → r ≠ .global →
    ∃ p, f.parent = some p ∧ p.index < r.index
  binding : ∀ r f name v, h.frame? r = some f → f.values.get? name = some v → h.Has v
  classRef : ∀ r o, h.object? r = some o → (h.class? o.classRef).isSome = true
  field : ∀ r o name v, h.object? r = some o → o.fields.get? name = some v → h.Has v

variable {gains : FrameRef → Prop} {h h' : Heap}

/-! ## Growth -/

/-- The frames of a heap stay on it. -/
theorem Grows.isSome_frame (g : h.Grows gains h') {r : FrameRef}
    (hr : (h.frame? r).isSome = true) : (h'.frame? r).isSome = true := by
  obtain ⟨f, hf⟩ := Option.isSome_iff_exists.1 hr
  obtain ⟨f', hf', -⟩ := g.frames r f hf
  exact Option.isSome_iff_exists.2 ⟨f', hf'⟩

/-- The classes of a heap stay on it. -/
theorem Grows.isSome_class (g : h.Grows gains h') {r : ClassRef}
    (hr : (h.class? r).isSome = true) : (h'.class? r).isSome = true := by
  obtain ⟨c, hc⟩ := Option.isSome_iff_exists.1 hr
  exact Option.isSome_iff_exists.2 ⟨c, g.classes r c hc⟩

/-- What is on the heap stays there. -/
theorem Grows.has (g : h.Grows gains h') {v : Value} (hv : h.Has v) : h'.Has v := by
  cases v with
  | function r =>
    obtain ⟨f, hf⟩ := Option.isSome_iff_exists.1 hv
    exact Option.isSome_iff_exists.2 ⟨f, g.functions r f hf⟩
  | ofClass r => exact g.isSome_class hv
  | object r =>
    obtain ⟨o, ho⟩ := Option.isSome_iff_exists.1 hv
    obtain ⟨o', ho', -⟩ := g.objects r o ho
    exact Option.isSome_iff_exists.2 ⟨o', ho'⟩
  | _ => trivial

/-! ## What the changes of a heap do to its frames and objects -/

/-- A frame that was opened is there. -/
theorem newFrame_isSome (h : Heap) (parent : FrameRef) (values : Bindings Value) :
    ((h.newFrame parent values).2.frame? (h.newFrame parent values).1).isSome = true := by
  rw [frame?_newFrame]
  exact if_pos rfl ▸ rfl

/-- The new object is there without fields, besides those before. -/
theorem object?_newObject (h : Heap) (c : ClassRef) (r : ObjectRef) :
    (h.newObject c).2.object? r =
      if r = ⟨h.objects.size⟩ then some ⟨c, ∅⟩ else h.object? r := by
  obtain ⟨i⟩ := r
  simp only [newObject, object?, Array.getElem?_push, ObjectRef.mk.injEq]

/-- Only the object whose field is set is changed. -/
theorem object?_setField_eq (h : Heap) (r : ObjectRef) (name : String) (v : Value)
    (r' : ObjectRef) : (h.setField r name v).object? r' = (h.object? r').map fun o =>
      if r = r' then { o with fields := o.fields.insert name v } else o := by
  obtain ⟨i⟩ := r
  obtain ⟨j⟩ := r'
  unfold object?
  rw [setField, Array.getElem?_modify]
  by_cases hij : i = j
  · subst hij
    simp
  · simp [hij]

/-- The frames are those with a reference below their number. -/
theorem frame?_isSome_iff {r : FrameRef} :
    (h.frame? r).isSome = true ↔ r.index < h.frames.size := by
  simp [frame?]

/-! ## Links are kept -/

namespace Linked

/-- A new frame inside one that is there. -/
theorem newFrame (hl : h.Linked) {parent : FrameRef} {values : Bindings Value}
    (hp : (h.frame? parent).isSome = true) (hv : ∀ name v, values.get? name = some v → h.Has v) :
    (h.newFrame parent values).2.Linked := by
  have g : h.Grows (fun _ => True) (h.newFrame parent values).2 := newFrame_grows h parent values
  have hlt := frame?_isSome_iff.1 hp
  refine ⟨?_, fun r f hf hr => ?_, fun r f name v hf hn => ?_, fun r o ho => ?_,
    fun r o name v ho hn => ?_⟩
  · obtain ⟨f, hf, hn⟩ := hl.global
    obtain ⟨f', hf', hp', -⟩ := g.frames _ f hf
    exact ⟨f', hf', hp'.trans hn⟩
  · rw [frame?_newFrame] at hf
    split at hf
    · rename_i he
      cases hf
      exact ⟨parent, rfl, by rw [he]; exact hlt⟩
    · exact hl.earlier r f hf hr
  · rw [frame?_newFrame] at hf
    split at hf
    · cases hf
      exact g.has (hv name v hn)
    · exact g.has (hl.binding r f name v hf hn)
  · exact g.isSome_class (hl.classRef r o ho)
  · exact g.has (hl.field r o name v ho hn)

/-- Frames stay linked when a name is bound to what is there. -/
theorem define (hl : h.Linked) {r : FrameRef} {name : String} {v : Value} (hv : h.Has v) :
    (h.define r name v).Linked := by
  have g : h.Grows (fun _ => True) (h.define r name v) := define_grows _ _ _ _ (.inl trivial)
  refine ⟨?_, fun r' f' hf hr => ?_, fun r' f' n w hf hn => ?_, fun r o ho => ?_,
    fun r o name v ho hn => ?_⟩
  · obtain ⟨f, hf, hn⟩ := hl.global
    obtain ⟨f', hf', hp', -⟩ := g.frames _ f hf
    exact ⟨f', hf', hp'.trans hn⟩
  · rw [frame?_define_eq] at hf
    obtain ⟨f, hf₀, rfl⟩ := Option.map_eq_some_iff.1 hf
    obtain ⟨p, hp, hlt⟩ := hl.earlier r' f hf₀ hr
    refine ⟨p, ?_, hlt⟩
    split <;> exact hp
  · rw [frame?_define_eq] at hf
    obtain ⟨f, hf₀, rfl⟩ := Option.map_eq_some_iff.1 hf
    by_cases hr : r = r'
    · rw [if_pos hr, Bindings.get?_insert] at hn
      split at hn
      · cases hn
        exact g.has hv
      · exact g.has (hl.binding r' f n w hf₀ hn)
    · rw [if_neg hr] at hn
      exact g.has (hl.binding r' f n w hf₀ hn)
  · exact g.isSome_class (hl.classRef r o ho)
  · exact g.has (hl.field r o name v ho hn)

/-- Nothing that frames or objects hold changes. -/
theorem grows (hl : h.Linked) (g : h.Grows gains h') (hf : h'.frames = h.frames)
    (ho : h'.objects = h.objects) : h'.Linked := by
  have frame : ∀ r, h'.frame? r = h.frame? r := fun r => by rw [frame?, hf]; rfl
  have object : ∀ r, h'.object? r = h.object? r := fun r => by rw [object?, ho]; rfl
  refine ⟨?_, fun r f hf hr => ?_, fun r f name v hf hn => ?_, fun r o ho => ?_,
    fun r o name v ho hn => ?_⟩
  · rw [frame]
    exact hl.global
  · exact hl.earlier r f (frame r ▸ hf) hr
  · exact g.has (hl.binding r f name v (frame r ▸ hf) hn)
  · exact g.isSome_class (hl.classRef r o (object r ▸ ho))
  · exact g.has (hl.field r o name v (object r ▸ ho) hn)

/-- They stay linked when an object of a class that is there is made. -/
theorem newObject (hl : h.Linked) {c : ClassRef} (hc : (h.class? c).isSome = true) :
    (h.newObject c).2.Linked := by
  have g : h.Grows (fun _ => True) (h.newObject c).2 := newObject_grows h c
  refine ⟨hl.global, hl.earlier, fun r f name v hf hn => g.has (hl.binding r f name v hf hn),
    fun r o ho => ?_, fun r o name v ho hn => ?_⟩
  · rw [object?_newObject] at ho
    split at ho
    · cases ho
      exact hc
    · exact hl.classRef r o ho
  · rw [object?_newObject] at ho
    split at ho
    · cases ho
      cases hn
    · exact g.has (hl.field r o name v ho hn)

/-- They stay linked when a field is set to what is there. -/
theorem setField (hl : h.Linked) {r : ObjectRef} {name : String} {v : Value} (hv : h.Has v) :
    (h.setField r name v).Linked := by
  have g : h.Grows (fun _ => True) (h.setField r name v) := setField_grows h r name v
  refine ⟨hl.global, hl.earlier, fun r f name v hf hn => g.has (hl.binding r f name v hf hn),
    fun r' o' ho => ?_, fun r' o' n w ho hn => ?_⟩
  · rw [object?_setField_eq] at ho
    obtain ⟨o, ho₀, rfl⟩ := Option.map_eq_some_iff.1 ho
    have hc := hl.classRef r' o ho₀
    split <;> exact hc
  · rw [object?_setField_eq] at ho
    obtain ⟨o, ho₀, rfl⟩ := Option.map_eq_some_iff.1 ho
    by_cases hr : r = r'
    · rw [if_pos hr, Bindings.get?_insert] at hn
      split at hn
      · cases hn
        exact g.has hv
      · exact g.has (hl.field r' o n w ho₀ hn)
    · rw [if_neg hr] at hn
      exact g.has (hl.field r' o n w ho₀ hn)

/-! ## Chains of parents -/

/-- Parents have smaller references. -/
theorem parent_lt (hl : h.Linked) {r p : FrameRef} (hp : h.Parent r p) : p.index < r.index := by
  obtain ⟨f, hf, hp⟩ := hp
  have hr : r ≠ .global := by
    rintro rfl
    obtain ⟨f', hf', hn⟩ := hl.global
    rw [hf] at hf'
    cases hf'
    rw [hn] at hp
    cases hp
  obtain ⟨p', hp', hlt⟩ := hl.earlier r f hf hr
  rw [hp] at hp'
  cases hp'
  exact hlt

/-- Ancestors have smaller references. -/
theorem ancestor_lt (hl : h.Linked) {r a : FrameRef} (ha : Relation.TransGen h.Parent r a) :
    a.index < r.index := by
  induction ha with
  | single hp => exact hl.parent_lt hp
  | tail _ hp ih =>
    have := hl.parent_lt hp
    omega

/-- Going outward leads to the global frame. -/
theorem rooted (hl : h.Linked) {r : FrameRef} {f : Frame} (hf : h.frame? r = some f) :
    ∃ d, h.ancestor? r d = some .global := by
  -- By induction on the reference: the parent has a smaller one.
  generalize hn : r.index = n
  induction n using Nat.strongRecOn generalizing r f with
  | ind n ih =>
    by_cases hr : r = .global
    · subst hr
      exact ⟨0, by simp [ancestor?, hf]⟩
    · obtain ⟨p, hp, hlt⟩ := hl.earlier r f hf hr
      have hsize := lt_size_of_frame? hf
      obtain ⟨f', hf'⟩ := Option.isSome_iff_exists.1
        (frame?_isSome_iff.2 (show p.index < h.frames.size by omega))
      obtain ⟨d, hd⟩ := ih p.index (by omega) hf' rfl
      exact ⟨d + 1, by simp [ancestor?, hf, hp, hd]⟩

/-- Linked frames make a heap well formed, if the closures of its functions and methods are there.
-/
theorem wellFormed (hl : h.Linked)
    (hf : ∀ r f, h.function? r = some f → (h.frame? f.closure).isSome = true)
    (hm : ∀ r c name f, h.class? r = some c → c.methods.get? name = some f →
      (h.frame? f.closure).isSome = true) : h.WellFormed where
  global := hl.global
  parent r p hp := by
    have hlt := hl.parent_lt hp
    obtain ⟨f, hf, -⟩ := hp
    have hsize := lt_size_of_frame? hf
    exact frame?_isSome_iff.2 (by omega)
  acyclic r hc := Nat.lt_irrefl _ (hl.ancestor_lt hc)
  rooted _ _ hf := hl.rooted hf
  binding := hl.binding
  closure := hf
  method := hm
  classRef := hl.classRef
  field := hl.field

end Linked

end Heap
end Lox
