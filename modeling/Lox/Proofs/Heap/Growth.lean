/-
# Heaps only grow

What a heap can become while a program runs: frames keep their parents and all their names, objects
keep their classes and all their fields, functions and classes stay what they are
(`Heap.Grows`). Frames that are not being declared in gain no names either; `gains` says which
frames may.
-/

import Lox.Heap

namespace Lox

namespace Bindings

variable {α β : Type}

/-- Binding a name adds that name. -/
@[simp] theorem contains_insert (b : Bindings α) (name n : String) (a : α) :
    (b.insert name a).contains n = (decide (name = n) || b.contains n) := by
  by_cases h : name = n <;> simp [contains, h]

/-- Binding some names adds those names. -/
theorem contains_insertMany (entries : List (String × α)) (b : Bindings α) (n : String) :
    (b.insertMany entries).contains n = true ↔
      b.contains n = true ∨ ∃ a, (n, a) ∈ entries := by
  induction entries generalizing b with
  | nil => simp [insertMany]
  | cons entry rest ih =>
    obtain ⟨name, a⟩ := entry
    rw [insertMany, ih, contains_insert]
    simp only [Bool.or_eq_true, decide_eq_true_eq, List.mem_cons, Prod.mk.injEq]
    constructor
    · rintro ((rfl | h) | ⟨a', h⟩)
      · exact .inr ⟨a, .inl ⟨rfl, rfl⟩⟩
      · exact .inl h
      · exact .inr ⟨a', .inr h⟩
    · rintro (h | ⟨a', ⟨rfl, -⟩ | h⟩)
      · exact .inl (.inr h)
      · exact .inl (.inl rfl)
      · exact .inr ⟨a', h⟩

/-- A name has its old value or one that it was given. -/
theorem get?_insertMany {entries : List (String × α)} {b : Bindings α} {n : String} {a : α}
    (h : (b.insertMany entries).get? n = some a) : b.get? n = some a ∨ (n, a) ∈ entries := by
  induction entries generalizing b with
  | nil => exact .inl h
  | cons entry rest ih =>
    obtain ⟨name, x⟩ := entry
    rcases ih h with hb | hr
    · rw [get?_insert] at hb
      split at hb
      · cases hb
        exact .inr (by simp_all)
      · exact .inl hb
    · exact .inr (List.mem_cons_of_mem _ hr)

/-- Every name of `b` is a name of `b'`. -/
def Within (b : Bindings α) (b' : Bindings β) : Prop :=
  ∀ n, b.contains n = true → b'.contains n = true

/-- Bindings have their own names. -/
theorem Within.refl (b : Bindings α) : b.Within b := fun _ h => h

/-- No name is lost by binding another one. -/
theorem Within.insert (b : Bindings α) (name : String) (a : α) : b.Within (b.insert name a) :=
  fun n h => by simp [h]

/-- Replacing a value adds no name. -/
theorem Within.of_insert {b : Bindings α} {name : String} {a : α} (h : b.contains name = true) :
    (b.insert name a).Within b := fun n hn => by
  rw [contains_insert, Bool.or_eq_true, decide_eq_true_eq] at hn
  rcases hn with rfl | hn
  · exact h
  · exact hn

end Bindings

namespace Heap

variable {gains : FrameRef → Prop} {h h' h'' : Heap}

/-- `h'` can come from `h`, where only the frames of `gains` have new names. -/
structure Grows (gains : FrameRef → Prop) (h h' : Heap) : Prop where
  frames : ∀ r f, h.frame? r = some f → ∃ f', h'.frame? r = some f' ∧ f'.parent = f.parent ∧
    f.values.Within f'.values ∧ (¬ gains r → f'.values.Within f.values)
  functions : ∀ r f, h.function? r = some f → h'.function? r = some f
  classes : ∀ r c, h.class? r = some c → h'.class? r = some c
  objects : ∀ r o, h.object? r = some o → ∃ o', h'.object? r = some o' ∧
    o'.classRef = o.classRef ∧ o.fields.Within o'.fields

namespace Grows

/-- A heap may stay as it is. -/
theorem refl (h : Heap) : h.Grows gains h where
  frames _ f hf := ⟨f, hf, rfl, .refl _, fun _ => .refl _⟩
  functions _ _ hf := hf
  classes _ _ hc := hc
  objects _ o ho := ⟨o, ho, rfl, .refl _⟩

/-- What grows from a heap that grew has grown. -/
theorem trans (g : h.Grows gains h') (g' : h'.Grows gains h'') : h.Grows gains h'' where
  frames r f hf := by
    obtain ⟨f', hf', hp, hn, hg⟩ := g.frames r f hf
    obtain ⟨f'', hf'', hp', hn', hg'⟩ := g'.frames r f' hf'
    exact ⟨f'', hf'', hp'.trans hp, fun n h => hn' n (hn n h),
      fun hr n h => hg hr n (hg' hr n h)⟩
  functions r f hf := g'.functions r f (g.functions r f hf)
  classes r c hc := g'.classes r c (g.classes r c hc)
  objects r o ho := by
    obtain ⟨o', ho', hc, hn⟩ := g.objects r o ho
    obtain ⟨o'', ho'', hc', hn'⟩ := g'.objects r o' ho'
    exact ⟨o'', ho'', hc'.trans hc, fun n h => hn' n (hn n h)⟩

/-- It matters for frames that existed before only which of them may gain names. -/
theorem weaken {gains' : FrameRef → Prop} (g : h.Grows gains h')
    (hg : ∀ r f, h.frame? r = some f → gains r → gains' r) : h.Grows gains' h' where
  frames r f hf := by
    obtain ⟨f', hf', hp, hn, hs⟩ := g.frames r f hf
    exact ⟨f', hf', hp, hn, fun hr => hs fun hgr => hr (hg r f hf hgr)⟩
  functions := g.functions
  classes := g.classes
  objects := g.objects

/-- What grows with new names in some frames grows with new names in any. -/
theorem all (g : h.Grows gains h') : h.Grows (fun _ => True) h' :=
  g.weaken fun _ _ _ _ => trivial

end Grows

/-! ## The operations -/

/-- The reference of a frame is below the number of frames. -/
theorem lt_size_of_frame? {r : FrameRef} {f : Frame} (hf : h.frame? r = some f) :
    r.index < h.frames.size := (Array.getElem?_eq_some_iff.1 hf).1

/-- What is in an array stays where it is when another item is put behind it. -/
theorem getElem?_push_of_some {α : Type} {xs : Array α} {i : Nat} {a b : α}
    (hi : xs[i]? = some a) : (xs.push b)[i]? = some a := by
  have := (Array.getElem?_eq_some_iff.1 hi).1
  rw [Array.getElem?_push, if_neg (Nat.ne_of_lt this), hi]

/-- The frames around a frame stay around it. -/
theorem ancestor?_grows (g : h.Grows gains h') : ∀ {d : Nat} {r a : FrameRef},
    h.ancestor? r d = some a → h'.ancestor? r d = some a
  | 0, r, a, ha => by
    obtain ⟨f, hf, rfl⟩ := Option.map_eq_some_iff.1 ha
    obtain ⟨f', hf', -⟩ := g.frames r f hf
    simp [ancestor?, hf']
  | d + 1, r, a, ha => by
    obtain ⟨f, hf, ha⟩ := Option.bind_eq_some_iff.1 ha
    obtain ⟨parent, hp, ha⟩ := Option.bind_eq_some_iff.1 ha
    obtain ⟨f', hf', hp', -⟩ := g.frames r f hf
    simp [ancestor?, hf', hp'.trans hp, ancestor?_grows g ha]

/-- Opening a frame makes the heap grow. -/
theorem newFrame_grows (h : Heap) (parent : FrameRef) (values : Bindings Value) :
    h.Grows gains (h.newFrame parent values).2 where
  frames _ f hf := ⟨f, getElem?_push_of_some hf, rfl, .refl _, fun _ => .refl _⟩
  functions _ _ hf := hf
  classes _ _ hc := hc
  objects _ o ho := ⟨o, ho, rfl, .refl _⟩

/-- So does a new function. -/
theorem newFunction_grows (h : Heap) (f : Function) : h.Grows gains (h.newFunction f).2 where
  frames _ f hf := ⟨f, hf, rfl, .refl _, fun _ => .refl _⟩
  functions _ _ hf := getElem?_push_of_some hf
  classes _ _ hc := hc
  objects _ o ho := ⟨o, ho, rfl, .refl _⟩

/-- So does a new class. -/
theorem newClass_grows (h : Heap) (c : Class) : h.Grows gains (h.newClass c).2 where
  frames _ f hf := ⟨f, hf, rfl, .refl _, fun _ => .refl _⟩
  functions _ _ hf := hf
  classes _ _ hc := getElem?_push_of_some hc
  objects _ o ho := ⟨o, ho, rfl, .refl _⟩

/-- So does a new object. -/
theorem newObject_grows (h : Heap) (c : ClassRef) : h.Grows gains (h.newObject c).2 where
  frames _ f hf := ⟨f, hf, rfl, .refl _, fun _ => .refl _⟩
  functions _ _ hf := hf
  classes _ _ hc := hc
  objects _ o ho := ⟨o, getElem?_push_of_some ho, rfl, .refl _⟩

/-- A frame is still there when a name is bound, with the binding if it is the frame it was bound
in. -/
theorem frame?_define {r r' : FrameRef} {f : Frame} (name : String) (v : Value)
    (hf : h.frame? r' = some f) : (h.define r name v).frame? r' =
      some (if r = r' then { f with values := f.values.insert name v } else f) := by
  unfold frame? at hf ⊢
  rw [define, Array.getElem?_modify, hf]
  obtain ⟨i⟩ := r
  obtain ⟨j⟩ := r'
  simp only [FrameRef.mk.injEq]
  split <;> rfl

/-- A name may be bound in a frame that may gain names, or that binds it already. -/
theorem define_grows (h : Heap) (r : FrameRef) (name : String) (v : Value)
    (hg : gains r ∨ (h.getLocal? r name).isSome = true) :
    h.Grows gains (h.define r name v) where
  frames r' f hf := by
    refine ⟨_, frame?_define name v hf, ?_⟩
    by_cases hr : r = r'
    · subst hr
      rw [if_pos rfl]
      refine ⟨rfl, .insert _ _ _, fun hng => .of_insert ?_⟩
      rcases hg with hg | hg
      · exact absurd hg hng
      · simpa [getLocal?, hf, Bindings.contains] using hg
    · rw [if_neg hr]
      exact ⟨rfl, .refl _, fun _ => .refl _⟩
  functions _ _ hf := hf
  classes _ _ hc := hc
  objects _ o ho := ⟨o, ho, rfl, .refl _⟩

/-- Assigning in a frame gives no frame a name. -/
theorem assignLocal_grows (h : Heap) (r : FrameRef) (name : String) (v : Value) :
    h.Grows gains (h.assignLocal r name v).2 := by
  unfold assignLocal
  split
  · rename_i hb
    exact define_grows h r name v (.inr hb)
  · exact .refl h

/-- Assigning at the end of a walk gives no frame a name. -/
theorem assignAt_grows (h : Heap) (r : FrameRef) (distance : Nat) (name : String) (v : Value) :
    h.Grows gains (h.assignAt r distance name v).2 := by
  unfold assignAt
  split
  · exact assignLocal_grows ..
  · exact .refl h

/-- Setting a field leaves the frames, and the object keeps its other fields. -/
theorem setField_grows (h : Heap) (r : ObjectRef) (name : String) (v : Value) :
    h.Grows gains (h.setField r name v) where
  frames _ f hf := ⟨f, hf, rfl, .refl _, fun _ => .refl _⟩
  functions _ _ hf := hf
  classes _ _ hc := hc
  objects r' o ho := by
    unfold object? at ho ⊢
    rw [setField, Array.getElem?_modify, ho]
    split
    · exact ⟨_, rfl, rfl, .insert _ _ _⟩
    · exact ⟨_, rfl, rfl, .refl _⟩

/-- Binding a method to an object opens a frame and makes a function. -/
theorem bind_grows (h : Heap) (f : Function) (o : ObjectRef) : h.Grows gains (h.bind f o).2 :=
  newFrame_grows ..

/-! ## Reading frames -/

/-- Only the frame in which a name is bound is changed. -/
theorem frame?_define_eq (h : Heap) (r r' : FrameRef) (name : String) (v : Value) :
    (h.define r name v).frame? r' = (h.frame? r').map fun f =>
      if r = r' then { f with values := f.values.insert name v } else f := by
  cases hf : h.frame? r' with
  | some f => exact frame?_define name v hf
  | none =>
    unfold frame? at hf ⊢
    rw [define, Array.getElem?_modify, hf]
    split <;> rfl

/-- The bound name has the new value in that frame, and all else is as before. -/
theorem getLocal?_define (h : Heap) (r r' : FrameRef) (name n : String) (v : Value)
    (hr : (h.frame? r).isSome = true) : (h.define r name v).getLocal? r' n =
      if r = r' ∧ name = n then some v else h.getLocal? r' n := by
  obtain ⟨f, hf⟩ := Option.isSome_iff_exists.1 hr
  rw [getLocal?, frame?_define_eq]
  by_cases h₁ : r = r'
  · subst h₁
    by_cases h₂ : name = n <;> simp [getLocal?, hf, h₂]
  · cases hf' : h.frame? r' <;> simp [getLocal?, hf', h₁]

/-- The new frame is there besides those before. -/
theorem frame?_newFrame (h : Heap) (parent : FrameRef) (values : Bindings Value) (r : FrameRef) :
    (h.newFrame parent values).2.frame? r =
      if r = ⟨h.frames.size⟩ then some ⟨values, some parent⟩ else h.frame? r := by
  obtain ⟨i⟩ := r
  simp only [newFrame, frame?, Array.getElem?_push, FrameRef.mk.injEq]

/-- The new frame binds what it was opened with, and the others what they did. -/
theorem getLocal?_newFrame (h : Heap) (parent : FrameRef) (values : Bindings Value) (r : FrameRef)
    (name : String) : (h.newFrame parent values).2.getLocal? r name =
      if r = ⟨h.frames.size⟩ then values.get? name else h.getLocal? r name := by
  rw [getLocal?, frame?_newFrame]
  split <;> rfl

/-- A frame that binds a name is there. -/
theorem frame?_isSome_of_getLocal? {r : FrameRef} {name : String}
    (hb : (h.getLocal? r name).isSome = true) : (h.frame? r).isSome = true := by
  rw [getLocal?] at hb
  cases hf : h.frame? r with
  | none => simp [hf] at hb
  | some f => rfl

/-- The reference of a frame that is there is not the next one to be given. -/
theorem ne_size_of_present {r : FrameRef} (hr : (h.frame? r).isSome = true) :
    r ≠ ⟨h.frames.size⟩ := by
  obtain ⟨f, hf⟩ := Option.isSome_iff_exists.1 hr
  rintro rfl
  exact absurd (lt_size_of_frame? hf) (Nat.lt_irrefl _)

end Heap

end Lox
