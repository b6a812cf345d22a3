/-
# Receivers of frames

The receiver of a frame is what the first frame outward that binds the receiver's name binds it to
(`Heap.Receives`). While a program runs, no frame that is there changes what it binds that name to
(`Heap.Steady`), so that frames keep their receivers for good.
-/

import Lox.Proofs.Heap.WellFormed

namespace Lox
namespace Heap

/-- Going outward from the frame, the first one to bind the receiver is so many frames away, and
binds it to the object. -/
inductive Receives (h : Heap) : FrameRef → Nat → ObjectRef → Prop where
  | here {r : FrameRef} {f : Frame} {o : ObjectRef} (hf : h.frame? r = some f)
      (ho : f.values.get? receiverName = some (.object o)) : Receives h r 0 o
  | outer {r p : FrameRef} {f : Frame} {d : Nat} {o : ObjectRef} (hf : h.frame? r = some f)
      (hn : f.values.get? receiverName = none) (hp : f.parent = some p) (ho : Receives h p d o) :
    Receives h r (d + 1) o

/-- The function is a method of the object, bound to it. -/
structure BoundTo (h : Heap) (g : Function) (o : ObjectRef) : Prop where
  receiver : h.Receives g.closure 0 o
  method : ∃ name f, h.method? o name = some f ∧ g = { f with closure := g.closure }

/-- The frame is inside a call of the bound method: going outward, the closure of the method is the
first frame to bind the receiver, and so many frames away. -/
structure Serves (h : Heap) (r : FrameRef) (d : Nat) (g : Function) (o : ObjectRef) : Prop where
  closure : h.ancestor? r d = some g.closure
  receiver : h.Receives r d o
  bound : h.BoundTo g o

/-- `h'` can come from `h`, and the frames of `h` still bind the receiver as they did. -/
structure Steady (h h' : Heap) : Prop where
  grows : h.Grows (fun _ => True) h'
  receiver : ∀ r f f', h.frame? r = some f → h'.frame? r = some f' →
    f'.values.get? receiverName = f.values.get? receiverName

variable {h h' h'' : Heap} {r : FrameRef} {d d' : Nat} {o o' : ObjectRef}

namespace Receives

/-- A frame has one receiver. -/
theorem unique (hr : h.Receives r d o) (hr' : h.Receives r d' o') : d = d' ∧ o = o' := by
  induction hr generalizing d' with
  | here hf ho =>
    cases hr' with
    | here hf' ho' =>
      rw [hf] at hf'
      cases hf'
      rw [ho] at ho'
      cases ho'
      exact ⟨rfl, rfl⟩
    | outer hf' hn' _ _ =>
      rw [hf] at hf'
      cases hf'
      rw [ho] at hn'
      cases hn'
  | outer hf hn hp _ ih =>
    cases hr' with
    | here hf' ho' =>
      rw [hf] at hf'
      cases hf'
      rw [hn] at ho'
      cases ho'
    | outer hf' _ hp' hr' =>
      rw [hf] at hf'
      cases hf'
      rw [hp] at hp'
      cases hp'
      obtain ⟨rfl, rfl⟩ := ih hr'
      exact ⟨rfl, rfl⟩

/-- The receiver is found at its distance. -/
theorem getAt? (hr : h.Receives r d o) : h.getAt? r d receiverName = some (.object o) := by
  induction hr with
  | here hf ho => simp [Heap.getAt?, ancestor?, getLocal?, hf, ho]
  | outer hf _ hp _ ih => simpa [Heap.getAt?, ancestor?, hf, hp] using ih

/-- A frame keeps its receiver while frames keep what they bind it to. -/
theorem steady (hr : h.Receives r d o) (hs : h.Steady h') : h'.Receives r d o := by
  induction hr with
  | here hf ho =>
    obtain ⟨f', hf', -⟩ := hs.grows.frames _ _ hf
    exact .here hf' ((hs.receiver _ _ _ hf hf').trans ho)
  | outer hf hn hp _ ih =>
    obtain ⟨f', hf', hp', -⟩ := hs.grows.frames _ _ hf
    exact .outer hf' ((hs.receiver _ _ _ hf hf').trans hn) (hp'.trans hp) ih

/-- A frame with a receiver is there. -/
theorem frame (hr : h.Receives r d o) : ∃ f, h.frame? r = some f := by
  cases hr with
  | here hf _ => exact ⟨_, hf⟩
  | outer hf _ _ _ => exact ⟨_, hf⟩

end Receives

/-- The methods that an object has, it keeps. -/
theorem Grows.method? {gains : FrameRef → Prop} (g : h.Grows gains h') {name : String}
    {f : Function} (hm : h.method? o name = some f) : h'.method? o name = some f := by
  obtain ⟨object, ho, hm⟩ := Option.bind_eq_some_iff.1 hm
  obtain ⟨c, hc, hm⟩ := Option.bind_eq_some_iff.1 hm
  obtain ⟨object', ho', he, -⟩ := g.objects _ _ ho
  have hc' := g.classes _ _ hc
  simp [Heap.method?, ho', he, hc', hm]

/-- A bound method stays bound to its object. -/
theorem BoundTo.steady {g : Function} (hb : h.BoundTo g o) (hs : h.Steady h') :
    h'.BoundTo g o := by
  obtain ⟨name, f, hm, hg⟩ := hb.method
  exact ⟨hb.receiver.steady hs, name, f, hs.grows.method? hm, hg⟩

/-- A frame inside a call of a bound method stays inside it. -/
theorem Serves.steady {g : Function} (hr : h.Serves r d g o) (hs : h.Steady h') :
    h'.Serves r d g o :=
  ⟨ancestor?_grows hs.grows hr.closure, hr.receiver.steady hs, hr.bound.steady hs⟩

/-! ## Changes of a heap -/

namespace Steady

/-- A heap may stay as it is. -/
theorem refl (h : Heap) : h.Steady h :=
  ⟨.refl h, fun r f f' hf hf' => by
    rw [hf] at hf'
    cases hf'
    rfl⟩

/-- What is steady over one stretch and over the next is steady over both. -/
theorem trans (hs : h.Steady h') (hs' : h'.Steady h'') : h.Steady h'' := by
  refine ⟨hs.grows.trans hs'.grows, fun r f f'' hf hf'' => ?_⟩
  obtain ⟨f', hf', -⟩ := hs.grows.frames r f hf
  exact (hs'.receiver r f' f'' hf' hf'').trans (hs.receiver r f f' hf hf')

/-- What leaves the frames is steady. -/
theorem of_frames (g : h.Grows (fun _ => True) h') (hf : h'.frames = h.frames) : h.Steady h' :=
  ⟨g, fun r f f' hr hr' => by
    rw [frame?, hf] at hr'
    rw [frame?] at hr
    rw [hr] at hr'
    cases hr'
    rfl⟩

/-- Opening a frame is steady. -/
theorem newFrame (h : Heap) (parent : FrameRef) (values : Bindings Value) :
    h.Steady (h.newFrame parent values).2 := by
  refine ⟨newFrame_grows h parent values, fun r f f' hf hf' => ?_⟩
  have hne := ne_size_of_present (Option.isSome_iff_exists.2 ⟨f, hf⟩)
  rw [frame?_newFrame, if_neg hne, hf] at hf'
  cases hf'
  rfl

/-- Binding any other name is steady. -/
theorem define {name : String} (hn : name ≠ receiverName) (r : FrameRef) (v : Value) :
    h.Steady (h.define r name v) := by
  refine ⟨define_grows _ _ _ _ (.inl trivial), fun r' f f' hf hf' => ?_⟩
  rw [frame?_define name v hf] at hf'
  cases hf'
  split
  · rw [Bindings.get?_insert, if_neg hn]
  · rfl

end Steady

/-- A new frame has the receiver of the frame around it, unless it binds another. -/
theorem Receives.newFrame (hr : h.Receives r d o) {values : Bindings Value}
    (hn : values.get? receiverName = none) :
    (h.newFrame r values).2.Receives (h.newFrame r values).1 (d + 1) o := by
  refine .outer (f := ⟨values, some r⟩) ?_ hn rfl (hr.steady (.newFrame h r values))
  rw [frame?_newFrame]
  exact if_pos rfl

/-- A frame that does not bind the receiver, opened inside the call, is inside it one frame further.
-/
theorem Serves.newFrame {g : Function} (hr : h.Serves r d g o) {values : Bindings Value}
    (hn : values.get? receiverName = none) :
    (h.newFrame r values).2.Serves (h.newFrame r values).1 (d + 1) g o := by
  have made := frame?_newFrame h r values ⟨h.frames.size⟩
  rw [if_pos rfl] at made
  have later := hr.steady (.newFrame h r values)
  refine ⟨?_, hr.receiver.newFrame hn, later.bound⟩
  change (h.newFrame r values).2.ancestor? ⟨h.frames.size⟩ (d + 1) = some g.closure
  rw [Heap.ancestor?, made]
  exact later.closure

/-- A method that is bound to an object has it as its receiver. -/
theorem bind_receives (h : Heap) (f : Function) (o : ObjectRef) :
    (h.bind f o).2.Receives (h.bind f o).1.closure 0 o := by
  have made := frame?_newFrame h f.closure
    ((∅ : Bindings Value).insert receiverName (.object o)) ⟨h.frames.size⟩
  rw [if_pos rfl] at made
  exact .here made (by rw [Bindings.get?_insert, if_pos rfl])

/-- A method bound to an object is bound to it. -/
theorem bind_boundTo {name : String} {f : Function} (hm : h.method? o name = some f) :
    (h.bind f o).2.BoundTo (h.bind f o).1 o := by
  have grows : h.Grows (fun _ => True) (h.bind f o).2 := bind_grows h f o
  exact ⟨bind_receives h f o, name, f, grows.method? hm, rfl⟩

/-- The closure of a bound method is inside its call, no frame away. -/
theorem BoundTo.serves {g : Function} (hb : h.BoundTo g o) : h.Serves g.closure 0 g o := by
  obtain ⟨f, hf⟩ := hb.receiver.frame
  exact ⟨by simp [ancestor?, hf], hb.receiver, hb⟩

end Heap
end Lox
