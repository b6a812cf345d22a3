/-
# Frames of two evaluators

How the heap of the evaluator with distances and that of the lexical one belong together. A variable
is a name in a frame; `home` tells in which frame of the lexical heap the variable of a frame lives
(`Pairing`). A frame of the one and a frame of the other are the same place in the program (`View`)
if each name that the scopes around have leads to one and the same variable from both.
-/

import Lox.Proofs.Eval.Keeps
import Lox.Proofs.Lexical.Eval
import Lox.Proofs.Scope.Placed

namespace Lox

open Scope (Scopes)

namespace Heap

variable {gains : FrameRef → Prop} {h h' : Heap}

/-- A bound name stays bound. -/
theorem Grows.bound (g : h.Grows gains h') {r : FrameRef} {name : String}
    (hb : (h.getLocal? r name).isSome = true) : (h'.getLocal? r name).isSome = true := by
  obtain ⟨f, hf⟩ := Option.isSome_iff_exists.1 (frame?_isSome_of_getLocal? hb)
  obtain ⟨f', hf', -, hw, -⟩ := g.frames r f hf
  simp only [getLocal?, hf, Option.bind_some] at hb
  simpa only [getLocal?, hf', Option.bind_some, Bindings.contains] using hw name hb

/-- A frame that gains no names has no new ones. -/
theorem Grows.bound_iff (g : h.Grows gains h') {r : FrameRef} {name : String} (hr : ¬ gains r)
    (hf : (h.frame? r).isSome = true) :
    (h'.getLocal? r name).isSome = true ↔ (h.getLocal? r name).isSome = true := by
  refine ⟨fun hb => ?_, g.bound⟩
  obtain ⟨f, hf⟩ := Option.isSome_iff_exists.1 hf
  obtain ⟨f', hf', -, -, hw⟩ := g.frames r f hf
  simp only [getLocal?, hf', Option.bind_some] at hb
  simpa only [getLocal?, hf, Option.bind_some, Bindings.contains] using hw hr name hb

/-- No frame out is the frame itself. -/
theorem getAt?_zero (h : Heap) (r : FrameRef) (name : String) :
    h.getAt? r 0 name = h.getLocal? r name := by
  rw [getAt?, ancestor?, getLocal?]
  cases hf : h.frame? r with
  | none => rfl
  | some f => simp [getLocal?, hf]

/-- Walking outward from `r`, the first frame that binds the name or is the global one is `a`. -/
inductive Outward (h : Heap) (name : String) : FrameRef → FrameRef → Prop where
  | here {r : FrameRef} (hf : (h.frame? r).isSome = true)
      (hr : r = .global ∨ (h.getLocal? r name).isSome = true) : Outward h name r r
  | out {r parent a : FrameRef} {f : Frame} (hf : h.frame? r = some f) (hr : r ≠ .global)
      (hn : (h.getLocal? r name).isSome = false) (hp : f.parent = some parent)
      (hi : parent.index < r.index) (ho : Outward h name parent a) : Outward h name r a

/-- The first frame outward that binds a name stays the first, while no frame but the global one
gains names. -/
theorem Outward.grows {name : String} {r a : FrameRef}
    (g : h.Grows (fun r => r = .global) h') (ho : h.Outward name r a) : h'.Outward name r a := by
  induction ho with
  | @here r hf hr =>
    refine .here ?_ (hr.imp id g.bound)
    obtain ⟨f, hf⟩ := Option.isSome_iff_exists.1 hf
    obtain ⟨f', hf', -⟩ := g.frames r f hf
    simp [hf']
  | @out r parent a f hf hr hn hp hi _ ih =>
    obtain ⟨f', hf', hp', -⟩ := g.frames r f hf
    refine .out hf' hr ?_ (hp'.trans hp) hi ih
    rw [Bool.eq_false_iff, Ne, g.bound_iff hr (by simp [hf])]
    simp [hn]

/-- The walk by name finds the frame, if it binds the name. -/
theorem Outward.holder? {name : String} {r a : FrameRef} (ho : h.Outward name r a) :
    h.holder? r name = if (h.getLocal? a name).isSome then some a else none := by
  induction ho with
  | @here r hf hr =>
    obtain ⟨f, hf⟩ := Option.isSome_iff_exists.1 hf
    rw [Heap.holder?, hf]
    simp only [getLocal?, hf, Option.bind_some, Bindings.contains] at hr ⊢
    by_cases hb : (f.values.get? name).isSome = true
    · simp [hb]
    · have hg := hr.resolve_right hb
      subst hg
      simp only [hb, if_false, FrameRef.global, Nat.not_lt_zero]
      cases f.parent <;> rfl
  | @out r parent a f hf hr hn hp hi _ ih =>
    rw [Heap.holder?, hf]
    have hc : f.values.contains name = false := by simpa [getLocal?, hf, Bindings.contains] using hn
    simp only [hc, Bool.false_eq_true, if_false, hp, hi, if_true]
    exact ih

end Heap

end Lox
