/-
# Access to shared frames

Several frames can have one parent, so a frame is so many parents out from many others. What walks
outward and writes at their ends do then is stated in `Heap.Access`: walks compose, they end exactly
where the chain of parents ends, and a write is seen through every walk that leads to the frame it
was made in, and through no other. This holds of all frames that come from frames without parents by
opening frames inside others, binding names and assigning to them (`Heap.Built.access`). A running
program has no other frames (`Heap.Linked.built`).
-/

import Lox.Proofs.Heap.WellFormed

namespace Lox
namespace Heap

/-- The frames come from frames without parents: by opening frames inside frames that are there, by
binding names, and by assigning in a frame or at the end of a walk. The rest of the heap may change
in any way. -/
inductive Built : Heap → Prop where
  | roots {h : Heap} (hp : ∀ r f, h.frame? r = some f → f.parent = none) : Built h
  | child {h : Heap} (hb : Built h) {parent : FrameRef} (hp : (h.frame? parent).isSome = true)
      (values : Bindings Value) : Built (h.newFrame parent values).2
  | define {h : Heap} (hb : Built h) (r : FrameRef) (name : String) (v : Value) :
    Built (h.define r name v)
  | assignLocal {h : Heap} (hb : Built h) (r : FrameRef) (name : String) (v : Value) :
    Built (h.assignLocal r name v).2
  | assignAt {h : Heap} (hb : Built h) (r : FrameRef) (distance : Nat) (name : String)
      (v : Value) : Built (h.assignAt r distance name v).2
  | aside {h h' : Heap} (hb : Built h) (hf : h'.frames = h.frames) : Built h'

/-- The frames from a frame outward, each the parent of the one before it, the last one without a
parent. -/
inductive Chain (h : Heap) : FrameRef → List FrameRef → Prop where
  | root {r : FrameRef} {f : Frame} (hf : h.frame? r = some f) (hp : f.parent = none) :
    Chain h r [r]
  | inside {r p : FrameRef} {outer : List FrameRef} (hp : h.Parent r p) (hc : Chain h p outer) :
    Chain h r (r :: outer)

/-- Going outward from a frame comes to an end. -/
def Grounded (h : Heap) : Prop :=
  ∀ r, (h.frame? r).isSome = true → ∃ chain, h.Chain r chain

/-- What walks outward and writes at their ends do. -/
structure Access (h : Heap) : Prop where
  /-- A walk can be made in two parts. -/
  composes : ∀ f d e, h.ancestor? f (d + e) = (h.ancestor? f d).bind fun a => h.ancestor? a e
  /-- A walk leads along the chain of parents, and nowhere exactly if the chain is too short. -/
  ends : ∀ f, (h.frame? f).isSome = true → ∃ chain, h.Chain f chain ∧
    ∀ d, h.ancestor? f d = chain[d]? ∧ (h.ancestor? f d = none ↔ chain.length ≤ d)
  /-- A write succeeds exactly if its walk leads to a frame that binds the name. -/
  succeeds : ∀ g e m v, (h.assignAt g e m v).1 = true ↔
    ∃ a, h.ancestor? g e = some a ∧ (h.getLocal? a m).isSome = true
  /-- A write that succeeds is seen through the walks to the same frame, for its name, and changes
  nothing else. -/
  seen : ∀ g e m v, (h.assignAt g e m v).1 = true → ∀ f d n,
    (h.assignAt g e m v).2.getAt? f d n =
      if n = m ∧ h.ancestor? f d = h.ancestor? g e then some v else h.getAt? f d n
  /-- A write that fails changes nothing. -/
  fails : ∀ g e m v, (h.assignAt g e m v).1 = false → ∀ f d n,
    (h.assignAt g e m v).2.getAt? f d n = h.getAt? f d n
  /-- No write redirects a walk. -/
  walks : ∀ g e m v f d, (h.assignAt g e m v).2.ancestor? f d = h.ancestor? f d

variable {h h' : Heap} {r p : FrameRef} {chain : List FrameRef}

/-! ## Walks -/

/-- So many frames out from the parent is one more from the frame. -/
theorem ancestor?_parent (hp : h.Parent r p) (d : Nat) :
    h.ancestor? r (d + 1) = h.ancestor? p d := by
  obtain ⟨f, hf, hp⟩ := hp
  simp [ancestor?, hf, hp]

/-- Walks outward compose. -/
theorem ancestor?_add (h : Heap) (r : FrameRef) (d e : Nat) :
    h.ancestor? r (d + e) = (h.ancestor? r d).bind fun a => h.ancestor? a e := by
  induction d generalizing r with
  | zero =>
    cases hf : h.frame? r with
    | none => cases e <;> simp [ancestor?, hf]
    | some f => simp [ancestor?, hf]
  | succ d ih =>
    rw [Nat.add_right_comm]
    simp only [ancestor?, ih, Option.bind_assoc]

/-- The frame so many out is the one at that place of the chain. -/
theorem Chain.ancestor?_eq (hc : h.Chain r chain) (d : Nat) : h.ancestor? r d = chain[d]? := by
  induction hc generalizing d with
  | root hf hp => cases d <;> simp [ancestor?, hf, hp]
  | inside hp _ ih =>
    cases d with
    | zero =>
      obtain ⟨f, hf, -⟩ := hp
      simp [ancestor?, hf]
    | succ d => rw [ancestor?_parent hp, ih, List.getElem?_cons_succ]

/-! ## Changes that keep the parents -/

/-- The frames are the same ones, with the same parents. -/
def SameLinks (h h' : Heap) : Prop :=
  ∀ r, (h'.frame? r).map Frame.parent = (h.frame? r).map Frame.parent

namespace SameLinks

/-- A heap has the same links as itself. -/
theorem refl (h : Heap) : h.SameLinks h := fun _ => rfl

/-- Binding a name leaves the links. -/
theorem define (h : Heap) (r : FrameRef) (name : String) (v : Value) :
    h.SameLinks (h.define r name v) := by
  intro r'
  rw [frame?_define_eq, Option.map_map]
  congr 1
  funext f
  simp only [Function.comp]
  split <;> rfl

/-- Assigning in a frame leaves the links. -/
theorem assignLocal (h : Heap) (r : FrameRef) (name : String) (v : Value) :
    h.SameLinks (h.assignLocal r name v).2 := by
  unfold Heap.assignLocal
  split
  · exact .define h r name v
  · exact .refl h

/-- Assigning at the end of a walk leaves the links. -/
theorem assignAt (h : Heap) (r : FrameRef) (distance : Nat) (name : String) (v : Value) :
    h.SameLinks (h.assignAt r distance name v).2 := by
  unfold Heap.assignAt
  split
  · exact SameLinks.assignLocal h _ name v
  · exact .refl h

/-- What leaves the frames leaves the links. -/
theorem of_frames_eq (hf : h'.frames = h.frames) : h.SameLinks h' := fun r => by
  rw [frame?, hf, frame?]

/-- Where the parents stay, so does where walks lead. -/
theorem ancestor?_eq (hl : h.SameLinks h') (r : FrameRef) (d : Nat) :
    h'.ancestor? r d = h.ancestor? r d := by
  induction d generalizing r with
  | zero =>
    have same := congrArg (Option.map fun _ => r) (hl r)
    simpa [ancestor?, Function.comp_def] using same
  | succ d ih =>
    have same := congrArg (Option.bind · (Option.bind · fun p => h.ancestor? p d)) (hl r)
    simpa [ancestor?, ih, Option.bind_map, Function.comp_def] using same

/-- A frame of the one heap is a frame of the other. -/
theorem isSome_frame (hl : h.SameLinks h') (hr : (h'.frame? r).isSome = true) :
    (h.frame? r).isSome = true := by
  have := congrArg Option.isSome (hl r)
  simpa [hr] using this

end SameLinks

/-! ## Chains -/

/-- A chain stays where its frames keep their parents. -/
theorem Chain.mono (hp : ∀ r f, h.frame? r = some f → ∃ f', h'.frame? r = some f' ∧
    f'.parent = f.parent) (hc : h.Chain r chain) : h'.Chain r chain := by
  induction hc with
  | root hf hn =>
    obtain ⟨f', hf', hp'⟩ := hp _ _ hf
    exact .root hf' (hp'.trans hn)
  | inside hl _ ih =>
    obtain ⟨f, hf, hl⟩ := hl
    obtain ⟨f', hf', hp'⟩ := hp _ _ hf
    exact .inside ⟨f', hf', hp'.trans hl⟩ ih

/-- With the same links every walk outward comes to an end as before. -/
theorem Grounded.sameLinks (hg : h.Grounded) (hl : h.SameLinks h') : h'.Grounded := by
  intro r hr
  obtain ⟨chain, hc⟩ := hg r (hl.isSome_frame hr)
  refine ⟨chain, hc.mono fun r f hf => ?_⟩
  have := hl r
  rw [hf] at this
  exact Option.map_eq_some_iff.1 this

/-- A new frame goes in front of the chain of its parent. -/
theorem Grounded.newFrame (hg : h.Grounded) (hp : (h.frame? p).isSome = true)
    (values : Bindings Value) : (h.newFrame p values).2.Grounded := by
  have grows : h.Grows (fun _ => True) (h.newFrame p values).2 := newFrame_grows h p values
  have kept {r : FrameRef} {chain : List FrameRef} (hc : h.Chain r chain) :
      (h.newFrame p values).2.Chain r chain := by
    refine hc.mono fun r f hf => ?_
    obtain ⟨f', hf', hp', -⟩ := grows.frames r f hf
    exact ⟨f', hf', hp'⟩
  intro r hr
  by_cases he : r = ⟨h.frames.size⟩
  · obtain ⟨chain, hc⟩ := hg p hp
    have made : (h.newFrame p values).2.frame? r = some ⟨values, some p⟩ := by
      rw [frame?_newFrame, if_pos he]
    exact ⟨r :: chain, .inside ⟨_, made, rfl⟩ (kept hc)⟩
  · rw [frame?_newFrame, if_neg he] at hr
    obtain ⟨chain, hc⟩ := hg r hr
    exact ⟨chain, kept hc⟩

/-- In a heap that was built every walk outward comes to an end. -/
theorem Built.grounded (hb : h.Built) : h.Grounded := by
  -- By induction on how the frames were made: all but a new frame leave the parents as they are.
  induction hb with
  | roots hp =>
    intro r hr
    obtain ⟨f, hf⟩ := Option.isSome_iff_exists.1 hr
    exact ⟨[r], .root hf (hp r f hf)⟩
  | child _ hp values ih => exact ih.newFrame hp values
  | define _ r name v ih => exact ih.sameLinks (.define _ r name v)
  | assignLocal _ r name v ih => exact ih.sameLinks (.assignLocal _ r name v)
  | assignAt _ r distance name v ih => exact ih.sameLinks (.assignAt _ r distance name v)
  | aside _ hf ih => exact ih.sameLinks (.of_frames_eq hf)

/-- Frames that come after their parents can be made one by one. -/
theorem Linked.built (hl : h.Linked) : h.Built := by
  obtain ⟨f₀, hf₀, hp₀⟩ := hl.global
  have some₀ : 0 < h.frames.size := lt_size_of_frame? hf₀
  -- The frames up to any of them can be made; the global one is the first.
  have made : ∀ k < h.frames.size, Built { h with frames := h.frames.extract 0 (k + 1) } := by
    intro k hk
    induction k with
    | zero =>
      refine .roots fun r f hf => ?_
      rw [frame?, Array.getElem?_extract] at hf
      split at hf
      · have first : r.index = 0 := by omega
        rw [Nat.zero_add, first] at hf
        exact Option.some.inj (hf₀.symm.trans hf) ▸ hp₀
      · cases hf
    | succ k ih =>
      obtain ⟨p, hp, hlt⟩ := hl.earlier ⟨k + 1⟩ h.frames[k + 1] (Array.getElem?_eq_getElem hk)
        (by simp [FrameRef.global])
      have hlt : p.index < k + 1 := hlt
      have present : (frame? { h with frames := h.frames.extract 0 (k + 1) } p).isSome = true := by
        rw [frame?_isSome_iff, Array.size_extract]
        omega
      have next := (ih (by omega)).child present h.frames[k + 1].values
      rw [Heap.newFrame, ← hp, Array.push_extract_getElem, Nat.zero_min] at next
      exact next
  refine (made (h.frames.size - 1) (Nat.sub_lt some₀ Nat.one_pos)).aside ?_
  rw [Nat.sub_add_cancel some₀, Array.extract_size]

/-! ## Writes -/

/-- A write at the end of a walk binds the name there anew, if the walk leads to a frame that binds
it, and does nothing otherwise. -/
theorem assignAt_cases (h : Heap) (r : FrameRef) (distance : Nat) (name : String) (v : Value) :
    (∃ a, h.ancestor? r distance = some a ∧ (h.getLocal? a name).isSome = true ∧
      h.assignAt r distance name v = (true, h.define a name v)) ∨
    ((¬ ∃ a, h.ancestor? r distance = some a ∧ (h.getLocal? a name).isSome = true) ∧
      h.assignAt r distance name v = (false, h)) := by
  cases ha : h.ancestor? r distance with
  | none => exact .inr ⟨by simp, by simp [assignAt, ha]⟩
  | some a =>
    by_cases hb : (h.getLocal? a name).isSome = true
    · exact .inl ⟨a, rfl, hb, by simp [assignAt, assignLocal, ha, hb]⟩
    · exact .inr ⟨by simpa using hb, by simp [assignAt, assignLocal, ha, hb]⟩

/-- Binding a name in a frame is seen through the walks to that frame. -/
theorem getAt?_define {a : FrameRef} (ha : (h.frame? a).isSome = true) (m n : String) (v : Value)
    (r : FrameRef) (d : Nat) : (h.define a m v).getAt? r d n =
      if n = m ∧ h.ancestor? r d = some a then some v else h.getAt? r d n := by
  rw [getAt?, (SameLinks.define h a m v).ancestor?_eq, getAt?]
  cases hr : h.ancestor? r d with
  | none => simp
  | some b =>
    rw [Option.bind_some, Option.bind_some, getLocal?_define h a b m n v ha]
    simp only [Option.some.injEq, eq_comm, and_comm]

/-- **Reads and writes of shared frames.** However the frames were opened, bound and assigned to,
the laws of `Access` hold of all of them. A walk of `d + e` parents is one of `d` and then one of
`e`, and it leads nowhere exactly if the chain of parents is shorter. A write succeeds exactly if
its walk leads to a frame that binds the name. Then every read of that name through a walk to that
frame gives the new value, and every other read what it gave before; if the write fails, all reads
do. A write never changes where walks lead. -/
theorem Built.access (hb : h.Built) : h.Access where
  composes := h.ancestor?_add
  ends f hf := by
    obtain ⟨chain, hc⟩ := hb.grounded f hf
    refine ⟨chain, hc, fun d => ?_⟩
    rw [hc.ancestor?_eq]
    exact ⟨rfl, List.getElem?_eq_none_iff⟩
  succeeds g e m v := by
    obtain ⟨a, ha, hm, he⟩ | ⟨hn, he⟩ := h.assignAt_cases g e m v
    · simpa [he] using ⟨a, ha, hm⟩
    · simpa [he] using hn
  seen g e m v hs f d n := by
    obtain ⟨a, ha, hm, he⟩ | ⟨-, he⟩ := h.assignAt_cases g e m v
    · rw [he, ha, getAt?_define (frame?_isSome_of_getLocal? hm)]
    · simp [he] at hs
  fails g e m v hs f d n := by
    obtain ⟨a, -, -, he⟩ | ⟨-, he⟩ := h.assignAt_cases g e m v
    · simp [he] at hs
    · rw [he]
  walks g e m v := (SameLinks.assignAt h g e m v).ancestor?_eq

/-- A frame that binds `n`, two frames inside it, and a global frame that binds `n` too. -/
def siblings : Heap :=
  let outer := bare.define .global "n" .nil
  let shared := (outer.newFrame .global ((∅ : Bindings Value).insert "n" (.bool false))).2
  let first := (shared.newFrame ⟨1⟩ ∅).2
  (first.newFrame ⟨1⟩ ∅).2

/-- A case of `Built.access`: what is written from one of the `siblings` is read from the other one,
the global name keeps its value, and a write to a name that the first one does not bind itself is
not seen. -/
theorem siblings_access : siblings.Built ∧
    (siblings.assignAt ⟨2⟩ 1 "n" (.bool true)).1 = true ∧
    (siblings.assignAt ⟨2⟩ 1 "n" (.bool true)).2.getAt? ⟨3⟩ 1 "n" = some (.bool true) ∧
    (siblings.assignAt ⟨2⟩ 1 "n" (.bool true)).2.getAt? ⟨3⟩ 2 "n" = some .nil ∧
    (siblings.assignAt ⟨2⟩ 0 "n" (.bool true)).1 = false ∧
    (siblings.assignAt ⟨2⟩ 0 "n" (.bool true)).2.getAt? ⟨3⟩ 1 "n" = some (.bool false) ∧
    (∃ chain, siblings.Chain ⟨3⟩ chain ∧ chain.length = 3) := by
  have built : siblings.Built := by
    refine .child (.child (.child (.define (.roots ?_) ..) rfl _) rfl _) rfl _
    rintro ⟨_ | i⟩ f hf
    · cases hf
      rfl
    · cases hf
  have laws := built.access
  have bound : (siblings.assignAt ⟨2⟩ 1 "n" (.bool true)).1 = true :=
    (laws.succeeds ..).2 ⟨⟨1⟩, rfl, rfl⟩
  have unbound : (siblings.assignAt ⟨2⟩ 0 "n" (.bool true)).1 = false := rfl
  refine ⟨built, bound, ?_, ?_, unbound, ?_, ?_⟩
  · exact (laws.seen _ _ _ _ bound _ _ _).trans (if_pos ⟨rfl, rfl⟩)
  · exact (laws.seen _ _ _ _ bound _ _ _).trans (if_neg (by decide))
  · exact laws.fails _ _ _ _ unbound _ _ _
  · obtain ⟨chain, hc, hd⟩ := laws.ends ⟨3⟩ rfl
    refine ⟨chain, hc, Nat.le_antisymm ((hd 3).2.1 rfl) ?_⟩
    exact Nat.lt_of_not_le fun hl => Option.some_ne_none _ ((hd 2).2.2 hl)

end Heap
end Lox
