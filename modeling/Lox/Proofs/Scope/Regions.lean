/-
# Scopes and regions

The scopes that a walk over a tree has open are the regions around it: a scope has the names that
its region holds (`Shows`), and a name is pending exactly in the initializer of its first
declaration (`Sees`). When the walk opens a scope, no occurrence so far stands in the region that
goes with it, because the occurrences so far are at other positions (`Ahead`).
-/

import Lox.Proofs.Scope.Occurrences
import Lox.Proofs.Scope.Walk
import Mathlib.Data.List.Forall2

namespace Lox
namespace Scope

open Occurrence (Holds first?)

namespace Occurrence

variable {before os : List Occurrence} {o : Occurrence} {r : Region} {name : String}

/-- The first declaration among occurrences put together is that of the first part, if it has one.
-/
theorem first?_append : first? (before ++ os) r name =
    (first? before r name).or (first? os r name) := List.find?_append

/-- What declares nothing does not change which declaration is the first. -/
theorem first?_append_uses (h : ∀ o ∈ os, o.role ≠ .declares) :
    first? (before ++ os) r name = first? before r name := by
  have none : first? os r name = none := by
    rw [first?, List.find?_eq_none]
    intro o ho hd
    exact h o ho (of_decide_eq_true hd).1
  rw [first?_append, none, Option.or_none]

/-- What a region holds is not changed by uses. -/
theorem holds_append_uses (h : ∀ o ∈ os, o.role ≠ .declares) :
    Holds (before ++ os) r name ↔ Holds before r name := by
  rw [Holds, Holds, first?_append_uses h]

/-- The first declaration is one. -/
theorem mem_of_first? {d : Occurrence} (h : first? before r name = some d) :
    d ∈ before ∧ d.Declares r name :=
  ⟨List.mem_of_find?_eq_some h, by simpa using List.find?_some h⟩

/-- Outside of class regions, only declarations count. -/
theorem holds_iff_of_ne (h : r.kind ≠ .ofClass) :
    Holds before r name ↔ (first? before r name).isSome = true := by simp [Holds, h]

/-- The last occurrence may be a declaration. -/
theorem holds_concat : Holds (before ++ [o]) r name ↔ Holds before r name ∨ o.Declares r name := by
  have single : (first? [o] r name).isSome = true ↔ o.Declares r name := by
    rw [first?, List.find?_singleton]
    by_cases h : o.Declares r name <;> simp [h]
  rw [Holds, Holds, first?_append, Option.isSome_or, Bool.or_eq_true, single, or_assoc]

end Occurrence

/-! ## Positions still to come -/

/-- The walk is about to come to part `i` at the position, inside the regions: the occurrences so
far do not stand in that part or in a later one. -/
structure Ahead (before : List Occurrence) (pos : Position) (i : Nat) (regions : List Region) :
    Prop where
  nodup : regions.Nodup
  within : ∀ r ∈ regions, r.position <:+ pos
  regions : ∀ o ∈ before, ∀ r ∈ o.regions, r.position <:+ o.statement
  later : ∀ o ∈ before, ∀ j, i ≤ j → ¬ (j :: pos) <:+ o.statement

namespace Ahead

variable {before os : List Occurrence} {pos : Position} {i : Nat} {rs : List Region}

/-- The next part. -/
theorem next (h : Ahead before pos i rs) (ho : ∀ o ∈ os, o.Within (i :: pos)) :
    Ahead (before ++ os) pos (i + 1) rs where
  nodup := h.nodup
  within := h.within
  regions := List.forall_mem_append.2 ⟨h.regions, fun o hm => (ho o hm).regions⟩
  later := by
    refine List.forall_mem_append.2 ⟨fun o hm j hj => h.later o hm j (by omega), ?_⟩
    intro o hm j hj hs
    -- Two positions of one length that end the same are the same.
    have same : j :: pos = i :: pos :=
      (List.suffix_of_suffix_length_le hs (ho o hm).statement (by simp)).eq_of_length (by simp)
    have : j = i := (List.cons.inj same).1
    omega

/-- The first part inside of the part. -/
theorem down (h : Ahead before pos i rs) : Ahead before (i :: pos) 0 rs where
  nodup := h.nodup
  within := Region.position_suffix_cons h.within i
  regions := h.regions
  later o hm j _ hs := h.later o hm i (Nat.le_refl i) ((List.suffix_cons j (i :: pos)).trans hs)

/-- Occurrences that belong to the whole and not to a part. -/
theorem stay (h : Ahead before pos i rs) {os : List Occurrence}
    (ho : ∀ o ∈ os, o.statement = pos ∧ o.regions = rs) : Ahead (before ++ os) pos i rs where
  nodup := h.nodup
  within := h.within
  regions := List.forall_mem_append.2 ⟨h.regions, fun o hm =>
    (Occurrence.Within.own h.within (ho o hm).1 (ho o hm).2).regions⟩
  later := by
    refine List.forall_mem_append.2 ⟨h.later, fun o hm j _ hs => ?_⟩
    have := hs.length_le
    rw [(ho o hm).1, List.length_cons] at this
    omega

/-- A region that is opened at the position. -/
theorem enter (h : Ahead before pos i rs) (hp : ∀ r ∈ rs, r.position ≠ pos) (kind : RegionKind) :
    Ahead before pos i (⟨pos, kind⟩ :: rs) where
  nodup := List.nodup_cons.2 ⟨fun hm => hp _ hm rfl, h.nodup⟩
  within := Region.position_suffix_self h.within kind
  regions := h.regions
  later := h.later

/-- No region around the walk is at the position it is about to come to. -/
theorem position_ne (h : Ahead before pos i rs) : ∀ r ∈ rs, r.position ≠ i :: pos := by
  intro r hr he
  have := (h.within r hr).length_le
  rw [he, List.length_cons] at this
  omega

/-- No occurrence so far stands in a region that is still to be opened. -/
theorem apart (h : Ahead before pos i rs) :
    ∀ o ∈ before, ∀ r ∈ o.regions, r.position ≠ i :: pos :=
  fun o hm r hr he => h.later o hm i (Nat.le_refl i) (he ▸ h.regions o hm r hr)

/-- No occurrence so far belongs to the statement it is about to come to. -/
theorem fresh (h : Ahead before pos i rs) : ∀ o ∈ before, o.statement ≠ i :: pos :=
  fun o hm he => h.later o hm i (Nat.le_refl i) (he ▸ List.suffix_rfl)

end Ahead

/-! ## Scopes and regions -/

/-- The innermost region is not a class, so that names are declared in it. -/
def Declaring (regions : List Region) : Prop := ∀ r ∈ regions.head?, r.kind ≠ .ofClass

/-- The scope has the names that the region holds, and they are all defined. -/
def Matches (before : List Occurrence) (scope : Bindings Status) (r : Region) : Prop :=
  ∀ name, scope.get? name = if Holds before r name then some .defined else none

/-- The open scopes are the regions around the walk. -/
def Shows (before : List Occurrence) (regions : List Region) (scopes : Scopes) : Prop :=
  List.Forall₂ (Matches before) scopes regions

/-- Inside an expression of the statement at the position: a scope has the names that its region
holds, and the first declaration of a pending name belongs to the statement. -/
structure Sees (before : List Occurrence) (pos : Position) (regions : List Region) (w : Walk) :
    Prop where
  located : List.Forall₂ (fun scope r => ∀ name, scope.contains name = true ↔ Holds before r name)
    w.scopes regions
  pending : ∀ name, w.isPending name = true ↔
    ∃ r ∈ regions.head?, ∃ d ∈ first? before r name, d.statement = pos

section Shows

variable {before os : List Occurrence} {pos : Position} {regions : List Region} {scopes : Scopes}
  {w w' : Walk} {name : Token}

/-- A scope has the names that its region holds. -/
theorem Matches.contains_iff {scope : Bindings Status} {r : Region} (h : Matches before scope r)
    (n : String) : scope.contains n = true ↔ Holds before r n := by
  rw [Bindings.contains, h n]
  by_cases hh : Holds before r n <;> simp [hh]

/-- No name of it is waiting. -/
theorem Matches.settled {scope : Bindings Status} {r : Region} (h : Matches before scope r)
    (n : String) : scope.get? n ≠ some .declared := by
  rw [h n]
  split <;> simp

/-- A declaration that was just met is the first one in its region exactly if the scope did not have
the name. -/
theorem Matches.first_iff {scope : Bindings Status} {r : Region} (h : Matches before scope r)
    (hk : r.kind ≠ .ofClass) (ho : ∀ o ∈ before, o.statement ≠ pos) (n : String) :
    (∃ d ∈ first? (before ++ [⟨.declares, name, pos, r :: regions⟩]) r n, d.statement = pos) ↔
      scope.contains n = false ∧ name.lexeme = n := by
  rw [← Bool.not_eq_true, h.contains_iff, Occurrence.holds_iff_of_ne hk, Occurrence.first?_append]
  cases hf : first? before r n with
  | none => simp [first?, Occurrence.Declares, List.find?_singleton]
  | some d => simpa using ho d (Occurrence.mem_of_first? hf).1

/-- Only what the regions hold counts. -/
theorem Shows.congr {before' : List Occurrence} (h : Shows before regions scopes)
    (hh : ∀ r ∈ regions, ∀ n, Holds before' r n ↔ Holds before r n) :
    Shows before' regions scopes := by
  unfold Shows at h ⊢
  induction h with
  | nil => exact .nil
  | cons hm _ ih =>
    obtain ⟨hr, hrs⟩ := List.forall_mem_cons.1 hh
    exact .cons (fun n => (hm n).trans (if_congr (hr n).symm rfl rfl)) (ih hrs)

/-- Uses do not change what the open scopes show. -/
theorem Shows.past (h : Shows before regions scopes) (ho : ∀ o ∈ os, o.role ≠ .declares) :
    Shows (before ++ os) regions scopes :=
  h.congr fun _ _ _ => Occurrence.holds_append_uses ho

/-- A declaration adds its name to the innermost scope and to the innermost region. -/
theorem Shows.put (h : Shows before regions scopes) (hn : regions.Nodup) :
    Shows (before ++ [⟨.declares, name, pos, regions⟩]) regions
      (scopes.put name.lexeme .defined) := by
  cases h with
  | nil => exact .nil
  | @cons scope r scopes rs hm hs =>
    have added : ∀ r' n, Holds (before ++ [⟨.declares, name, pos, r :: rs⟩]) r' n ↔
        Holds before r' n ∨ (name.lexeme = n ∧ r = r') := by
      intro r' n
      rw [Occurrence.holds_concat]
      simp [Occurrence.Declares]
    refine .cons (fun n => ?_) ?_
    · rw [Bindings.get?_insert, hm n, if_congr (added r n) rfl rfl]
      by_cases hname : name.lexeme = n <;> simp [hname]
    · -- The outer regions are others than the innermost one.
      refine Shows.congr hs fun r' hr' n => ?_
      have hne : r ≠ r' := fun he => (List.nodup_cons.1 hn).1 (he ▸ hr')
      simp [added, hne]

/-- A new scope, for a region that nothing stands in yet. -/
theorem Shows.enter (h : Shows before regions scopes) {kind : RegionKind}
    {scope : Bindings Status}
    (hs : ∀ n, scope.get? n = if kind = .ofClass ∧ n = "this" then some .defined else none)
    (ho : ∀ o ∈ before, ∀ r ∈ o.regions, r.position ≠ pos) :
    Shows before (⟨pos, kind⟩ :: regions) (scope :: scopes) := by
  refine .cons (fun n => ?_) h
  have none : first? before ⟨pos, kind⟩ n = none := by
    cases hf : first? before ⟨pos, kind⟩ n with
    | none => rfl
    | some d =>
      obtain ⟨hm, -, -, hr⟩ := Occurrence.mem_of_first? hf
      exact absurd rfl (ho d hm _ (List.mem_of_mem_head? hr))
  rw [hs n]
  refine if_congr ?_ rfl rfl
  rw [Holds, none]
  simp

/-- Where no variable waits for its initializer. -/
theorem Shows.sees (h : Shows before regions w.scopes)
    (ho : ∀ o ∈ before, o.role = .declares → o.statement ≠ pos) : Sees before pos regions w where
  located := h.imp fun _ _ hm => hm.contains_iff
  pending n := by
    refine iff_of_false (fun hp => ?_) ?_
    · unfold Walk.isPending at hp
      generalize w.scopes = scopes at h hp
      cases h with
      | nil => cases hp
      | cons hm _ => exact hm.settled n (eq_of_beq hp)
    · rintro ⟨r, -, d, hd, he⟩
      obtain ⟨hm, hdecl⟩ := Occurrence.mem_of_first? hd
      exact ho d hm hdecl.1 he

/-- In the initializer of a variable that was just declared. -/
theorem Shows.sees_declared (h : Shows before regions w.scopes) (name : Token)
    (hk : Declaring regions) (hn : regions.Nodup)
    (ho : ∀ o ∈ before, o.statement ≠ pos) :
    Sees (before ++ [⟨.declares, name, pos, regions⟩]) pos regions (w.declare name) := by
  have after : Shows (before ++ [⟨.declares, name, pos, regions⟩]) regions
      (Scopes.put name.lexeme .defined w.scopes) := h.put hn
  obtain ⟨scopes, distances, violations⟩ := w
  cases h with
  | nil => exact ⟨.nil, fun n => by simp [Walk.declare, Walk.isPending]⟩
  | @cons scope r scopes rs hm hs =>
    obtain ⟨inner, outer⟩ := List.forall₂_cons.1 after
    have own : ∀ n, (∃ r' ∈ (r :: rs).head?,
        ∃ d ∈ first? (before ++ [⟨.declares, name, pos, r :: rs⟩]) r' n, d.statement = pos) ↔
          scope.contains n = false ∧ name.lexeme = n := fun n => by
      simpa using hm.first_iff (hk r rfl) ho n
    have located := outer.imp fun scope r (h : Matches _ scope r) => h.contains_iff
    by_cases hc : scope.contains name.lexeme = true
    · have hd : Walk.declare ⟨scope :: scopes, distances, violations⟩ name =
          ⟨scope :: scopes, distances, violations ++ [⟨.redeclared, name⟩]⟩ := by
        simp [Walk.declare, hc, Walk.blame]
      rw [hd]
      refine ⟨.cons (fun n => ?_) located, fun n => ?_⟩
      · rw [← inner.contains_iff n, Bindings.contains_insert]
        by_cases hname : name.lexeme = n
        · subst hname
          simp [hc]
        · simp [hname]
      · rw [own n]
        refine iff_of_false (by simp [Walk.isPending, hm.settled n]) ?_
        rintro ⟨hn, rfl⟩
        rw [hc] at hn
        cases hn
    · have hd : Walk.declare ⟨scope :: scopes, distances, violations⟩ name =
          ⟨scope.insert name.lexeme .declared :: scopes, distances, violations⟩ := by
        simp [Walk.declare, hc]
      rw [hd]
      refine ⟨.cons (fun n => ?_) located, fun n => ?_⟩
      · rw [← inner.contains_iff n, Bindings.contains_insert, Bindings.contains_insert]
      · rw [own n]
        by_cases hname : name.lexeme = n
        · subst hname
          simpa [Walk.isPending] using hc
        · simp [Walk.isPending, hname, hm.settled n]

/-- Nor what is seen inside an expression. -/
theorem Sees.past (h : Sees before pos regions w) (hs : w'.scopes = w.scopes)
    (ho : ∀ o ∈ os, o.role ≠ .declares) : Sees (before ++ os) pos regions w' where
  located := by
    rw [hs]
    exact h.located.imp fun scope r hm n =>
      (hm n).trans (Occurrence.holds_append_uses ho).symm
  pending n := by
    have same : w'.isPending n = w.isPending n := by
      unfold Walk.isPending
      rw [hs]
    rw [same, h.pending n]
    simp only [Occurrence.first?_append_uses ho]

/-- A name is found as many scopes out as the innermost region stands that holds it. -/
theorem Sees.distance? (h : Sees before pos regions w) (n : String) :
    w.distance? n = regions.findIdx? fun r => Holds before r n := by
  have found : ∀ {scopes : Scopes} {rs : List Region}, List.Forall₂ (fun scope r =>
      ∀ name, scope.contains name = true ↔ Holds before r name) scopes rs →
        scopes.findIdx? (fun scope => scope.contains n) = rs.findIdx? fun r => Holds before r n := by
    intro scopes rs located
    induction located with
    | nil => rfl
    | @cons scope r scopes rs hm _ ih =>
      have same : scope.contains n = decide (Holds before r n) := by
        rw [Bool.eq_iff_iff, hm n, decide_eq_true_iff]
      rw [List.findIdx?_cons, List.findIdx?_cons, same, ih]
  exact found h.located

end Shows

end Scope
end Lox
