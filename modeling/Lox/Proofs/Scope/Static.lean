/-
# What the walk finds is what the tree says

The violations that the walk over a program finds are those of its occurrences, and no others
(`resolve_violations`). The distance that it records for a use of a name is the number of regions
between the use and the innermost region around it that holds the name (`resolve_distance`).
-/

import Lox.Grammar.Program
import Lox.Proofs.Scope.Judged
import Lox.Token.Scan

namespace Lox

/-- Entries of other numbers leave an entry as it is. -/
theorem Distances.get?_noting_of_notMem {id : NodeId} : ∀ {notes : List Note} {D : Distances},
    id ∉ notes.map Prod.fst → (D.noting notes).get? id = D.get? id
  | [], _, _ => rfl
  | (i, d) :: notes, D, h => by
    rw [List.map_cons, List.mem_cons, not_or] at h
    rw [show D.noting ((i, d) :: notes) = Distances.noting (D.insert i d) notes from rfl,
      Distances.get?_noting_of_notMem h.2, Distances.get?_insert, if_neg (Ne.symm h.1)]

namespace Scope

open Occurrence (Holds findings)

variable {before after os : List Occurrence} {o : Occurrence} {use : NameUse} {id : NodeId}

/-- The entry of an occurrence is one for its node. -/
theorem Occurrence.note?_id {note : Note} (h : o.note? before = some note) :
    o.id? = some note.1 := by
  unfold note? at h
  unfold id?
  cases hr : o.role with
  | uses use id =>
    rw [hr] at h
    dsimp only at h ⊢
    split at h
    · cases h
    · obtain ⟨d, -, rfl⟩ := Option.map_eq_some_iff.1 h
      rfl
  | declares =>
    rw [hr] at h
    cases h
  | returns =>
    rw [hr] at h
    cases h

/-- Entries are made for uses of names only. -/
theorem Occurrence.ids_findings : ∀ (os : List Occurrence) {before : List Occurrence},
    (findings note? before os).map Prod.fst ⊆ os.filterMap id?
  | [], _ => List.nil_subset _
  | o :: os, before => by
    intro id hid
    rw [findings, List.map_append, List.mem_append] at hid
    rcases hid with hid | hid
    · obtain ⟨note, hn, rfl⟩ := List.mem_map.1 hid
      have ho := Occurrence.note?_id (Option.mem_toList.1 hn)
      exact List.mem_filterMap.2 ⟨o, List.mem_cons_self .., ho⟩
    · obtain ⟨o', ho', h'⟩ := List.mem_filterMap.1 (Occurrence.ids_findings os hid)
      exact List.mem_filterMap.2 ⟨o', List.mem_cons_of_mem _ ho', h'⟩

/-- The walk over a program finds what the rules say of its occurrences, and makes their entries. -/
theorem resolve_judged (statements : List Stmt) (known : Distances) :
    Walk.Judged [] (occurrences statements) ⟨[], known, []⟩
      (Stmt.resolveList false false statements ⟨[], known, []⟩) := by
  have start : Ahead [] [] 0 [] := ⟨.nil, by simp, by simp, by simp⟩
  have bare : Shows [] [] (⟨[], known, []⟩ : Walk).scopes := .nil
  exact (Stmt.resolveList_comes statements start (by simp [Declaring]) bare).judged

/-- **The walk finds the violations that the tree has, and no others.** For every list of
statements, the violations are one for each occurrence that breaks a rule, in order, with the token
of the occurrence: a name declared in a region that has an earlier declaration of it, a name read in
the initializer of its first declaration in a region, a `return` outside of all functions, and a
receiver outside of all classes. -/
theorem resolve_violations (statements : List Stmt) (known : Distances) :
    (resolve statements known).violations =
      findings Occurrence.violation? [] (occurrences statements) :=
  (resolve_judged statements known).violations

/-- The second `a` is declared again, and so its initializer may read the first one. -/
example : (findings Occurrence.violation? [] (occurrences
    (Grammar.parse (tokens "{ var a = a; var a = a; }") 0).tree)).map (·.cause) =
      [.ownInitializer, .redeclared] := by decide +kernel

/-- The occurrences in a program have the numbers of its nodes. -/
theorem occurrences_ids (statements : List Stmt) :
    ((occurrences statements).filterMap Occurrence.id?).Perm (statements.flatMap Stmt.ids) := by
  rw [← Stmt.map_namesList]
  exact Stmt.occurrencesList_ids statements [] 0 []

/-- The entry of a use of a name, if no other node has its number. -/
theorem resolve_note {statements : List Stmt} (known : Distances)
    (hn : (statements.flatMap Stmt.ids).Nodup)
    (ho : occurrences statements = before ++ o :: after) (hr : o.role = .uses use id)
    (hc : use = .receiver → o.Inside .ofClass) :
    (resolve statements known).distances.get? id =
      (o.distance? before).or (known.get? id) := by
  have hid : o.id? = some id := by
    unfold Occurrence.id?
    rw [hr]
  have note : o.note? before = (o.distance? before).map fun d => (id, d) := by
    unfold Occurrence.note?
    rw [hr]
    exact if_neg fun h => h.2 (hc h.1)
  have nodup := (occurrences_ids statements).nodup_iff.2 hn
  rw [ho, List.filterMap_append, List.filterMap_cons_some hid, List.nodup_append,
    List.nodup_cons] at nodup
  obtain ⟨-, ⟨hafter, -⟩, hbefore⟩ := nodup
  have earlier : id ∉ (findings Occurrence.note? [] before).map Prod.fst := fun hm =>
    hbefore id (Occurrence.ids_findings before hm) id (List.mem_cons_self ..) rfl
  have later : id ∉ (findings Occurrence.note? (before ++ [o]) after).map Prod.fst := fun hm =>
    hafter (Occurrence.ids_findings after hm)
  have table : (resolve statements known).distances = ((known.noting
      (findings Occurrence.note? [] before)).noting (o.note? before).toList).noting
        (findings Occurrence.note? (before ++ [o]) after) := by
    rw [resolve, (resolve_judged statements known).distances, ho, Occurrence.findings_append,
      findings, List.nil_append, Distances.noting, Distances.noting, Distances.noting,
      Distances.noting, List.foldl_append, List.foldl_append]
  rw [table, Distances.get?_noting_of_notMem later, note]
  cases o.distance? before with
  | none => exact Distances.get?_noting_of_notMem earlier
  | some d => exact (Distances.get?_insert ..).trans (if_pos rfl)

/-- **The distances are those between the regions of the tree.** Let the nodes of a program that use
a name have different numbers, and take any of them, a receiver only if it is inside a class. What
the walk records for it, over what was known, is the number of regions out to the innermost region
around it that holds the name: one with a declaration of the name before the use, or a class for the
name of the receiver. The walk records nothing if there is no such region. -/
theorem resolve_distance {statements : List Stmt} (known : Distances)
    (hn : (statements.flatMap Stmt.ids).Nodup)
    (ho : occurrences statements = before ++ o :: after) (hr : o.role = .uses use id)
    (hc : use = .receiver → o.Inside .ofClass) :
    ∃ recorded : Option Nat,
      (resolve statements known).distances.get? id = recorded.or (known.get? id) ∧
      (∀ d, recorded = some d ↔ ∃ r, o.regions[d]? = some r ∧ Holds before r o.token.lexeme ∧
        ∀ i < d, ∀ r', o.regions[i]? = some r' → ¬ Holds before r' o.token.lexeme) ∧
      (recorded = none ↔ ∀ r ∈ o.regions, ¬ Holds before r o.token.lexeme) := by
  refine ⟨o.distance? before, resolve_note known hn ho hr hc, fun d => ?_, ?_⟩
  · rw [Occurrence.distance?, List.findIdx?_eq_some_iff_getElem]
    constructor
    · rintro ⟨hd, holds, least⟩
      refine ⟨o.regions[d], List.getElem?_eq_getElem hd, of_decide_eq_true holds, ?_⟩
      intro i hi r' hr' hh
      obtain ⟨_, rfl⟩ := List.getElem?_eq_some_iff.1 hr'
      exact least i hi (decide_eq_true hh)
    · rintro ⟨r, hr, holds, least⟩
      obtain ⟨hd, rfl⟩ := List.getElem?_eq_some_iff.1 hr
      refine ⟨hd, decide_eq_true holds, fun i hi hh => ?_⟩
      exact least i hi _ (List.getElem?_eq_getElem (by omega)) (of_decide_eq_true hh)
  · rw [Occurrence.distance?, List.findIdx?_eq_none_iff]
    simp

/-- A variable that is used in a block in a function, and declared around the function and once
more behind the use. -/
def nestedStatements : List Stmt :=
  (Grammar.parse (tokens "{ var a; fun f(p) { { print a; var a; } } }") 0).tree

/-- A case of `resolve_distance`: the name is found two regions out, because its declaration in the
innermost region comes later. -/
theorem nestedStatements_distance :
    (nestedStatements.flatMap Stmt.ids).Nodup ∧
    ∃ before o after, occurrences nestedStatements = before ++ o :: after ∧
      o.role = .uses .read 0 ∧
      o.regions = [⟨[0, 1, 0], .block⟩, ⟨[1, 0], .function⟩, ⟨[0], .block⟩] ∧
      (resolve nestedStatements ∅).distances.get? 0 = some 2 := by
  have hn : (nestedStatements.flatMap Stmt.ids).Nodup := by decide +kernel
  have shape : ((occurrences nestedStatements)[3]?.map fun o =>
      (o.role, o.token.lexeme, o.regions)) = some (.uses .read 0, "a",
        [⟨[0, 1, 0], .block⟩, ⟨[1, 0], .function⟩, ⟨[0], .block⟩]) := by decide +kernel
  obtain ⟨o, ho, he⟩ := Option.map_eq_some_iff.1 shape
  obtain ⟨hlt, rfl⟩ := List.getElem?_eq_some_iff.1 ho
  simp only [Prod.mk.injEq] at he
  obtain ⟨hrole, hname, hregions⟩ := he
  have split : occurrences nestedStatements = (occurrences nestedStatements).take 3 ++
      (occurrences nestedStatements)[3] :: (occurrences nestedStatements).drop 4 := by
    rw [← List.drop_eq_getElem_cons hlt, List.take_append_drop]
  obtain ⟨recorded, hget, hsome, -⟩ := resolve_distance ∅ hn split hrole (by simp)
  have found : recorded = some 2 := by
    rw [hsome, hname, hregions]
    refine ⟨⟨[0], .block⟩, rfl, by decide +kernel, ?_⟩
    intro i hi r' hr'
    have : i = 0 ∨ i = 1 := by omega
    rcases this with rfl | rfl
    · obtain rfl := Option.some.inj hr'
      decide +kernel
    · obtain rfl := Option.some.inj hr'
      decide +kernel
  refine ⟨hn, _, _, _, split, hrole, hregions, ?_⟩
  rw [hget, found]
  rfl

end Scope
end Lox
