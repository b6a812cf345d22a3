/-
# Every node has a number of its own

Whatever is read in a process, sources that a session runs and other lists of tokens, well formed or
not, no number stands at two nodes of the trees that come of it. So the walk over the trees makes at
most one entry for a number, and what the table of a session once has, it has for good
(`Session.History.identity`).
-/

import Lox.Proofs.Grammar.Numbering
import Lox.Proofs.Scope.Notes
import Lox.Proofs.Session.Reachable

namespace Lox

namespace Grammar

/-- What the grammar is asked for: statements, or one expression. -/
inductive Reading where
  | statements (tokens : List Token)
  | expression (tokens : List Token)

namespace Reading

/-- The nodes of the tree that is returned. -/
def nodes (n : NodeId) : Reading → List NameNode
  | statements tokens => Stmt.namesList (parse tokens n).tree
  | expression tokens => Expr.namesOption (parseExpression tokens n).tree

/-- The next free number behind it. -/
def nextId (n : NodeId) : Reading → NodeId
  | statements tokens => (parse tokens n).nextId
  | expression tokens => (parseExpression tokens n).nextId

/-- The numbers of what is read are fresh. -/
theorem fresh (n : NodeId) : ∀ r : Reading,
    Fresh n (r.nextId n) ((r.nodes n).map NameNode.id) ∧ n ≤ r.nextId n
  | statements tokens => by
    rw [nodes, Stmt.map_namesList]
    exact parse_fresh tokens n
  | expression tokens => by
    rw [nodes, Expr.map_namesOption]
    exact parseExpression_fresh tokens n

end Reading

end Grammar

namespace Session

variable {s s' s'' : Session} {clock : Nat → Float} {fuel : Nat} {source : String}
  {outcome : Outcome}

/-- The entries that are made for a source; the walk is left out if the source cannot be read. -/
def notes (s : Session) (source : String) : List Note :=
  if (Program.ofSource source s.nextId).diagnostics.isEmpty then
    Scope.notes (s.statements source) s.distances
  else []

/-- What happens in a process from a session on: sources are run in it, and tokens are read besides
(in other sessions, too), from the same stock of numbers. With it go the nodes of all trees that are
returned and all entries that are made, in order. -/
inductive History (s : Session) : List NameNode → List Note → Session → Prop where
  | none : History s [] [] s
  | run {nodes : List NameNode} {notes : List Note} {s₁ s₂ : Session} {clock : Nat → Float}
      {fuel : Nat} {source : String} {outcome : Outcome} (h : History s nodes notes s₁)
      (hr : s₁.run clock fuel source = some (outcome, s₂)) :
    History s (nodes ++ Stmt.namesList (s₁.statements source)) (notes ++ s₁.notes source) s₂
  | read {nodes : List NameNode} {notes : List Note} {s₁ : Session} (h : History s nodes notes s₁)
      (r : Grammar.Reading) :
    History s (nodes ++ r.nodes s₁.nextId) notes { s₁ with nextId := r.nextId s₁.nextId }

/-- A run goes on to the numbers behind the source, and makes the entries that it makes. -/
theorem run_table (h : s.run clock fuel source = some (outcome, s')) :
    s'.nextId = (Program.ofSource source s.nextId).nextId ∧
      s'.distances = s.distances.noting (s.notes source) := by
  have table := (Scope.resolve_records (s.statements source) s.distances).1
  unfold run at h
  dsimp only at h
  unfold notes
  split at h
  · rename_i hd
    rw [if_neg (by simpa using hd)]
    cases h
    exact ⟨rfl, rfl⟩
  · rename_i hd
    rw [if_pos (by simpa using hd)]
    split at h
    · cases h
      exact ⟨rfl, table⟩
    · obtain ⟨sink, rfl⟩ := execute_session h
      exact ⟨rfl, table⟩

/-- A number is noted no more often than the trees have it. -/
theorem count_notes (s : Session) (source : String) (id : NodeId) :
    ((s.notes source).map Prod.fst).count id ≤
      ((Stmt.namesList (s.statements source)).map NameNode.id).count id := by
  unfold notes
  split
  · exact (Scope.resolve_records (s.statements source) s.distances).2 id
  · exact Nat.zero_le _

namespace History

variable {nodes nodes' : List NameNode} {notes notes' : List Note}

/-- Two stretches of a history, one behind the other, are one. -/
theorem trans (h : s.History nodes notes s') (h' : s'.History nodes' notes' s'') :
    s.History (nodes ++ nodes') (notes ++ notes') s'' := by
  induction h' with
  | none => simpa using h
  | run _ hr ih =>
    have := ih.run hr
    rwa [List.append_assoc, List.append_assoc] at this
  | read _ r ih =>
    have := ih.read r
    rwa [List.append_assoc] at this

/-- All numbers are taken from the stock between the two sessions, each once. -/
theorem fresh (h : s.History nodes notes s') :
    Grammar.Fresh s.nextId s'.nextId (nodes.map NameNode.id) ∧ s.nextId ≤ s'.nextId := by
  induction h with
  | none => exact ⟨.nil, Nat.le_refl _⟩
  | @run nodes notes s₁ s₂ clock fuel source outcome _ hr ih =>
    have hp := Program.fresh source s₁.nextId
    rw [← Stmt.map_namesList] at hp
    rw [List.map_append, (run_table hr).1]
    exact ⟨ih.1.append hp.1 ih.2 hp.2, Nat.le_trans ih.2 hp.2⟩
  | @read nodes notes s₁ _ r ih =>
    have hp := r.fresh s₁.nextId
    rw [List.map_append]
    exact ⟨ih.1.append hp.1 ih.2 hp.2, Nat.le_trans ih.2 hp.2⟩

theorem count_notes (h : s.History nodes notes s') (id : NodeId) :
    (notes.map Prod.fst).count id ≤ (nodes.map NameNode.id).count id := by
  induction h with
  | none => exact Nat.zero_le _
  | @run nodes notes s₁ s₂ clock fuel source outcome _ hr ih =>
    have := Session.count_notes s₁ source id
    simp only [List.map_append, List.count_append]
    omega
  | read _ r ih =>
    simp only [List.map_append, List.count_append]
    omega

/-- No number is entered twice. -/
theorem nodup_notes (h : s.History nodes notes s') : (notes.map Prod.fst).Nodup := by
  rw [List.nodup_iff_count_le_one]
  intro id
  have once := List.nodup_iff_count_le_one.1 h.fresh.1.nodup id
  exact Nat.le_trans (h.count_notes id) once

/-- The table is what it was, with the entries made. -/
theorem table (h : s.History nodes notes s') : s'.distances = s.distances.noting notes := by
  induction h with
  | none => rfl
  | @run nodes notes s₁ s₂ clock fuel source outcome _ hr ih =>
    rw [(run_table hr).2, ih, Distances.noting, Distances.noting, Distances.noting,
      List.foldl_append]
  | read _ r ih => exact ih

/-- The table of a session that came from a new one has the entries made so far, and no others. -/
theorem get?_table {sink : Sink} (h : (start sink).History nodes notes s) (id : NodeId) (d : Nat) :
    s.distances.get? id = some d ↔ (id, d) ∈ notes := by
  rw [h.table, Distances.get?_noting id d h.nodup_notes fun _ _ => rfl]
  constructor
  · rintro (h | h)
    · cases h
    · exact h
  · exact .inr

/-- **Every node has a number of its own, and every entry is made once.** Take all that happens in a
process from a new session on, up to some session `s` and further to a session `s'`. No number
occurs at two nodes of all the trees that are returned, whether a source was run or tokens were read
besides, and whatever was wrong with them. No entry of a number is made twice. The table of `s` has
just the entries made so far, and each of them is still the entry of its number in `s'`. -/
theorem identity {sink : Sink} (h : (start sink).History nodes notes s)
    (h' : s.History nodes' notes' s') :
    ((nodes ++ nodes').map NameNode.id).Nodup ∧ ((notes ++ notes').map Prod.fst).Nodup ∧
      (∀ id d, s.distances.get? id = some d ↔ (id, d) ∈ notes) ∧
      ∀ id d, s.distances.get? id = some d → s'.distances.get? id = some d := by
  have whole := h.trans h'
  refine ⟨whole.fresh.1.nodup, whole.nodup_notes, h.get?_table, fun id d hd => ?_⟩
  rw [whole.get?_table, List.mem_append]
  exact .inl ((h.get?_table id d).1 hd)

end History

/-- A function that keeps a variable of the call it was made in. -/
def counterSource : String :=
  "fun make() { var n = nil; fun get() { n = n; return n; } return get; } var get = make();"

/-- A block with an error in the middle of an assignment. -/
def brokenSource : String := "{ var a; a = (a; a = a; }"

/-- A block that assigns to a variable of the block around it. -/
def assigningSource : String := "{ var b = get; { print b; b = b; } }"

/-- A case of `History.identity`: a source is run, tokens with an error in them are read, and a
second source is run. The assignment to `n` keeps the entry from the first run. -/
theorem counterSource_identity : ∃ (s s' : Session) (nodes nodes' : List NameNode)
    (notes notes' : List Note),
    (start .unlimited).History nodes notes s ∧ s.History nodes' notes' s' ∧
    notes = [(1, 1), (2, 1), (3, 1), (4, 0)] ∧ notes' = [(12, 1), (14, 1), (15, 1)] ∧
    ((nodes ++ nodes').map NameNode.id).Nodup ∧ s'.distances.get? 2 = some 1 := by
  have h : ((start .unlimited).run (fun _ => 0) 20 counterSource).bind (fun x =>
      let broken := Grammar.Reading.statements (tokens brokenSource)
      let s₁ : Session := { x.2 with nextId := broken.nextId x.2.nextId }
      (s₁.run (fun _ => 0) 20 assigningSource).map fun _ =>
        ((start .unlimited).notes counterSource, s₁.notes assigningSource,
          x.2.distances.get? 2)) =
      some ([(1, 1), (2, 1), (3, 1), (4, 0)], [(12, 1), (14, 1), (15, 1)], some 1) := by
    decide +kernel
  obtain ⟨⟨outcome, s⟩, hr, h⟩ := Option.bind_eq_some_iff.1 h
  obtain ⟨⟨outcome', s'⟩, hr', h⟩ := Option.map_eq_some_iff.1 h
  obtain ⟨hn, hn', hd⟩ : _ ∧ _ ∧ s.distances.get? 2 = some 1 := by simpa using h
  have first : (start .unlimited).History _ _ s := History.none.run hr
  have second : s.History _ _ s' :=
    (History.none.read (.statements (tokens brokenSource))).run hr'
  obtain ⟨nodup, -, -, kept⟩ := first.identity second
  exact ⟨s, s', _, _, _, _, first, second, hn, hn', nodup, kept 2 1 hd⟩

end Session
end Lox
