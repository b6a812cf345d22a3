/-
# Reads of resolved names succeed

In a session, whatever sources were run before, a node that reads a name and has a recorded distance
finds the name bound that many frames out from the frame that is active when it is reached
(`Session.Reachable.reads_resolved`). A program can fail for an undefined variable by reading it
only at a node that has no distance.
-/

import Lox.Proofs.Eval.Reads
import Lox.Proofs.Session.Reachable
import Lox.Proofs.Tree.Equality

namespace Lox

namespace Session

/-- Running the source in the session comes to a task on the machine `m`. -/
structure Visits (s : Session) (clock : Nat → Float) (fuel : Nat) (source : String) (t : Task)
    (m : Machine) : Prop where
  accepts : s.Accepts source
  visits : Eval.ProgramVisits ⟨(s.resolution source).distances, clock⟩ fuel (s.statements source)
    s.machine t m

variable {s s' : Session} {clock : Nat → Float} {fuel : Nat} {source : String}
  {outcome : Outcome}

/-- What a program comes to stands in frames that mirror the scopes around it. -/
theorem programVisits_fits {T : Distances → Prop} {U : Task → Machine → Prop} {p : Setting}
    {statements : List Stmt} {t : Task} {m m' : Machine}
    (hv : Eval.ProgramVisits p fuel statements m t m')
    (hU : ∀ t' m', Eval.ProgramVisits p fuel statements m t' m' → U t' m')
    (hp : Stmt.PlacedList false T statements []) (hb : m.heap.Bound T) (hs : m.Stands []) :
    t.Fits T U m' := by
  obtain ⟨pre, st, post, m₁, rfl, hpre, hv⟩ := hv
  have placed : ∀ pre : List Stmt, Stmt.PlacedList false T (pre ++ st :: post) [] →
      Stmt.PlacedList false T pre [] ∧ st.Placed false T [] := by
    intro pre
    induction pre with
    | nil =>
      intro hp
      rw [List.nil_append, Stmt.PlacedList] at hp
      exact ⟨by rw [Stmt.PlacedList]; trivial, hp.1⟩
    | cons s₁ pre ih =>
      intro hp
      rw [List.cons_append, Stmt.PlacedList, Stmt.scopesAfter_nil] at hp
      rw [Stmt.PlacedList, Stmt.scopesAfter_nil]
      exact ⟨⟨hp.1, (ih hp.2).1⟩, (ih hp.2).2⟩
  obtain ⟨hp₁, hp₂⟩ := placed pre hp
  obtain ⟨hb₁, hs₁⟩ := (Eval.execProgram_binds p fuel pre hp₁).ok hb hs hpre
  exact (hv.fits hb₁ (fun _ _ h => hU _ _ ⟨pre, st, post, m₁, rfl, hpre, h⟩) ⟨[], hp₂, hs₁⟩).2

/-- So does what a run of a source comes to. -/
theorem Visits.fits {t : Task} {m : Machine} (hs : s.Sound)
    (hv : s.Visits clock fuel source t m) :
    t.Fits (s.prepared source).Keeps (s.Visits clock fuel source) m :=
  programVisits_fits hv.visits (fun _ _ h => ⟨hv.accepts, h⟩) (hv.accepts.placed hs (by simp))
    (sound_prepared hs source).bound hs.frame

/-- A run that ends at a read of an unbound name comes to a node whose name is not bound. -/
theorem run_undefined {use : NameUse} {place : Place} {name : String} {token : Token}
    (h : s.run clock fuel source = some (outcome, s'))
    (hf : outcome.fault = some (.trouble (.undefined use place name) token))
    (hu : use ≠ .write) : ∃ t m, s.Visits clock fuel source t m ∧
      Eval.Misses ⟨(s.resolution source).distances, clock⟩ use place name token t m := by
  by_cases ha : s.Accepts source
  · rw [run_of_accepts ha] at h
    unfold execute at h
    split at h
    · cases h
      cases hf
    · rename_i hi
      cases h
      cases hf
      obtain hp | ⟨_, m₁, -, hp⟩ := Eval.Fails.of_bind ⟨_, hi⟩
      · obtain ⟨t, m, hv, hm⟩ := Eval.program_undefined_visits hu hp
        exact ⟨t, m, ⟨ha, hv⟩, hm⟩
      · obtain ⟨_, hp⟩ := hp
        unfold Eval.flush at hp
        split at hp <;> cases hp
    · cases h
  · obtain ⟨ds, distances, -, -, hr⟩ := run_of_rejects ha
    rw [hr] at h
    cases h
    cases hf

/-- The use of a name with a recorded distance finds it bound that many frames out. -/
theorem Visits.reads {m : Machine} {e : Expr} {use : NameUse} {id : NodeId}
    {name : Token} {d : Nat} (hs : s.Sound) (hv : s.Visits clock fuel source (.eval e) m)
    (he : e.names = [⟨use, id, name⟩]) (hu : use ≠ .write)
    (hd : (s.resolution source).distances.get? id = some d) :
    ∃ a v, m.heap.ancestor? m.frame d = some a ∧ m.heap.getLocal? a name.lexeme = some v ∧
      Eval.readName use (Eval.placeOf (s.resolution source).distances id) name m = .ok v m := by
  obtain ⟨a, ha, hb⟩ := Eval.reads_bound (hv.fits hs) (he ▸ List.mem_singleton_self _) hu
    (fun _ _ => rfl) hd
  obtain ⟨v, hb⟩ := Option.isSome_iff_exists.1 hb
  refine ⟨a, v, ha, hb, ?_⟩
  have : Eval.valueAt? m (.outward d) name.lexeme = some v := by
    rw [Eval.valueAt?, Heap.getAt?, ha]
    exact hb
  simp only [Eval.readName, Eval.placeOf, hd, this]

/-- **Reads of resolved names succeed.** Whenever the run of a source in a reachable session comes
to a variable or to the receiver, and the table has a distance for the node, the frame at that
distance from the active one exists and binds the name, so that the read yields its value. A run
fails for an undefined variable by reading it only at a node that has no distance. -/
theorem Reachable.reads_resolved (hs : s.Reachable) (clock : Nat → Float) (fuel : Nat)
    (source : String) :
    (∀ e id name d m, e = .ident id name ∨ e = .receiver id name →
      s.Visits clock fuel source (.eval e) m →
      (s.resolution source).distances.get? id = some d →
        ∃ a v, m.heap.ancestor? m.frame d = some a ∧ m.heap.getLocal? a name.lexeme = some v ∧
          ∀ k, Eval.eval ⟨(s.resolution source).distances, clock⟩ (k + 1) e m = .ok v m) ∧
    ∀ outcome s' use place name token, s.run clock fuel source = some (outcome, s') →
      outcome.fault = some (.trouble (.undefined use place name) token) → use ≠ .write →
        ∃ e id m, (use = .read ∧ e = .ident id token ∨ use = .receiver ∧ e = .receiver id token) ∧
          s.Visits clock fuel source (.eval e) m ∧
          (s.resolution source).distances.get? id = none ∧
          m.heap.getLocal? .global token.lexeme = none := by
  refine ⟨?_, ?_⟩
  · rintro e id name d m (rfl | rfl) hv hd
    · obtain ⟨a, v, ha, hb, hr⟩ := hv.reads hs.sound (by rw [Expr.names]) (by decide) hd
      exact ⟨a, v, ha, hb, fun _ => hr⟩
    · obtain ⟨a, v, ha, hb, hr⟩ := hv.reads hs.sound (by rw [Expr.names]) (by decide) hd
      exact ⟨a, v, ha, hb, fun _ => hr⟩
  · intro outcome s' use place name token h hf hu
    obtain ⟨t, m, hv, id, ht, rfl, rfl, hn⟩ := run_undefined h hf hu
    obtain ⟨e, rfl, he, hname⟩ : ∃ e, t = .eval e ∧
        (use = .read ∧ e = .ident id token ∨ use = .receiver ∧ e = .receiver id token) ∧
        e.names = [⟨use, id, token⟩] := by
      rcases ht with ⟨rfl, rfl⟩ | ⟨rfl, rfl⟩
      · exact ⟨_, rfl, .inl ⟨rfl, rfl⟩, by rw [Expr.names]⟩
      · exact ⟨_, rfl, .inr ⟨rfl, rfl⟩, by rw [Expr.names]⟩
    cases hd : (s.resolution source).distances.get? id with
    | none =>
      simp only [Eval.placeOf, hd] at hn
      exact ⟨e, id, m, he, hv, hd, hn⟩
    | some d =>
      -- The name is bound at the distance, so the read would not have failed.
      obtain ⟨a, v, -, -, hr⟩ := hv.reads hs.sound hname hu hd
      rw [Eval.readName, hn] at hr
      cases hr

/-- A function that reads a variable of the block around it. -/
def closureSource : String := "{ var a; fun f() { return a; } f(); }"

/-- The function of `closureSource`. -/
def closureDecl : FunDecl :=
  ⟨⟨.identifier, "f", 1⟩, [],
    [.ret ⟨.keyword .return_, "return", 1⟩ (some (.ident 0 ⟨.identifier, "a", 1⟩))]⟩

/-- The statements of `closureSource`. -/
def closureStatements : List Stmt :=
  [.block [.var ⟨.identifier, "a", 1⟩ none, .function closureDecl,
    .expression (.call (.ident 1 ⟨.identifier, "f", 1⟩) ⟨.punct .rightParen, ")", 1⟩ [])]]

/-- The source has these statements. -/
theorem closureSource_statements :
    (start .unlimited).statements closureSource = closureStatements := by decide +kernel

/-- Nothing is wrong with the source. -/
theorem closureSource_accepted : (start .unlimited).Accepts closureSource :=
  ⟨by decide +kernel, by decide +kernel⟩

/-- In the function the variable is one frame out, and in the block the function is none. -/
theorem closureSource_distances :
    ((start .unlimited).resolution closureSource).distances.get? 0 = some 1 ∧
      ((start .unlimited).resolution closureSource).distances.get? 1 = some 0 :=
  ⟨by decide +kernel, by decide +kernel⟩

/-- The machine when `f` is called. -/
def closureMachine : Machine :=
  { Machine.start .unlimited with
    heap := { Machine.initialHeap with
      frames := Machine.initialHeap.frames.push
        ⟨⟨[("a", .nil), ("f", .function ⟨0⟩)]⟩, some .global⟩
      functions := #[⟨closureDecl, ⟨1⟩, false⟩] }
    frame := ⟨1⟩ }

open Eval in
/-- Running `closureSource` comes to the read inside the function. -/
theorem closureSource_visits : ∃ m, (start .unlimited).Visits (fun _ => 0) 5 closureSource
    (.eval (.ident 0 ⟨.identifier, "a", 1⟩)) m := by
  have hf : eval ⟨((start .unlimited).resolution closureSource).distances, fun _ => 0⟩ 3
      (.ident 1 ⟨.identifier, "f", 1⟩) closureMachine = .ok (.function ⟨0⟩) closureMachine := by
    simp only [eval, evalRule, placeOf, closureSource_distances.2]
    rfl
  refine ⟨{ closureMachine with
    heap := (closureMachine.heap.newFrame ⟨1⟩ ∅).2, frame := ⟨2⟩, calls := 1 },
    closureSource_accepted, [], _, [], _, closureSource_statements, rfl, ?_⟩
  refine .part (@Starts.inner _ _ _ _ closureMachine [_, _] _ [] _ rfl rfl) (.part .expression ?_)
  exact .part (@Starts.body _ _ _ _ _ _ _ _ _ _ _ _ [] _ [] _ [] hf rfl rfl (.function rfl) rfl)
    (.part .returned .self)

/-- A case of `Reachable.reads_resolved`: the variable is found one frame out of the call. -/
theorem closureSource_reads :
    (start .unlimited).Reachable ∧ ∃ id name m,
      (start .unlimited).Visits (fun _ => 0) 5 closureSource (.eval (.ident id name)) m ∧
      ((start .unlimited).resolution closureSource).distances.get? id = some 1 ∧
      ∃ a v, m.heap.ancestor? m.frame 1 = some a ∧ m.heap.getLocal? a name.lexeme = some v := by
  have hr : (start .unlimited).Reachable := .start _
  obtain ⟨m, hv⟩ := closureSource_visits
  obtain ⟨a, v, h₁, h₂, -⟩ := (hr.reads_resolved (fun _ => 0) 5 closureSource).1 _ 0 _ 1 m
    (.inl rfl) hv closureSource_distances.1
  exact ⟨hr, 0, _, m, hv, closureSource_distances.1, a, v, h₁, h₂⟩

end Session

end Lox
