/-
# Sources in pieces

A source can be given to a session in pieces, between lines that end declarations: the pieces print
what the whole prints and leave the same globals, and a fault is the same one (`run_split`). Only
the lines of the later pieces are counted from their own beginnings. For this, the sources are
composed at each stage: scanned, the one gives the tokens of the other further down
(`tokens_newline`); parsed, the trees come one after the other (`parse_sequence`); walked, the
second starts outside of all scopes (`resolve_append`); and run, it starts where the first one
ended, on twins (`execute_twins`).
-/

import Lox.Proofs.Grammar.Sequence
import Lox.Proofs.Session.Alike
import Lox.Proofs.Token.Lines

namespace Lox

/-! ## Further down -/

/-- Where a fault is when the source stands on other lines: at a token of the source, which is moved
with it, or in a function that was there already. -/
def Shifted (lines lines' : Nat) (source : String) (h : Heap) (t t' : Token) : Prop :=
  (∃ u ∈ tokens source, t = u.moved lines ∧ t' = u.moved lines') ∨ (h.Uses t ∧ t' = t)

/-- Tokens that are moved read the same. -/
theorem faithful_shifted (lines lines' : Nat) (source : String) (h : Heap) :
    Faithful (Shifted lines lines' source h) := by
  rintro t t' (⟨u, -, rfl, rfl⟩ | ⟨-, rfl⟩) <;> exact ⟨rfl, rfl⟩

/-- A source further down has the same tokens, moved. -/
theorem tokens_shifted (lines lines' : Nat) (source : String) (h : Heap) :
    List.Forall₂ (Shifted lines lines' source h) (tokens (belowLines lines source))
      (tokens (belowLines lines' source)) := by
  rw [tokens_belowLines, tokens_belowLines, List.forall₂_map_left_iff,
    List.forall₂_map_right_iff, List.forall₂_same]
  exact fun t ht => .inl ⟨t, ht, rfl, rfl⟩

/-- Nothing is wrong with a source that is scanned and parsed without errors. -/
theorem Program.diagnostics_eq_nil_iff {source : String} {n : NodeId} :
    (ofSource source n).diagnostics = [] ↔
      lexicalErrors source = [] ∧ (Grammar.parse (tokens source) n).errors = [] := by
  simp [ofSource]

namespace Session

variable {s s₁ : Session} {clock : Nat → Float} {fuel : Nat} {source next : String}
  {outcome : Outcome}

/-- A source that is accepted is accepted further down. -/
theorem Accepts.moved (h : s.Accepts source) (lines : Nat) :
    s.Accepts (belowLines lines source) := by
  have hR := faithful_shifted 0 lines source s.machine.heap
  have same := tokens_shifted 0 lines source s.machine.heap
  rw [belowLines_zero] at same
  obtain ⟨lexical, grammar⟩ := Program.diagnostics_eq_nil_iff.1 h.diagnostics
  have parsed := Grammar.parse_alike hR same s.nextId s.nextId
  have walked : List.Forall₂ _ (s.resolution source).violations
      (s.resolution (belowLines lines source)).violations :=
    Scope.resolve_alike hR parsed.1 s.distances s.distances
  rw [grammar] at parsed
  rw [h.violations] at walked
  exact ⟨Program.diagnostics_eq_nil_iff.2
    ⟨lexicalErrors_belowLines lines lexical, List.forall₂_nil_left_iff.1 parsed.2⟩,
    List.forall₂_nil_left_iff.1 walked⟩

/-- Lines before a source move the faults that are raised at its tokens, and nothing else. -/
theorem run_belowLines (hs : s.Sound) (h : s.Accepts source) (clock : Nat → Float) (fuel : Nat)
    (lines lines' : Nat) :
    ∃ J, Option.Rel (RunTwin (Shifted lines lines' source s.machine.heap) J .empty)
      (s.run clock fuel (belowLines lines source))
      (s.run clock fuel (belowLines lines' source)) := by
  have hR := faithful_shifted lines lines' source s.machine.heap
  have upper := h.moved lines
  have lower := h.moved lines'
  have placed : Stmt.PlacedList false _ (s.statements (belowLines lines source)) [] :=
    upper.placed hs (by simp)
  have placed' : Stmt.PlacedList false _ (s.statements (belowLines lines' source)) [] :=
    lower.placed hs (by simp)
  have alike := Program.statements_alike hR (tokens_shifted lines lines' source s.machine.heap)
    s.nextId s.nextId
  have machine : (s.prepared (belowLines lines source)).machine.Twin
      (Shifted lines lines' source s.machine.heap)
      (SameEntry (s.prepared (belowLines lines source)).Keeps
        (s.prepared (belowLines lines' source)).Keeps) .empty
      (s.prepared (belowLines lines' source)).machine :=
    (hs.bound.twin hR (fun _ => keeps_of_prepared) (fun _ => keeps_of_prepared) fun t ht =>
      .inr ⟨ht, rfl⟩).machine
  refine ⟨SameEntry (s.prepared (belowLines lines source)).Keeps
    (s.prepared (belowLines lines' source)).Keeps, ?_⟩
  rw [run_of_accepts upper, run_of_accepts lower]
  refine execute_twins hR (fun id id' he => ?_) machine (alike.placed hR placed placed') clock fuel
  exact he _ _ (fun _ _ => rfl) fun _ _ => rfl

end Session

/-! ## One after the other -/

namespace Session

variable {s s₁ : Session} {clock : Nat → Float} {fuel : Nat} {source next : String}
  {outcome : Outcome}

/-- The statements of two sources, one below the other, are those of the one and then those of the
other. -/
theorem statements_newline {n n' : NodeId} (h : (Program.ofSource source n).diagnostics = [])
    (hn : (Program.ofSource (belowLines (lineCount source) next) n').diagnostics = [])
    (k : NodeId) : (Program.ofSource (source ++ "\n" ++ next) k).diagnostics = [] ∧
      Stmt.AlikeList Eq AnyNumber ((Program.ofSource source n).statements ++
          (Program.ofSource (belowLines (lineCount source) next) n').statements)
        (Program.ofSource (source ++ "\n" ++ next) k).statements := by
  obtain ⟨lexical, grammar⟩ := Program.diagnostics_eq_nil_iff.1 h
  obtain ⟨lexical', grammar'⟩ := Program.diagnostics_eq_nil_iff.1 hn
  obtain ⟨before, last, hb, hj⟩ := tokens_newline lexical next
  obtain ⟨before₁, last₁, hb₁, proper⟩ := tokens_eq source
  obtain ⟨before', last', hb', proper'⟩ := tokens_eq (belowLines (lineCount source) next)
  obtain ⟨rfl, -⟩ := List.append_singleton_inj.1 (hb.symm.trans hb₁)
  rw [hb', ← List.append_assoc] at hj
  rw [hb] at grammar
  rw [hb'] at grammar'
  obtain ⟨errors, alike⟩ := Grammar.parse_sequence (fun t ht => (proper t ht).inner) rfl
    (fun t ht => (proper' t ht).inner) rfl grammar grammar' k
  rw [← hj] at errors alike
  rw [← hb, ← hb'] at alike
  exact ⟨Program.diagnostics_eq_nil_iff.2 ⟨lexicalErrors_newline lexical lexical', errors⟩, alike⟩

/-- A source below another one is accepted with it if it is accepted by itself. -/
theorem Accepts.newline (hs : s.Sound) (h : s.Accepts source)
    (hn : s₁.Accepts (belowLines (lineCount source) next))
    (hd : s₁.distances = (s.resolution source).distances) :
    s.Accepts (source ++ "\n" ++ next) := by
  have fresh := (Program.fresh source s.nextId).1
  obtain ⟨diagnostics, alike⟩ := statements_newline h.diagnostics hn.diagnostics s.nextId
  have walked := Scope.resolve_alike faithful_eq alike s.distances s.distances
  rw [Scope.resolve_append (Program.formed source s.nextId) fresh.nodup
    (fun id hid => hs.free id (fresh.range hid).1) h.violations] at walked
  have first : (Scope.resolve (s.statements source) s.distances).distances = s₁.distances := hd.symm
  have second : (Scope.resolve (s₁.statements (belowLines (lineCount source) next))
    s₁.distances).violations = [] := hn.violations
  rw [first, second] at walked
  exact ⟨diagnostics, List.forall₂_nil_left_iff.1 walked⟩

end Session

namespace Eval

/-- Statements that went through can be left out. -/
theorem interpret_append {p : Setting} {fuel : Nat} {m₁ : Machine} (ts : List Stmt) :
    ∀ {ss : List Stmt} {m : Machine}, execProgram p fuel ss m = .ok () m₁ →
      interpret p fuel (ss ++ ts) m = interpret p fuel ts m₁
  | [], m, h => by
    cases h
    rfl
  | s :: ss, m, h => by
    obtain ⟨flow, m₂, hs, hss⟩ := ok_of_bind h
    have rest := interpret_append ts hss
    change ((exec p fuel s >>= fun _ => execProgram p fuel (ss ++ ts)) >>= fun _ => flush) m = _
    rw [bind_assoc, bind_of_ok hs]
    exact rest

/-- A program that ends without a fault was run to its end. -/
theorem execProgram_of_interpret {p : Setting} {fuel : Nat} {ss : List Stmt} {m m₁ : Machine}
    (h : interpret p fuel ss m = .ok () m₁) : execProgram p fuel ss m = .ok () m₁ := by
  obtain ⟨_, m₂, hp, hf⟩ := ok_of_bind h
  have same : m₂ = m₁ := by
    unfold flush at hf
    split at hf
    · cases hf
    · cases hf
      rfl
  exact same ▸ hp

end Eval

/-- At the outermost level, statements have their places independently of each other. -/
theorem Stmt.placedList_append {strict : Bool} {T : Distances → Prop} {ss ts : List Stmt} :
    Stmt.PlacedList strict T (ss ++ ts) [] ↔
      Stmt.PlacedList strict T ss [] ∧ Stmt.PlacedList strict T ts [] := by
  induction ss with
  | nil => simp [Stmt.PlacedList]
  | cons s ss ih =>
    simp only [List.cons_append, Stmt.PlacedList, Stmt.scopesAfter_nil, ih, and_assoc]

namespace Session

variable {s s₁ : Session} {clock : Nat → Float} {fuel : Nat} {source next : String}
  {outcome : Outcome}

/-- Statements that went through leave the rest to be run on the machine they end on. -/
theorem execute_append {ss : List Stmt} {m : Machine}
    (h : Eval.execProgram ⟨s.distances, clock⟩ fuel ss s.machine = .ok () m) (ts : List Stmt) :
    s.execute clock fuel (ss ++ ts) =
      Session.execute { s with machine := m } clock fuel ts := by
  unfold execute
  rw [Eval.interpret_append ts h]

/-- A run that nothing went wrong in: the statements went through, and what they printed was handed
on. -/
theorem execProgram_of_run (ha : s.Accepts source)
    (h : s.run clock fuel source = some (outcome, s₁)) (hf : outcome.fault = none) :
    ∃ m, Eval.execProgram ⟨(s.resolution source).distances, clock⟩ fuel (s.statements source)
        s.machine = .ok () m ∧
      outcome.output = m.sink.written ∧
      s₁ = { s.prepared source with
        machine := { m with sink := { m.sink with written := .empty } } } := by
  rw [run_of_accepts ha] at h
  unfold execute at h
  split at h
  · rename_i m hi
    cases h
    exact ⟨m, Eval.execProgram_of_interpret hi, rfl, rfl⟩
  · cases h
    cases hf
  · cases h

/-- The statements of a source with another one below it are those of the two, and each node has the
distance that it has where its source is run by itself. -/
theorem Accepts.statements_newline (hs : s.Sound) (hs₁ : s₁.Sound) (ha : s.Accepts source)
    (hn : s₁.Accepts (belowLines (lineCount source) next))
    (whole : s.Accepts (source ++ "\n" ++ next)) :
    ∃ upper lower, s.statements (source ++ "\n" ++ next) = upper ++ lower ∧
      Stmt.AlikeList Eq (SameEntry (s.prepared source).Keeps
        (s.prepared (source ++ "\n" ++ next)).Keeps) (s.statements source) upper ∧
      Stmt.AlikeList Eq (SameEntry (s₁.prepared (belowLines (lineCount source) next)).Keeps
        (s.prepared (source ++ "\n" ++ next)).Keeps)
        (s₁.statements (belowLines (lineCount source) next)) lower := by
  obtain ⟨-, alike⟩ := Session.statements_newline ha.diagnostics hn.diagnostics s.nextId
  obtain ⟨upper, lower, hsplit, hupper, hlower⟩ := alike.split
  have placed : Stmt.PlacedList false (s.prepared (source ++ "\n" ++ next)).Keeps
      (s.statements (source ++ "\n" ++ next)) [] := whole.placed hs (by simp)
  have placedUpper : Stmt.PlacedList false (s.prepared source).Keeps (s.statements source) [] :=
    ha.placed hs (by simp)
  have placedLower : Stmt.PlacedList false (s₁.prepared (belowLines (lineCount source) next)).Keeps
      (s₁.statements (belowLines (lineCount source) next)) [] := hn.placed hs₁ (by simp)
  rw [show s.statements (source ++ "\n" ++ next) = upper ++ lower from hsplit,
    Stmt.placedList_append] at placed
  exact ⟨upper, lower, hsplit, hupper.placed faithful_eq placedUpper placed.1,
    hlower.placed faithful_eq placedLower placed.2⟩

/-- A source goes on where the one above it ended: run together with it, it does what it does when
it is run by itself, so many lines further down. -/
theorem run_newline (hs : s.Reachable) (ha : s.Accepts source)
    (h : s.run clock fuel source = some (outcome, s₁)) (hf : outcome.fault = none)
    (hn : s₁.Accepts (belowLines (lineCount source) next)) :
    ∃ J, Option.Rel (RunTwin Eq J outcome.output)
      (s₁.run clock fuel (belowLines (lineCount source) next))
      (s.run clock fuel (source ++ "\n" ++ next)) := by
  obtain ⟨m, through, houtput, hs₁⟩ := execProgram_of_run ha h hf
  have entries : s₁.distances = (s.resolution source).distances := by
    rw [hs₁]
    rfl
  have number : s₁.nextId = (Program.ofSource source s.nextId).nextId := by
    rw [hs₁]
    rfl
  have whole := ha.newline hs.sound hn entries
  obtain ⟨upper, lower, hsplit, hupper, hlower⟩ :=
    ha.statements_newline hs.sound (Reachable.run hs h).sound hn whole
  -- The upper part goes through as it did, and ends on a twin of the machine it left.
  have heap : s.machine.heap.Twin Eq (SameEntry (s.prepared source).Keeps
      (s.prepared (source ++ "\n" ++ next)).Keeps) s.machine.heap :=
    hs.sound.bound.twin faithful_eq (fun _ => keeps_of_prepared) (fun _ => keeps_of_prepared)
      fun _ _ => rfl
  have twins : Eval.Twins Eq (SameEntry (s.prepared source).Keeps
      (s.prepared (source ++ "\n" ++ next)).Keeps) .empty
      (Eval.execProgram ⟨(s.resolution source).distances, clock⟩ fuel (s.statements source))
      (Eval.execProgram ⟨(s.resolution (source ++ "\n" ++ next)).distances, clock⟩ fuel upper)
      Eq := by
    refine Eval.execProgram_twins faithful_eq ?_ (fun id id' he => ?_) fuel hupper
    · rfl
    · exact he _ _ (fun _ _ => rfl) fun _ _ => rfl
  obtain ⟨_, m', through', twin, -⟩ := twins.ok heap.machine through
  -- Only what was printed tells that machine from the one that the lower part is run on.
  have keeps : ∀ D, (s₁.prepared (belowLines (lineCount source) next)).Keeps D →
      (s.prepared source).Keeps D := fun D hD =>
    keeps_of_later (t := s₁) (Nat.le_of_eq number.symm)
      (fun id _ => congrArg (fun D : Distances => D.get? id) entries) (keeps_of_prepared hD)
  have twin₁ : s₁.machine.Twin Eq (SameEntry
      (s₁.prepared (belowLines (lineCount source) next)).Keeps
      (s.prepared (source ++ "\n" ++ next)).Keeps) outcome.output m' := by
    have heap₁ := twin.heap.mono (sameEntry_of_keeps keeps fun _ hD => hD)
    rw [houtput]
    subst hs₁
    refine ⟨heap₁, twin.frame, twin.calls, ?_, twin.readings⟩
    simp [twin.sink]
  have skip : (s.prepared (source ++ "\n" ++ next)).execute clock fuel (upper ++ lower) =
      Session.execute { s.prepared (source ++ "\n" ++ next) with machine := m' } clock fuel
        lower := execute_append through' lower
  refine ⟨SameEntry (s₁.prepared (belowLines (lineCount source) next)).Keeps
    (s.prepared (source ++ "\n" ++ next)).Keeps, ?_⟩
  rw [run_of_accepts hn, run_of_accepts whole, hsplit, skip]
  refine execute_twins faithful_eq (fun id id' he => ?_) twin₁ hlower clock fuel
  exact he _ _ (fun _ _ => rfl) fun _ _ => rfl

end Session

/-! ## Whose fault it is -/

/-- The fault so many lines further down. -/
def Fault.moved (lines : Nat) : Fault → Fault
  | .trouble cause token => .trouble cause (token.moved lines)
  | .output error => .output error

/-- A token that is moved by no lines stays. -/
theorem Token.moved_zero (t : Token) : t.moved 0 = t := rfl

/-- A token that is found at each move either moves with the source, or stays where it is. -/
theorem shifted_own {source : String} {h : Heap} {t : Nat → Token}
    (ht : ∀ i j, Shifted i j source h (t i) (t j)) : ∃ own : Bool,
      (∀ i, t i = (t 0).moved (if own then i else 0)) ∧
      if own then t 0 ∈ tokens source else h.Uses (t 0) := by
  have line : ∀ {u v : Token} {i j : Nat}, u.moved i = v.moved j → u.line + i = v.line + j :=
    fun he => congrArg Token.line he
  rcases ht 0 1 with ⟨u, hu, h₀, h₁⟩ | ⟨hused, h₁⟩
  · -- One line further down the token has moved, so that it is none of a function from before.
    rw [Token.moved_zero] at h₀
    rw [← h₀] at h₁ hu
    refine ⟨true, fun i => ?_, hu⟩
    rcases ht 0 i with ⟨v, -, hv, hi⟩ | ⟨-, hi⟩
    · rw [hi, hv]
      rfl
    · rcases ht 1 i with ⟨v, -, hv, hi'⟩ | ⟨-, hi'⟩
      · have := line (h₁.symm.trans hv)
        have := line (u := t 0) (i := 0) (hi.symm.trans hi')
        have : i = 0 := by omega
        rw [this]
        rfl
      · have := line (u := t 0) (i := 0) (hi.symm.trans (hi'.trans h₁))
        omega
  · refine ⟨false, fun i => ?_, hused⟩
    rcases ht 0 i with ⟨v, -, hv, hi⟩ | ⟨-, hi⟩
    · rw [Token.moved_zero] at hv
      rw [← hv] at hi
      rcases ht 1 i with ⟨w, -, hw, hi'⟩ | ⟨-, hi'⟩
      · have := line (u := t 0) (i := 0) (h₁.symm.trans hw)
        have := line (hi.symm.trans hi')
        omega
      · exact hi'.trans h₁
    · exact hi

/-- A fault that is found at each move either moves with the source, or stays where it is. -/
theorem faults_own {source : String} {h : Heap} {f : Nat → Option Fault}
    (hf : ∀ i j, Option.Rel (Fault.Twin (Shifted i j source h)) (f i) (f j)) : ∃ own : Bool,
      (∀ i, f i = (f 0).map (Fault.moved (if own then i else 0))) ∧
      ∀ cause t, f 0 = some (.trouble cause t) →
        if own then t ∈ tokens source else h.Uses t := by
  cases h₀ : f 0 with
  | none =>
    refine ⟨true, fun i => ?_, fun _ _ hn => by cases hn⟩
    have := hf 0 i
    rw [h₀] at this
    cases hi : f i with
    | none => rfl
    | some g =>
      rw [hi] at this
      cases this
  | some f₀ =>
    cases f₀ with
    | output error =>
      refine ⟨true, fun i => ?_, fun _ _ hn => by cases hn⟩
      have := hf 0 i
      rw [h₀] at this
      cases hi : f i with
      | none =>
        rw [hi] at this
        cases this
      | some g =>
        rw [hi] at this
        obtain ⟨⟨⟩⟩ := this
        rfl
    | trouble cause t₀ =>
      have found : ∀ i, ∃ t, f i = some (.trouble cause t) := by
        intro i
        have := hf 0 i
        rw [h₀] at this
        cases hi : f i with
        | none =>
          rw [hi] at this
          cases this
        | some g =>
          rw [hi] at this
          obtain ⟨⟨_, _⟩⟩ := this
          exact ⟨_, rfl⟩
      choose t ht using found
      have same : t 0 = t₀ := by simpa [ht 0] using h₀
      have shifted : ∀ i j, Shifted i j source h (t i) (t j) := by
        intro i j
        have := hf i j
        rw [ht i, ht j] at this
        obtain ⟨⟨_, hr⟩⟩ := this
        exact hr
      obtain ⟨own, moves, owned⟩ := shifted_own shifted
      rw [same] at moves owned
      refine ⟨own, fun i => ?_, fun cause' t' he => ?_⟩
      · rw [ht i, moves i]
        rfl
      · cases he
        exact owned

namespace Session

variable {s s₁ : Session} {clock : Nat → Float} {fuel : Nat} {source next : String}
  {outcome : Outcome}

/-- The second run does what the first does, after some bytes were printed and with the fault so
many lines further down. -/
structure Follows (ahead : ByteArray) (lines : Nat) (x y : Outcome × Session) : Prop where
  output : y.1.output = ahead ++ x.1.output
  diagnostics : y.1.diagnostics = x.1.diagnostics
  fault : y.1.fault = x.1.fault.map (Fault.moved lines)
  globals : ∀ name, y.2.global? name = x.2.global? name
  shown : ∀ name, y.2.shown? name = x.2.shown? name

/-- The fault of a source moves with the source if it is raised at one of its tokens, and otherwise
stays where it is, at a token of a function that was there before. -/
theorem run_moves (hs : s.Sound) (h : s.Accepts source) (clock : Nat → Float) (fuel : Nat) :
    ∃ own : Bool,
      (∀ lines, Option.Rel (Follows .empty (if own then lines else 0)) (s.run clock fuel source)
        (s.run clock fuel (belowLines lines source))) ∧
      ∀ x cause t, s.run clock fuel source = some x → x.1.fault = some (.trouble cause t) →
        if own then t ∈ tokens source else s.machine.heap.Uses t := by
  have twins := run_belowLines hs h clock fuel
  cases hx : s.run clock fuel source with
  | none =>
    refine ⟨true, fun lines => ?_, fun _ _ _ hn => by cases hn⟩
    obtain ⟨J, twin⟩ := twins 0 lines
    rw [belowLines_zero, hx] at twin
    cases hy : s.run clock fuel (belowLines lines source) with
    | none => exact .none
    | some y =>
      rw [hy] at twin
      cases twin
  | some x =>
    have ends : ∀ lines, ∃ y, s.run clock fuel (belowLines lines source) = some y := by
      intro lines
      obtain ⟨J, twin⟩ := twins 0 lines
      rw [belowLines_zero, hx] at twin
      cases hy : s.run clock fuel (belowLines lines source) with
      | none =>
        rw [hy] at twin
        cases twin
      | some y => exact ⟨y, rfl⟩
    choose y hy using ends
    have twin : ∀ i j, ∃ J, RunTwin (Shifted i j source s.machine.heap) J .empty (y i) (y j) := by
      intro i j
      obtain ⟨J, twin⟩ := twins i j
      rw [hy i, hy j] at twin
      obtain ⟨twin⟩ := twin
      exact ⟨J, twin⟩
    have same : y 0 = x := by simpa [belowLines_zero, hx] using (hy 0).symm
    have shifted : ∀ i j, Option.Rel (Fault.Twin (Shifted i j source s.machine.heap))
        (y i).1.fault (y j).1.fault := by
      intro i j
      obtain ⟨J, twin⟩ := twin i j
      exact twin.outcome.fault
    obtain ⟨own, moves, owned⟩ := faults_own (f := fun i => (y i).1.fault) shifted
    rw [same] at moves owned
    refine ⟨own, fun lines => ?_, fun x' cause t hx' => ?_⟩
    · obtain ⟨J, twin⟩ := twin 0 lines
      rw [same] at twin
      rw [hy lines]
      exact .some ⟨twin.outcome.output, twin.outcome.diagnostics, moves lines, twin.globals,
        twin.shown (faithful_shifted _ _ _ _)⟩
    · cases hx'
      exact owned cause t

/-- **A source can be given in pieces.** If a source is run in a session without diagnostics and
without a fault, and another one has no diagnostics by itself, then the two of them, run one after
the other, do what they do as one source with a newline between them: they print the same, leave the
same globals, which are shown in the same way, and end in the same fault or in none, or run on as it
does. The fault of the second source stands on the line it has in the whole if it is raised at a
token of this source, that is, if it moves when the source is moved down (`own`); otherwise it is
raised in a function from before, and stands on the same line. -/
theorem Reachable.run_split (hs : s.Reachable)
    (h : s.run clock fuel source = some (outcome, s₁)) (hd : outcome.diagnostics = [])
    (hf : outcome.fault = none) (hn : (Session.start .unlimited).Accepts next) :
    ∃ own : Bool,
      (∀ lines, Option.Rel (Follows .empty (if own then lines else 0)) (s₁.run clock fuel next)
        (s₁.run clock fuel (belowLines lines next))) ∧
      (∀ x cause t, s₁.run clock fuel next = some x → x.1.fault = some (.trouble cause t) →
        if own then t ∈ tokens next else s₁.machine.heap.Uses t) ∧
      Option.Rel (Follows outcome.output (if own then lineCount source else 0))
        (s₁.run clock fuel next) (s.run clock fuel (source ++ "\n" ++ next)) := by
  have ha : s.Accepts source := by
    by_contra ha
    obtain ⟨ds, distances, hne, -, hr⟩ := run_of_rejects ha
    rw [hr] at h
    have hfin := Option.some.inj h
    have : outcome.diagnostics = ds := (congrArg (fun x => x.1.diagnostics) hfin).symm
    exact hne (this.symm.trans hd)
  have hs₁ : s₁.Sound := (Reachable.run hs h).sound
  have hn₁ : s₁.Accepts next := hn.of_session s₁
  obtain ⟨own, moves, owned⟩ := run_moves hs₁ hn₁ clock fuel
  obtain ⟨J, joined⟩ := run_newline hs ha h hf (hn₁.moved (lineCount source))
  have lower := moves (lineCount source)
  refine ⟨own, moves, owned, ?_⟩
  revert lower joined
  generalize s₁.run clock fuel next = x, s₁.run clock fuel (belowLines (lineCount source) next) = y,
    s.run clock fuel (source ++ "\n" ++ next) = z
  intro joined lower
  cases lower with
  | none =>
    cases joined
    exact .none
  | some lower =>
    cases joined with
    | some joined =>
      refine .some ⟨?_, joined.outcome.diagnostics.trans lower.diagnostics,
        joined.outcome.fault_eq.trans lower.fault, fun name => ?_, fun name => ?_⟩
      · rw [joined.outcome.output, lower.output, ByteArray.empty_append]
      · exact (joined.globals name).trans (lower.globals name)
      · exact (joined.shown faithful_eq name).trans (lower.shown name)

/-- A function over three lines. -/
def negateSource : String := "fun negate(x) \x7b\n  return -x;\n\x7d"

/-- Prints, and fails on its second line, at a token of its own. -/
def negatedSource : String := "print negate;\nnegate(true, nil);"

/-- A case of `Reachable.run_split`: by itself, the second source fails on line 2. -/
theorem negatedSource_split : ∃ outcome s₁,
    (start .unlimited).run (fun _ => 0) 20 negateSource = some (outcome, s₁) ∧
    outcome.diagnostics = [] ∧ outcome.fault = none ∧
    (start .unlimited).Accepts negatedSource ∧
    ((s₁.run (fun _ => 0) 20 negatedSource).bind fun x => x.1.fault) =
      some (.trouble (.wrongArity 1 2) ⟨.punct .rightParen, ")", 2⟩) ∧
    ∃ own : Bool, Option.Rel (Follows outcome.output (if own then lineCount negateSource else 0))
      (s₁.run (fun _ => 0) 20 negatedSource)
      ((start .unlimited).run (fun _ => 0) 20 (negateSource ++ "\n" ++ negatedSource)) := by
  have h : ((start .unlimited).run (fun _ => 0) 20 negateSource).map (fun x =>
      (x.1.diagnostics, x.1.fault, (x.2.run (fun _ => 0) 20 negatedSource).bind fun y =>
        y.1.fault)) =
      some ([], none, some (.trouble (.wrongArity 1 2) ⟨.punct .rightParen, ")", 2⟩)) := by
    decide +kernel
  obtain ⟨⟨outcome, s₁⟩, hr, he⟩ := Option.map_eq_some_iff.1 h
  simp only [Prod.mk.injEq] at he
  obtain ⟨hd, hf, hq⟩ := he
  have accepted : (start .unlimited).Accepts negatedSource := ⟨by decide +kernel, by decide +kernel⟩
  obtain ⟨own, -, -, joined⟩ := (Reachable.start .unlimited).run_split hr hd hf accepted
  exact ⟨outcome, s₁, hr, hd, hf, accepted, hq, own, joined⟩

end Session

end Lox
