/-
# What a parser reads

A parser reads tokens before a rest if it consumes just those, notes no error and returns the right
result (`Reads`). Parsers that do so one after the other do so together, and a list between
parentheses is read if its items are.
-/

import Lox.Proofs.Grammar.Reading
import Lox.Proofs.Grammar.Rules

namespace Lox
namespace Grammar

open Derives

/-- Before `rest`, the parser reads just `ts`, notes no error and returns `a₀` up to what `f`
forgets. -/
def Reads {α γ : Type} (p : Parser α) (f : α → γ) (depth : Nat) (ts rest : List Token) (a₀ : γ) :
    Prop :=
  ∀ n errors, ∃ a n', p ⟨ts ++ rest, depth, n, errors⟩ = .ok a ⟨rest, depth, n', errors⟩ ∧ f a = a₀

section Parts

variable {α β γ δ : Type} {p : Parser α} {t : Token} {ts ts' rest : List Token} {depth n : Nat}
  {errors : List Error}

/-- A token of the kinds is read. -/
theorem acceptAny_hit {kinds : List Kind} (h : kinds.any t.kind.same = true) :
    acceptAny kinds ⟨t :: rest, depth, n, errors⟩ = .ok (some t) ⟨rest, depth, n, errors⟩ := by
  simp only [acceptAny, h, if_true]

/-- Without a token of the kinds nothing is read. -/
theorem acceptAny_miss {kinds : List Kind}
    (h : ∀ t r, rest = t :: r → kinds.any t.kind.same = false) :
    acceptAny kinds ⟨rest, depth, n, errors⟩ = .ok none ⟨rest, depth, n, errors⟩ := by
  cases rest with
  | nil => rfl
  | cons t r =>
    have := h t r rfl
    simp only [acceptAny, this, Bool.false_eq_true, if_false]

/-- A token of the kind is read. -/
theorem accept_hit {kind : Kind} (hk : kind.isPlain = true) (h : t.kind = kind) :
    accept kind ⟨t :: rest, depth, n, errors⟩ = .ok (some t) ⟨rest, depth, n, errors⟩ :=
  acceptAny_hit (by simpa using (Kind.same_iff_eq hk).2 h)

/-- Without a token of the kind nothing is read. -/
theorem accept_miss {kind : Kind} (hk : kind.isPlain = true)
    (h : ∀ t r, rest = t :: r → t.kind ≠ kind) :
    accept kind ⟨rest, depth, n, errors⟩ = .ok none ⟨rest, depth, n, errors⟩ := by
  refine acceptAny_miss fun t r hr => ?_
  have := h t r hr
  rw [List.any_cons, List.any_nil, Bool.or_false, Bool.eq_false_iff]
  exact fun hs => this ((Kind.same_iff_eq hk).1 hs)

/-- A token that is wanted and comes is read. -/
theorem expect_hit {kind : Kind} {wanted : Wanted} (hk : kind.isPlain = true) (h : t.kind = kind) :
    expect kind wanted ⟨t :: rest, depth, n, errors⟩ = .ok t ⟨rest, depth, n, errors⟩ := by
  unfold expect
  rw [bind_of_ok (accept_hit hk h)]
  rfl

/-- One parser after the other. -/
theorem Reads.bind {f : α → γ} {a₀ : γ} {g : α → Parser β} {f' : β → δ} {b₀ : δ}
    (h : Reads p f depth ts (ts' ++ rest) a₀)
    (hg : ∀ a, f a = a₀ → Reads (g a) f' depth ts' rest b₀) :
    Reads (p >>= g) f' depth (ts ++ ts') rest b₀ := by
  intro n errors
  obtain ⟨a, n₁, ha, hf⟩ := h n errors
  obtain ⟨b, n₂, hb, hf'⟩ := hg a hf n₁ errors
  refine ⟨b, n₂, ?_, hf'⟩
  rw [List.append_assoc, bind_of_ok ha, hb]

/-- A parser and what is made of its result. -/
theorem Reads.map {f : α → γ} {a₀ : γ} {g : α → β} {f' : β → δ} {b₀ : δ}
    (h : Reads p f depth ts rest a₀) (hg : ∀ a, f a = a₀ → f' (g a) = b₀) :
    Reads (p >>= fun a => pure (g a)) f' depth ts rest b₀ := by
  intro n errors
  obtain ⟨a, n₁, ha, hf⟩ := h n errors
  exact ⟨g a, n₁, bind_of_ok ha, hg a hf⟩

/-- A token that has to be there, and what comes after it. -/
theorem Reads.after {kind : Kind} {wanted : Wanted} {g : Token → Parser β} {f : β → γ} {b₀ : γ}
    (hk : kind.isPlain = true) (ht : t.kind = kind) (h : Reads (g t) f depth ts rest b₀) :
    Reads (expect kind wanted >>= g) f depth (t :: ts) rest b₀ := by
  intro n errors
  obtain ⟨b, n', hb, hf⟩ := h n errors
  exact ⟨b, n', (bind_of_ok (expect_hit hk ht)).trans hb, hf⟩

/-- A token that closes what was read. -/
theorem Reads.closing {kind : Kind} {wanted : Wanted} {b : β} {f : β → γ} {b₀ : γ}
    (hk : kind.isPlain = true) (ht : t.kind = kind) (h : f b = b₀) :
    Reads (expect kind wanted >>= fun _ => pure b) f depth [t] rest b₀ :=
  fun n _ => ⟨b, n, bind_of_ok (expect_hit hk ht), h⟩

/-- A level further down a parser reads what it reads on that level. -/
theorem nested_reads {f : α → γ} {a₀ : γ} (hd : depth < maxNesting)
    (h : Reads p f (depth + 1) ts rest a₀) : Reads (nested p) f depth ts rest a₀ := by
  intro n errors
  obtain ⟨a, n', ha, hf⟩ := h n errors
  refine ⟨a, n', ?_, hf⟩
  simp only [nested, Nat.not_le.2 hd, if_false, ha, Nat.add_sub_cancel]

end Parts

/-! ## Lists between parentheses -/

section Lists

variable {α γ : Type} {item : Parser α} {f : α → γ} {tooMany : Cause} {depth : Nat}
  {ts rest : List Token}

/-- Before `rest`, the items of a list are read as `as₀`: the first one, and from there on the
others with their commas. -/
def ListReads (item : Parser α) (f : α → γ) (tooMany : Cause) (depth : Nat)
    (ts rest : List Token) (as₀ : List γ) : Prop :=
  ∀ n errors, ∃ a n₁ ts₁, item ⟨ts ++ rest, depth, n, errors⟩ =
      .ok a ⟨ts₁ ++ rest, depth, n₁, errors⟩ ∧ ts₁.length ≤ ts.length ∧
    ∀ k count, ts₁.length ≤ k → count + as₀.length ≤ maxArity + 1 →
      ∃ more n', moreItems item tooMany k count ⟨ts₁ ++ rest, depth, n₁, errors⟩ =
        .ok more ⟨rest, depth, n', errors⟩ ∧ (a :: more).map f = as₀

/-- One item, with no comma behind it, is a list. -/
theorem ListReads.one {a₀ : γ} (h : Reads item f depth ts rest a₀)
    (hr : ∀ t r, rest = t :: r → t.kind ≠ .punct .comma) :
    ListReads item f tooMany depth ts rest [a₀] := by
  intro n errors
  obtain ⟨a, n₁, ha, rfl⟩ := h n errors
  refine ⟨a, n₁, [], ha, Nat.zero_le _, fun k count _ _ => ⟨[], n₁, ?_, rfl⟩⟩
  cases k with
  | zero => rfl
  | succ k => exact bind_of_ok (accept_miss rfl hr)

/-- An item and a comma before a list make a longer one. -/
theorem ListReads.more {a₀ : γ} {comma : Token} {ts' : List Token} {as₀ : List γ}
    (h : Reads item f depth ts (comma :: (ts' ++ rest)) a₀) (hcomma : Mark .comma comma)
    (hmore : ListReads item f tooMany depth ts' rest as₀) :
    ListReads item f tooMany depth (ts ++ comma :: ts') rest (a₀ :: as₀) := by
  intro n errors
  obtain ⟨a, n₁, ha, rfl⟩ := h n errors
  obtain ⟨b, n₂, ts₂, hb, hlen, hrest⟩ := hmore n₁ errors
  refine ⟨a, n₁, comma :: ts', by simpa using ha, by simp, fun k count hk hc => ?_⟩
  obtain ⟨k, rfl⟩ : ∃ j, k = j + 1 := Nat.exists_eq_add_one_of_ne_zero fun h => by simp [h] at hk
  simp only [List.length_cons, Nat.add_le_add_iff_right] at hk hc
  obtain ⟨more, n', hm, has⟩ := hrest k (count + 1) (Nat.le_trans hlen hk) (by omega)
  have hpos : 0 < as₀.length := by simp [← has]
  refine ⟨b :: more, n', ?_, by rw [List.map_cons, has]⟩
  refine (bind_of_ok (accept_hit rfl hcomma)).trans ?_
  simp only [show ¬ count ≥ maxArity by omega, if_false]
  exact (bind_of_ok hb).trans (bind_of_ok hm)

/-- A list that is short enough is read with the parenthesis behind it. -/
theorem ListReads.parenthesised {wanted : Wanted} {rp : Token} {as₀ : List γ}
    (h : ListReads item f tooMany depth ts (rp :: rest) as₀) (hlen : as₀.length ≤ maxArity)
    (hts : ∃ t r, ts = t :: r ∧ t.kind ≠ .punct .rightParen) (hrp : Mark .rightParen rp) :
    Reads (parenthesised item tooMany wanted) (fun r => (r.1.map f, r.2)) depth (ts ++ [rp]) rest
      (as₀, rp) := by
  intro n errors
  obtain ⟨a, n₁, ts₁, ha, -, hmore⟩ := h n errors
  obtain ⟨more, n', hm, has⟩ := hmore (ts₁ ++ rp :: rest).length 1 (by simp) (by omega)
  refine ⟨(a :: more, rp), n', ?_, congrArg (·, rp) has⟩
  obtain ⟨t, r, rfl, ht⟩ := hts
  have hsees : t.kind.same (.punct .rightParen) = false := by
    rw [Bool.eq_false_iff]
    exact fun h => ht ((Kind.same_iff_eq rfl).1 h)
  unfold Grammar.parenthesised
  rw [sees_bind, List.append_assoc]
  simp only [State.next, List.cons_append, List.headD_cons, hsees, Bool.false_eq_true, if_false]
  have hitems : separated item tooMany ⟨t :: (r ++ ([rp] ++ rest)), depth, n, errors⟩ =
      .ok (a :: more) ⟨rp :: rest, depth, n', errors⟩ := by
    exact (bind_of_ok ha).trans (bind_of_ok hm)
  exact (bind_of_ok hitems).trans (bind_of_ok (expect_hit rfl hrp))

/-- A parenthesis closed at once is read as the empty list. -/
theorem parenthesised_none {wanted : Wanted} {rp : Token} (hrp : Mark .rightParen rp) :
    Reads (parenthesised item tooMany wanted) (fun r => (r.1.map f, r.2)) depth [rp] rest
      ([], rp) := by
  intro n errors
  refine ⟨([], rp), n, ?_, rfl⟩
  have hsees : rp.kind.same (.punct .rightParen) = true := by rw [hrp]; rfl
  unfold parenthesised
  rw [sees_bind]
  simp only [State.next, List.cons_append, List.headD_cons, hsees, if_true]
  exact bind_of_ok (expect_hit rfl hrp)

end Lists

end Grammar
end Lox
