/-
# What the parsers accept is derived: expressions

A parser that returns a tree without noting an error has read tokens that the rules of the language
derive, and its tree is the tree of that derivation up to node numbers (`Sound`). Each rule has this
from the parsers it refers to; the nesting that the derivation may still use is what is left of it
at the level the parser was started on.
-/

import Lox.Proofs.Grammar.Contract

namespace Lox
namespace Grammar

open Derives

/-- What the parser returns without noting an error is derived from the tokens it read. -/
def Sound {α : Type} (p : Parser α) (rule : Nat → List Token → α → Prop) : Prop :=
  ∀ ⦃s : State⦄ ⦃a : α⦄ ⦃s' : State⦄, p s = .ok a s' → s'.errors.length = s.errors.length →
    ∃ ts, s.rest = ts ++ s'.rest ∧ rule (maxNesting - s.depth) ts a

/-- What is derived on a level is derived one deeper by a parser a level further down. -/
theorem nested_sound {α : Type} {p : Parser α} {rule deeper : Nat → List Token → α → Prop}
    (hp : Sound p rule) (hd : ∀ {d ts a}, rule d ts a → deeper (d + 1) ts a) :
    Sound (nested p) deeper := by
  intro s a s' h hq
  obtain ⟨hs, s₁, h₁, rfl⟩ := nested_ok h
  obtain ⟨ts, hts, hr⟩ := hp h₁ hq
  exact ⟨ts, hts, levels_left hs ▸ hd hr⟩

/-! ## Lists between parentheses -/

section Lists

variable {α : Type} {item : Parser α} {rule : Nat → List Token → α → Prop}
  (list : Nat → List Token → List α → Prop)

/-- The items behind commas are a derived list, and together with those before no more than allowed.
-/
theorem moreItems_sound (ha : Advances item) (hi : Sound item rule)
    (one : ∀ {d ts a}, rule d ts a → list d ts [a])
    (more : ∀ {d ts a comma ts' as}, rule d ts a → Mark .comma comma → list d ts' as →
      list d (ts ++ comma :: ts') (a :: as)) {tooMany : Cause} :
    ∀ fuel count {s as s'}, moreItems item tooMany fuel count s = .ok as s' →
      s'.errors.length = s.errors.length → count ≤ maxArity →
      ∃ ts, s.rest = ts ++ s'.rest ∧ count + as.length ≤ maxArity ∧
        ∀ {ts₀ a₀}, rule (maxNesting - s.depth) ts₀ a₀ →
          list (maxNesting - s.depth) (ts₀ ++ ts) (a₀ :: as)
  | 0, count, s, as, s', h, _, hc => by
    obtain ⟨rfl, rfl⟩ := pure_eq_ok_iff.1 h
    exact ⟨[], rfl, hc, fun h₀ => by simpa using one h₀⟩
  | fuel + 1, count, s, as, s', h, hq, hc => by
    obtain ⟨found, s₁, h₁, h⟩ := bind_eq_ok_iff.1 h
    cases found with
    | none =>
      obtain ⟨rfl, rfl⟩ := pure_eq_ok_iff.1 h
      obtain ⟨rfl, -⟩ := acceptAny_none h₁
      exact ⟨[], rfl, hc, fun h₀ => by simpa using one h₀⟩
    | some comma =>
      obtain ⟨rest, hr, rfl, hcomma⟩ := accept_some rfl h₁
      by_cases hm : count ≥ maxArity
      · -- One item too many is noted, so this run is not free of errors.
        simp only [hm, if_true] at h
        have := errors_lt_of_note (bind_advances ha fun _ =>
          bind_advances (moreItems_advances ha fuel (count + 1)) fun _ => pure_advances) h
        exact absurd hq (Nat.ne_of_gt this)
      · simp only [hm, if_false] at h
        obtain ⟨a, s₂, h₂, h⟩ := bind_eq_ok_iff.1 h
        obtain ⟨bs, s₃, h₃, h⟩ := bind_eq_ok_iff.1 h
        obtain ⟨rfl, rfl⟩ := pure_eq_ok_iff.1 h
        have l₂ := ha.ok h₂
        have e₂ := l₂.errors.length_le
        have e₃ := ((moreItems_advances ha fuel (count + 1)).ok h₃).errors.length_le
        simp only at e₂ hq
        obtain ⟨ts, hts, hrule⟩ := hi h₂ (by simp only; omega)
        obtain ⟨ts', hts', hlen, hlist⟩ :=
          moreItems_sound ha hi one more fuel (count + 1) h₃ (by omega) (by omega)
        rw [l₂.depth] at hlist
        refine ⟨comma :: (ts ++ ts'), ?_, by simp only [List.length_cons]; omega, fun h₀ => ?_⟩
        · simp only at hts
          rw [hr, hts, hts', List.cons_append, List.append_assoc]
        · exact more h₀ hcomma (hlist hrule)

/-- Items with commas between them are a derived list, of no more than allowed. -/
theorem separated_sound (ha : Advances item) (hi : Sound item rule)
    (one : ∀ {d ts a}, rule d ts a → list d ts [a])
    (more : ∀ {d ts a comma ts' as}, rule d ts a → Mark .comma comma → list d ts' as →
      list d (ts ++ comma :: ts') (a :: as)) {tooMany : Cause} :
    Sound (separated item tooMany) fun d ts as => list d ts as ∧ as.length ≤ maxArity := by
  intro s as s' h hq
  obtain ⟨a, s₁, h₁, h⟩ := bind_eq_ok_iff.1 h
  rw [unread_bind] at h
  obtain ⟨bs, s₂, h₂, h⟩ := bind_eq_ok_iff.1 h
  obtain ⟨rfl, rfl⟩ := pure_eq_ok_iff.1 h
  have l₁ := ha.ok h₁
  have e₁ := l₁.errors.length_le
  have e₂ := ((moreItems_advances ha _ _).ok h₂).errors.length_le
  obtain ⟨ts, hts, hrule⟩ := hi h₁ (by omega)
  obtain ⟨ts', hts', hlen, hlist⟩ :=
    moreItems_sound list ha hi one more _ 1 h₂ (by omega) (by decide)
  rw [l₁.depth] at hlist
  refine ⟨ts ++ ts', by rw [hts, hts', List.append_assoc], hlist hrule, ?_⟩
  simp
  omega

/-- A list between parentheses is derived, empty or not. -/
theorem parenthesised_sound (all : Nat → List Token → List α → Prop) (ha : Advances item)
    (hi : Sound item rule) (one : ∀ {d ts a}, rule d ts a → list d ts [a])
    (more : ∀ {d ts a comma ts' as}, rule d ts a → Mark .comma comma → list d ts' as →
      list d (ts ++ comma :: ts') (a :: as))
    (none : ∀ {d}, all d [] []) (some : ∀ {d ts as}, list d ts as → all d ts as)
    {tooMany : Cause} {wanted : Wanted} :
    Sound (parenthesised item tooMany wanted) fun d ts as =>
      ∃ ts', ts = ts' ++ [as.2] ∧ all d ts' as.1 ∧ as.1.length ≤ maxArity ∧
        Mark .rightParen as.2 := by
  intro s as s' h hq
  unfold parenthesised at h
  rw [sees_bind] at h
  cases hp : s.next.kind.same (.punct .rightParen) with
  | true =>
    simp only [hp, if_true] at h
    obtain ⟨items, s₁, h₁, h⟩ := bind_eq_ok_iff.1 h
    obtain ⟨rfl, rfl⟩ := pure_eq_ok_iff.1 h₁
    obtain ⟨rp, s₂, h₂, h⟩ := bind_eq_ok_iff.1 h
    obtain ⟨rfl, rfl⟩ := pure_eq_ok_iff.1 h
    obtain ⟨rest, hr, rfl, hrp⟩ := expect_ok rfl h₂
    exact ⟨[rp], hr, [], rfl, none, Nat.zero_le _, hrp⟩
  | false =>
    simp only [hp, Bool.false_eq_true, if_false] at h
    obtain ⟨items, s₁, h₁, h⟩ := bind_eq_ok_iff.1 h
    obtain ⟨rp, s₂, h₂, h⟩ := bind_eq_ok_iff.1 h
    obtain ⟨rfl, rfl⟩ := pure_eq_ok_iff.1 h
    obtain ⟨rest, hr, rfl, hrp⟩ := expect_ok rfl h₂
    obtain ⟨ts, hts, hlist, hlen⟩ := separated_sound list ha hi one more h₁ hq
    refine ⟨ts ++ [rp], ?_, ts, rfl, some hlist, hlen, hrp⟩
    rw [hts, hr, List.append_assoc, List.singleton_append]

end Lists

/-! ## Expressions -/

section Expressions

variable {unary assignment expression : Parser Expr} {arity : Nat}

/-- What is derived up to node numbers. -/
abbrev UpToNumbers (rule : Nat → List Token → Expr → Prop) : Nat → List Token → Expr → Prop :=
  fun d ts e => rule d ts e.erase

/-- The loop of a level extends a derived operation to a derived one. -/
theorem moreOperands_sound {tier tier' : Tier} (ht : tier.tighter? = some tier')
    {operand : Parser Expr} (ha : Advances operand)
    (ho : Sound operand (UpToNumbers fun d => Operation arity d tier')) :
    ∀ fuel left {s e s'}, moreOperands tier.node tier.ops operand fuel left s = .ok e s' →
      s'.errors.length = s.errors.length →
      ∃ ts, s.rest = ts ++ s'.rest ∧
        ∀ {ts₀}, Operation arity (maxNesting - s.depth) tier ts₀ left.erase →
          Operation arity (maxNesting - s.depth) tier (ts₀ ++ ts) e.erase
  | 0, left, s, e, s', h, _ => by
    obtain ⟨rfl, rfl⟩ := pure_eq_ok_iff.1 h
    exact ⟨[], rfl, fun h₀ => by simpa using h₀⟩
  | fuel + 1, left, s, e, s', h, hq => by
    obtain ⟨found, s₁, h₁, h⟩ := bind_eq_ok_iff.1 h
    cases found with
    | none =>
      obtain ⟨rfl, rfl⟩ := pure_eq_ok_iff.1 h
      obtain ⟨rfl, -⟩ := acceptAny_none h₁
      exact ⟨[], rfl, fun h₀ => by simpa using h₀⟩
    | some op =>
      obtain ⟨rest, hr, rfl, hop⟩ := acceptAny_some h₁
      rw [Kind.any_same_iff_mem tier.ops_isPlain] at hop
      obtain ⟨right, s₂, h₂, h⟩ := bind_eq_ok_iff.1 h
      have l₂ := ha.ok h₂
      have e₂ := l₂.errors.length_le
      have e₃ := ((moreOperands_advances ht ha fuel _).ok h).errors.length_le
      simp only at e₂ hq
      obtain ⟨ts, hts, hright⟩ := ho h₂ (by simp only; omega)
      obtain ⟨ts', hts', hmore⟩ := moreOperands_sound ht ha ho fuel _ h (by omega)
      rw [l₂.depth, Tier.erase_node] at hmore
      refine ⟨op :: (ts ++ ts'), ?_, fun {ts₀} h₀ => ?_⟩
      · simp only at hts
        rw [hr, hts, hts', List.cons_append, List.append_assoc]
      · have := hmore (.more ht h₀ hop hright)
        rwa [List.append_assoc, List.cons_append] at this

/-- The parser of a level is sound if that of the next tighter level is. -/
theorem leftAssoc_sound {tier tier' : Tier} (ht : tier.tighter? = some tier')
    {operand : Parser Expr} (ha : Advances operand)
    (ho : Sound operand (UpToNumbers fun d => Operation arity d tier')) :
    Sound (leftAssoc tier.node tier.ops operand) (UpToNumbers fun d => Operation arity d tier) := by
  intro s e s' h hq
  obtain ⟨first, s₁, h₁, h⟩ := bind_eq_ok_iff.1 h
  rw [unread_bind] at h
  have l₁ := ha.ok h₁
  have e₁ := l₁.errors.length_le
  have e₂ := ((moreOperands_advances ht ha _ _).ok h).errors.length_le
  obtain ⟨ts, hts, hfirst⟩ := ho h₁ (by omega)
  obtain ⟨ts', hts', hmore⟩ := moreOperands_sound ht ha ho _ _ h (by omega)
  rw [l₁.depth] at hmore
  exact ⟨ts ++ ts', by rw [hts, hts', List.append_assoc], hmore (.operand ht hfirst)⟩

/-- The parser of the loosest level is sound if that of signs is. -/
theorem disjunction_sound (ha : Advances unary) (hu : Sound unary (UpToNumbers (Unary arity))) :
    Sound (disjunction unary) (UpToNumbers fun d => Operation arity d .disjunction) := by
  have level : ∀ (tier : Tier) {tier' : Tier}, tier.tighter? = some tier' →
      Sound (tier'.parser unary) (UpToNumbers fun d => Operation arity d tier') →
      Sound (tier.parser unary) (UpToNumbers fun d => Operation arity d tier) := by
    intro tier tier' ht h
    rw [Tier.parser_eq ht]
    exact leftAssoc_sound ht (tier_advances ha tier') h
  have sign : Sound (Tier.sign.parser unary) (UpToNumbers fun d => Operation arity d .sign) := by
    intro s e s' h hq
    obtain ⟨ts, hts, he⟩ := hu h hq
    exact ⟨ts, hts, .sign he⟩
  have product := level .product rfl sign
  have sum := level .sum rfl product
  have comparison := level .comparison rfl sum
  have equality := level .equality rfl comparison
  have conjunction := level .conjunction rfl equality
  exact level .disjunction rfl conjunction

/-- An operation without an operator between operands is derived as a sign or a call. -/
theorem unary_of_operation : ∀ {d tier ts e}, Operation arity d tier ts e →
    (∀ (tier' : Tier) l op r, e ≠ tier'.node l op r) → Unary arity d ts e
  | _, _, _, _, .sign h, _ => h
  | _, _, _, _, .operand _ h, hne => unary_of_operation h hne
  | _, _, _, _, .more .., hne => absurd rfl (hne _ _ _ _)

/-- The use of a name is derived from the name alone. -/
theorem name_of_operation {d ts name} (h : Operation arity d .disjunction ts (.ident 0 name)) :
    ts = [name] ∧ Name name := by
  have hu := unary_of_operation h fun tier => by cases tier <;> simp [Tier.node]
  cases hu with
  | call hc => cases hc with
    | primary hp => cases hp with
      | name hname => exact ⟨rfl, hname⟩

/-- A property is derived from its object, a dot and its name. -/
theorem property_of_operation {d ts object name}
    (h : Operation arity d .disjunction ts (.get object name)) :
    ∃ ts' dot, ts = ts' ++ [dot, name] ∧ Call arity d ts' object ∧ Mark .dot dot ∧
      Name name := by
  have hu := unary_of_operation h fun tier => by cases tier <;> simp [Tier.node]
  cases hu with
  | call hc => cases hc with
    | primary hp => cases hp
    | property hobject hdot hname => exact ⟨_, _, rfl, hobject, hdot, hname⟩

/-- The rule of assignments is sound if those of operands and of values are. -/
theorem assignmentRule_sound (hau : Advances unary) (haa : Advances assignment)
    (hu : Sound unary (UpToNumbers (Unary arity)))
    (ha : Sound assignment (UpToNumbers (Assignment arity))) :
    Sound (assignmentRule unary assignment) (UpToNumbers (Assignment arity)) := by
  intro s e s' h hq
  obtain ⟨target, s₁, h₁, h⟩ := bind_eq_ok_iff.1 h
  have l₁ := (tier_advances hau .disjunction).ok h₁
  have e₁ := l₁.errors.length_le
  obtain ⟨found, s₂, h₂, h⟩ := bind_eq_ok_iff.1 h
  cases found with
  | none =>
    obtain ⟨rfl, rfl⟩ := pure_eq_ok_iff.1 h
    obtain ⟨rfl, -⟩ := acceptAny_none h₂
    obtain ⟨ts, hts, htarget⟩ := disjunction_sound hau hu h₁ hq
    exact ⟨ts, hts, .operation htarget⟩
  | some eq =>
    obtain ⟨rest, hr, rfl, heq⟩ := accept_some rfl h₂
    obtain ⟨value, s₃, h₃, h⟩ := bind_eq_ok_iff.1 h
    have l₃ := haa.ok h₃
    have e₃ := l₃.errors.length_le
    simp only at e₃
    -- What is left of the argument once the target is known to be a name or a property.
    have finish : s'.errors.length = s₃.errors.length → s'.rest = s₃.rest → ∃ ts ts',
        s.rest = ts ++ eq :: (ts' ++ s'.rest) ∧
          Operation arity (maxNesting - s.depth) .disjunction ts target.erase ∧
          Assignment arity (maxNesting - s.depth) ts' value.erase := by
      intro he hrest
      obtain ⟨ts, hts, htarget⟩ := disjunction_sound hau hu h₁ (by omega)
      obtain ⟨ts', hts', hvalue⟩ := ha h₃ (by simp only; omega)
      simp only [l₁.depth] at hts' hvalue
      exact ⟨ts, ts', by rw [hts, hr, hts', hrest], htarget, hvalue⟩
    cases target with
    | ident id name =>
      dsimp only at h
      rw [freshId_bind] at h
      obtain ⟨rfl, rfl⟩ := pure_eq_ok_iff.1 h
      obtain ⟨ts, ts', hts, htarget, hvalue⟩ := finish rfl rfl
      rw [Expr.erase] at htarget
      obtain ⟨rfl, hname⟩ := name_of_operation htarget
      refine ⟨name :: eq :: ts', hts, ?_⟩
      simp only [UpToNumbers, Expr.erase]
      exact .toName hname heq hvalue
    | get object name =>
      obtain ⟨rfl, rfl⟩ := pure_eq_ok_iff.1 h
      obtain ⟨ts, ts', hts, htarget, hvalue⟩ := finish rfl rfl
      rw [Expr.erase] at htarget
      obtain ⟨ts, dot, rfl, hobject, hdot, hname⟩ := property_of_operation htarget
      refine ⟨ts ++ dot :: name :: eq :: ts', by simpa using hts, ?_⟩
      simp only [UpToNumbers, Expr.erase]
      exact .toProperty hobject hdot hname heq hvalue
    | _ =>
      have := errors_lt_of_noteAt pure_advances h
      omega

/-- The rule of primary forms is sound if that of expressions is. -/
theorem primary_sound (he : Sound expression (UpToNumbers (Expression arity))) :
    Sound (primary expression) (UpToNumbers (Primary arity)) := by
  intro s e s' h hq
  unfold primary at h
  rw [peek_bind] at h
  generalize hk : s.next.kind = kind at h
  -- Where the next token is not the end of the input, it is at the front.
  have front : kind ≠ .endOfInput → s.rest = s.next :: s.rest.tail :=
    fun hne => rest_eq_of_next rfl (hk ▸ hne)
  split at h
  case h_9 => simp [fail] at h
  case h_8 =>
    rw [skip_bind] at h
    obtain ⟨inner, s₁, h₁, h⟩ := bind_eq_ok_iff.1 h
    obtain ⟨rp, s₂, h₂, h⟩ := bind_eq_ok_iff.1 h
    obtain ⟨rfl, rfl⟩ := pure_eq_ok_iff.1 h
    obtain ⟨rest, hr, rfl, hrp⟩ := expect_ok rfl h₂
    obtain ⟨ts, hts, hinner⟩ := he h₁ hq
    refine ⟨s.next :: (ts ++ [rp]), ?_, ?_⟩
    · rw [front (by simp)]
      simp only at hts
      rw [hts, hr]
      simp
    · simp only [UpToNumbers, Expr.erase]
      exact .group hk hinner hrp
  all_goals
    rw [skip_bind] at h
    try rw [freshId_bind] at h
    obtain ⟨rfl, rfl⟩ := pure_eq_ok_iff.1 h
    refine ⟨[s.next], front (by simp), ?_⟩
    simp only [UpToNumbers, Expr.erase]
  · exact .false hk
  · exact .true hk
  · exact .nil hk
  · exact .number hk
  · exact .string hk
  · exact .receiver hk
  · exact .name hk

/-- The loop over calls and properties extends a derived call to a derived one. -/
theorem suffixes_sound (hae : Advances expression)
    (he : Sound expression (UpToNumbers (Expression maxArity))) :
    ∀ fuel e₀ {s e s'}, suffixes expression fuel e₀ s = .ok e s' →
      s'.errors.length = s.errors.length →
      ∃ ts, s.rest = ts ++ s'.rest ∧
        ∀ {ts₀}, Call maxArity (maxNesting - s.depth) ts₀ e₀.erase →
          Call maxArity (maxNesting - s.depth) (ts₀ ++ ts) e.erase
  | 0, e₀, s, e, s', h, _ => by
    obtain ⟨rfl, rfl⟩ := pure_eq_ok_iff.1 h
    exact ⟨[], rfl, fun h₀ => by simpa using h₀⟩
  | fuel + 1, e₀, s, e, s', h, hq => by
    obtain ⟨found, s₁, h₁, h⟩ := bind_eq_ok_iff.1 h
    cases found with
    | none =>
      obtain ⟨rfl, rfl⟩ := pure_eq_ok_iff.1 h
      obtain ⟨rfl, -⟩ := acceptAny_none h₁
      exact ⟨[], rfl, fun h₀ => by simpa using h₀⟩
    | some mark =>
      obtain ⟨rest, hr, rfl, hmark⟩ := acceptAny_some h₁
      rw [Kind.any_same_iff_mem (by decide)] at hmark
      by_cases hp : mark.kind.same (.punct .leftParen)
      · simp only [hp, if_true] at h
        obtain ⟨⟨args, rp⟩, s₂, h₂, h⟩ := bind_eq_ok_iff.1 h
        have l₂ := (parenthesised_advances hae).ok h₂
        have e₂ := l₂.errors.length_le
        have e₃ := ((suffixes_advances hae fuel _).ok h).errors.length_le
        simp only at e₂ hq
        obtain ⟨ts, hts, ts', rfl, hargs, hlen, hrp⟩ :=
          parenthesised_sound (fun d ts es => ArgumentList maxArity d ts (es.map Expr.erase))
            (fun d ts es => Arguments maxArity d ts (es.map Expr.erase)) hae he
            .one .more .none .some h₂ (by simp only; omega)
        obtain ⟨ts'', hts'', hcall⟩ := suffixes_sound hae he fuel _ h (by omega)
        rw [l₂.depth, Expr.erase, Expr.eraseList_eq_map] at hcall
        refine ⟨mark :: (ts' ++ [rp] ++ ts''), ?_, fun {ts₀} h₀ => ?_⟩
        · simp only at hts
          rw [hr, hts, hts'', List.cons_append, List.append_assoc _ ts'']
        · have hlp := (Kind.same_iff_eq rfl).1 hp
          have := hcall (.apply h₀ hlp hargs (by simpa using hlen) hrp)
          simpa using this
      · simp only [hp] at h
        obtain ⟨name, s₂, h₂, h⟩ := bind_eq_ok_iff.1 h
        obtain ⟨rest', hr', rfl, hname⟩ := expect_ok rfl h₂
        obtain ⟨ts, hts, hcall⟩ := suffixes_sound hae he fuel _ h hq
        rw [Expr.erase] at hcall
        have hdot : Mark .dot mark := by
          rcases List.mem_cons.1 hmark with hk | hk
          · exact absurd ((Kind.same_iff_eq rfl).2 hk) hp
          · exact List.mem_singleton.1 hk
        refine ⟨mark :: name :: ts, ?_, fun {ts₀} h₀ => ?_⟩
        · simp only at hr' hts
          rw [hr, hr', hts, List.cons_append, List.cons_append]
        · have := hcall (.property h₀ hdot hname)
          simpa using this

/-- The rule of signs is sound if those of its operands are. -/
theorem unaryRule_sound (hae : Advances expression)
    (hu : Sound unary fun d ts e => ∃ d', d = d' + 1 ∧ Unary maxArity d' ts e.erase)
    (he : Sound expression (UpToNumbers (Expression maxArity))) :
    Sound (unaryRule unary expression) (UpToNumbers (Unary maxArity)) := by
  intro s e s' h hq
  obtain ⟨found, s₁, h₁, h⟩ := bind_eq_ok_iff.1 h
  cases found with
  | some op =>
    obtain ⟨rest, hr, rfl, hop⟩ := acceptAny_some h₁
    rw [Kind.any_same_iff_mem (by decide)] at hop
    obtain ⟨operand, s₂, h₂, h⟩ := bind_eq_ok_iff.1 h
    obtain ⟨rfl, rfl⟩ := pure_eq_ok_iff.1 h
    obtain ⟨ts, hts, d, hd, hoperand⟩ := hu h₂ hq
    refine ⟨op :: ts, by rw [hr, List.cons_append, ← hts], ?_⟩
    simp only at hd
    simp only [UpToNumbers, Expr.erase, hd]
    rcases List.mem_cons.1 hop with hop | hop
    · exact .bang hop hoperand
    · exact .minus (List.mem_singleton.1 hop) hoperand
  | none =>
    obtain ⟨rfl, -⟩ := acceptAny_none h₁
    obtain ⟨first, s₁, h₁, h⟩ := bind_eq_ok_iff.1 h
    rw [unread_bind] at h
    have l₁ := (primary_advances hae).ok h₁
    have e₁ := l₁.errors.length_le
    have e₂ := ((suffixes_advances hae _ _).ok h).errors.length_le
    obtain ⟨ts, hts, hfirst⟩ := primary_sound he h₁ (by omega)
    obtain ⟨ts', hts', hcall⟩ := suffixes_sound hae he _ _ h (by omega)
    rw [l₁.depth] at hcall
    exact ⟨ts ++ ts', by rw [hts, hts', List.append_assoc], .call (hcall (.primary hfirst))⟩

end Expressions

/-- Tied, the rules of signs and of assignments are sound, with any fuel. -/
theorem unary_assignment_sound : ∀ fuel,
    Sound (unary fuel) (UpToNumbers (Unary maxArity)) ∧
      Sound (assignment fuel) (UpToNumbers (Assignment maxArity))
  | 0 => ⟨fun _ _ _ h => by simp [unary, fail] at h, fun _ _ _ h => by simp [assignment, fail] at h⟩
  | fuel + 1 => by
    obtain ⟨hu, ha⟩ := unary_assignment_sound fuel
    obtain ⟨hau, haa⟩ := unary_assignment_advances fuel
    refine ⟨unaryRule_sound (nested_advances haa)
      (nested_sound hu fun h => ⟨_, rfl, h⟩) (nested_sound ha .deeper),
      assignmentRule_sound hau haa hu ha⟩

/-- The parser of expressions is sound, with any fuel. -/
theorem expression_sound (fuel : Nat) :
    Sound (expression fuel) (UpToNumbers (Expression maxArity)) :=
  nested_sound (unary_assignment_sound fuel).2 .deeper

end Grammar
end Lox
