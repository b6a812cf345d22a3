/-
# How tokens are spelled

The scanner ends its tokens with the end of the input and has none before it. A reserved word is
spelled as itself, and an identifier is spelled as no reserved word (`Token.Spelled`).
-/

import Lox.Token.Scan

namespace Lox

/-- The lexeme of the token fits its kind. -/
structure Token.Spelled (t : Token) : Prop where
  keyword : ∀ k, t.kind = .keyword k → t.lexeme = k.spelling
  identifier : t.kind = .identifier → ∀ k : Keyword, t.lexeme ≠ k.spelling

/-- The token stands before the end of a source. -/
structure Token.Proper (t : Token) : Prop extends t.Spelled where
  inner : t.kind ≠ .endOfInput

/-- The kind is a mark or a literal. -/
def Kind.isSymbol : Kind → Bool
  | punct _ | string _ | number _ => true
  | _ => false

/-- A mark or a literal is no word and no end of input, so nothing is asked of its spelling. -/
theorem Token.Proper.of_symbol {t : Token} (h : t.kind.isSymbol = true) : t.Proper := by
  refine ⟨⟨fun k hk => ?_, fun hi => ?_⟩, fun he => ?_⟩
  · rw [hk] at h
    cases h
  · rw [hi] at h
    cases h
  · rw [he] at h
    cases h

namespace Keyword

/-- The text of a reserved word is its spelling. -/
theorem spelling_of_ofSpelling? {text : String} {k : Keyword} (h : ofSpelling? text = some k) :
    text = k.spelling := by
  have := List.find?_some h
  exact (by simpa using this : k.spelling = text).symm

/-- A text that is no reserved word is not the spelling of one. -/
theorem ne_spelling_of_ofSpelling? {text : String} (h : ofSpelling? text = none) (k : Keyword) :
    text ≠ k.spelling := by
  rintro rfl
  have := List.find?_eq_none.1 h k (by cases k <;> decide)
  simp at this

end Keyword

namespace Scan

/-- A word is cut as the reserved word it spells, or as a name that is none. -/
theorem word_proper (c : Char) (cs : List Char) (line : Nat) {kind : Kind}
    (h : (word c cs).role = .token kind) :
    Token.Proper ⟨kind, String.ofList (word c cs).text, line⟩ := by
  simp only [word, Role.token.injEq] at h ⊢
  subst h
  unfold wordKind
  split
  · rename_i k hk
    refine ⟨⟨?_, by simp⟩, by simp⟩
    rintro k' ⟨⟩
    exact Keyword.spelling_of_ofSpelling? hk
  · rename_i hk
    exact ⟨⟨by simp, fun _ => Keyword.ne_spelling_of_ofSpelling? hk⟩, by simp⟩

/-- A slash is cut as a symbol. -/
theorem slash_symbol {cs : List Char} {kind : Kind} (h : (slash cs).role = .token kind) :
    kind.isSymbol = true := by
  unfold slash at h
  split at h
  · cases h
  · split at h <;> cases h
  · cases h
    rfl

/-- A string is neither a name nor a reserved word. -/
theorem string_symbol {cs : List Char} {kind : Kind} (h : (string cs).role = .token kind) :
    kind.isSymbol = true := by
  unfold string at h
  split at h <;> cases h
  rfl

/-- A mark is cut as a symbol, short or long. -/
theorem markOrEqual_symbol {c : Char} {short long : Punct} {cs : List Char} {kind : Kind}
    (h : (markOrEqual c short long cs).role = .token kind) : kind.isSymbol = true := by
  unfold markOrEqual at h
  split at h <;> cases h <;> rfl

/-- Every token that is cut is spelled as its kind asks. -/
theorem cut_proper (c : Char) (cs : List Char) (line : Nat) {kind : Kind}
    (h : (cut c cs).role = .token kind) :
    Token.Proper ⟨kind, String.ofList (cut c cs).text, line⟩ := by
  by_cases hw : cut c cs = word c cs
  · rw [hw] at h ⊢
    exact word_proper c cs line h
  · refine .of_symbol ?_
    unfold cut at h hw
    split at h
    · cases h
    split at h
    · exact slash_symbol h
    split at h
    · exact string_symbol h
    split at h
    · cases h
      rfl
    split at h
    · simp_all
    split at h
    · cases h
      rfl
    · exact markOrEqual_symbol h
    · cases h

/-- The tokens of a source are proper ones, with one end of input behind them. -/
theorem items_eq (line : Nat) (cs : List Char) : ∃ before last,
    (items line cs).filterMap (fun item => item.toOption) = before ++ [Token.endOfInput last] ∧
      ∀ t ∈ before, t.Proper := by
  fun_induction items line cs with
  | case1 line => exact ⟨[], line, rfl, by simp⟩
  | case2 line c cs piece line' hrole ih => exact ih
  | case3 line c cs piece line' kind hrole ih =>
    obtain ⟨before, last, hb, hp⟩ := ih
    have first := cut_proper c cs line' hrole
    exact ⟨_ :: before, last, congrArg (_ :: ·) hb, List.forall_mem_cons.2 ⟨first, hp⟩⟩
  | case4 line c cs piece line' cause hrole ih => exact ih

end Scan

/-- The tokens of a source are proper ones and then the end of the input. -/
theorem tokens_eq (source : String) : ∃ before last,
    tokens source = before ++ [Token.endOfInput last] ∧ ∀ t ∈ before, t.Proper :=
  Scan.items_eq 1 source.toList

end Lox
