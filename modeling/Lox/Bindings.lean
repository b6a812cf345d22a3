/-
# Bindings

A finite map from names, kept as a list with one entry a name. The entry of a name keeps its place
when its value is replaced.
-/

namespace Lox

/-- A finite map from names to `α`. -/
structure Bindings (α : Type) where
  entries : List (String × α)
deriving Repr

namespace Bindings

variable {α : Type}

/-- No name is bound. -/
def empty : Bindings α := ⟨[]⟩

instance : EmptyCollection (Bindings α) := ⟨empty⟩

/-- The value of a name in a list of entries. -/
def find (name : String) : List (String × α) → Option α
  | [] => none
  | (n, a) :: rest => if n = name then some a else find name rest

/-- The value of a name. -/
def get? (b : Bindings α) (name : String) : Option α := find name b.entries

/-- Whether a name is bound. -/
def contains (b : Bindings α) (name : String) : Bool := (b.get? name).isSome

/-- Replaces the value of a name in a list of entries, or adds it at the end. -/
def put (name : String) (a : α) : List (String × α) → List (String × α)
  | [] => [(name, a)]
  | (n, old) :: rest => if n = name then (name, a) :: rest else (n, old) :: put name a rest

/-- Binds a name, replacing a value it had. -/
def insert (b : Bindings α) (name : String) (a : α) : Bindings α := ⟨put name a b.entries⟩

/-- Binds the names of a list in order. -/
def insertMany (b : Bindings α) : List (String × α) → Bindings α
  | [] => b
  | (name, a) :: rest => (b.insert name a).insertMany rest

/-- Putting a name into a list of entries changes what is found under that name only. -/
theorem find_put (name n : String) (a : α) (entries : List (String × α)) :
    find n (put name a entries) = if name = n then some a else find n entries := by
  induction entries with
  | nil => rfl
  | cons entry rest ih =>
    obtain ⟨m, old⟩ := entry
    by_cases hm : m = name
    · subst hm
      by_cases hn : m = n <;> simp [put, find, hn]
    · have hp : put name a ((m, old) :: rest) = (m, old) :: put name a rest := by simp [put, hm]
      by_cases hn : m = n
      · subst hn
        simp [hp, find, Ne.symm hm]
      · simp [hp, find, hn, ih]

@[simp] theorem get?_empty (name : String) : (∅ : Bindings α).get? name = none := rfl

/-- Binding a name changes that name only. -/
@[simp] theorem get?_insert (b : Bindings α) (name n : String) (a : α) :
    (b.insert name a).get? n = if name = n then some a else b.get? n :=
  find_put name n a b.entries

end Bindings

end Lox
