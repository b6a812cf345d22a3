/-
# Values

What a running program computes with. Functions, classes and objects live on the heap; a value
holds a reference to them, and two of them are equal when they are one and the same.
-/

import Lox.Number.Text

namespace Lox

/-- A frame on the heap. -/
structure FrameRef where
  index : Nat
deriving DecidableEq, Repr

/-- A function on the heap. -/
structure FunctionRef where
  index : Nat
deriving DecidableEq, Repr

/-- A class on the heap. -/
structure ClassRef where
  index : Nat
deriving DecidableEq, Repr

/-- An object on the heap. -/
structure ObjectRef where
  index : Nat
deriving DecidableEq, Repr

/-- The functions that every program finds in its global frame. -/
inductive Native where
  | clock
deriving DecidableEq, Repr

/-- A value of a running program. -/
inductive Value where
  | nil
  | bool (b : Bool)
  | number (x : Float)
  | string (s : String)
  | native (f : Native)
  | function (f : FunctionRef)
  | ofClass (c : ClassRef)
  | object (o : ObjectRef)
deriving DecidableEq, Repr

namespace Native

/-- The global name of the function. -/
def name : Native → String
  | clock => "clock"

/-- The number of its parameters. -/
def arity : Native → Nat
  | clock => 0

end Native

namespace Value

/-- Whether the value counts as true (`is_truthy`): all do but `nil` and `false`. -/
def isTruthy : Value → Bool
  | nil => false
  | bool b => b
  | _ => true

/-- Whether two values are equal (the values' `eq`). Values of different kinds never are; numbers
are compared as numbers, so that a NaN differs from itself and both zeros are equal. -/
def equal : Value → Value → Bool
  | nil, nil => true
  | bool a, bool b => a == b
  | number x, number y => x == y
  | string s, string t => s == t
  | native f, native g => f == g
  | function f, function g => f == g
  | ofClass c, ofClass d => c == d
  | object o, object p => o == p
  | _, _ => false

end Value

end Lox
