/-
# Callable values

Native functions, functions and classes can be called. A class takes the arguments of its
initializer, or none without one.
-/

import Lox.Heap

namespace Lox

/-- What a call can be made of. -/
inductive Callable where
  | native (f : Native)
  | function (f : Function)
  | construct (ref : ClassRef) (c : Class)

namespace Function

/-- The number of parameters. -/
def arity (f : Function) : Nat := f.decl.params.length

end Function

namespace Class

/-- The method that new objects go through (`find_method` of `init`). -/
def initializer? (c : Class) : Option Function := c.methods.get? Heap.initializerName

end Class

namespace Callable

/-- The number of arguments that a call has to pass (`arity`). -/
def arity : Callable → Nat
  | native f => f.arity
  | function f => f.arity
  | construct _ c =>
    match c.initializer? with
    | some f => f.arity
    | none => 0

end Callable

namespace Heap

/-- The value as something to call (`as_callable`). -/
def callable? (h : Heap) : Value → Option Callable
  | .native f => some (.native f)
  | .function r => (h.function? r).map .function
  | .ofClass r => (h.class? r).map (.construct r)
  | _ => none

/-- The number of arguments that a value takes, if it can be called. -/
def arity? (h : Heap) (v : Value) : Option Nat := (h.callable? v).map Callable.arity

end Heap

end Lox
