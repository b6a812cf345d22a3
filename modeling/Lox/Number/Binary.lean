/-
# Binary form of a number

A double is a NaN, an infinity, or a sign with a magnitude `mantissa * 2 ^ exponent`, where the
mantissa has at most 53 bits. Everything the printers need is read off this form in exact natural
number arithmetic.
-/

namespace Lox
namespace Number

/-- The magnitude `mantissa * 2 ^ exponent` of a finite double. -/
structure Magnitude where
  mantissa : Nat
  exponent : Int
deriving DecidableEq, Repr

/-- The three shapes of a double. -/
inductive Binary where
  | nan
  | infinite (negative : Bool)
  | finite (negative : Bool) (magnitude : Magnitude)
deriving DecidableEq, Repr

namespace Magnitude

/-- The power of two to multiply by, when the exponent is not negative. -/
def twosUp (v : Magnitude) : Nat := Nat.pow 2 v.exponent.toNat

/-- The power of two to divide by, when the exponent is negative. -/
def twosDown (v : Magnitude) : Nat := Nat.pow 2 (-v.exponent).toNat

/-- Whether the magnitude is a whole number. -/
def isWhole (v : Magnitude) : Bool := v.mantissa * v.twosUp % v.twosDown == 0

/-- The whole part of the magnitude. -/
def whole (v : Magnitude) : Nat := v.mantissa * v.twosUp / v.twosDown

end Magnitude

namespace Binary

/-- Splits the 64 bits into sign, 11 exponent bits and 52 fraction bits: an exponent field of all
ones is an infinity or a NaN, an exponent field of zero has no hidden leading bit. -/
def ofBits (bits : UInt64) : Binary :=
  let n := bits.toNat
  let negative := n / Nat.pow 2 63 == 1
  let field : Nat := n / Nat.pow 2 52 % Nat.pow 2 11
  let fraction : Nat := n % Nat.pow 2 52
  if field == 2047 then
    if fraction == 0 then .infinite negative else .nan
  else if field == 0 then .finite negative ⟨fraction, -1074⟩
  else .finite negative ⟨fraction + Nat.pow 2 52, (field : Int) - 1075⟩

/-- The binary form of a number. -/
def ofFloat (x : Float) : Binary := ofBits x.toBits

end Binary

end Number
end Lox
