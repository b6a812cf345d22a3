/-
# Shortest decimals

The decimal text of a number has the fewest digits that read back as the same double, and among
those the ones nearest to its exact value. On the grid of `n`-digit decimals only the two
neighbours of the value can be candidates, so the search tries one grid after the other, from one
digit to seventeen, with exact arithmetic throughout.
-/

import Lox.Number.Binary

namespace Lox
namespace Number

/-- The decimal `digits * 10 ^ exponent`. -/
structure Decimal where
  digits : Nat
  exponent : Int
deriving DecidableEq, Repr

/-- Which neighbour is written when both are equally near. -/
inductive Tie where
  | up
  | toEven
deriving DecidableEq, Repr

/-- The number of decimal digits of `n`; zero has one. -/
def digitCount (n : Nat) : Nat := (Nat.toDigits 10 n).length

namespace Decimal

/-- Drops the trailing zeros of a digit string of at most `fuel` digits. -/
def stripZeros : Nat → Decimal → Decimal
  | 0, d => d
  | fuel + 1, d =>
    if d.digits ≠ 0 ∧ d.digits % 10 = 0 then stripZeros fuel ⟨d.digits / 10, d.exponent + 1⟩ else d

/-- The same decimal without trailing zeros. -/
def normal (d : Decimal) : Decimal := stripZeros (digitCount d.digits) d

end Decimal

namespace Magnitude

/-- The decimal exponent `e` with `10 ^ (e - 1) ≤ v < 10 ^ e`, for `v` not zero. No double is
smaller than `10 ^ -324`, so that many places are enough to see a leading digit. -/
def decimalExponent (v : Magnitude) : Int :=
  (digitCount (v.mantissa * v.twosUp * Nat.pow 10 324 / v.twosDown) : Int) - 324

/-- Two whole numbers `(unit, one)` in the ratio of `2 ^ exponent` to `10 ^ place`, so that
comparing `a * 2 ^ exponent` with `b * 10 ^ place` is comparing `a * unit` with `b * one`. -/
def scaled (v : Magnitude) (place : Int) : Nat × Nat :=
  (v.twosUp * Nat.pow 10 (-place).toNat, v.twosDown * Nat.pow 10 place.toNat)

/-- Whether `digits * 10 ^ place` lies in the interval of reals that round to `v`. The interval
reaches half a unit up and half a unit down, a quarter down from a power of two, and contains its
ends exactly when the mantissa is even. -/
def roundsFrom (v : Magnitude) (place : Int) (digits : Nat) : Bool :=
  let (unit, one) := v.scaled place
  let narrow := v.mantissa == Nat.pow 2 52 && decide (v.exponent > -1074)
  let low := (4 * v.mantissa - if narrow then 1 else 2) * unit
  let high := (4 * v.mantissa + 2) * unit
  let point := 4 * digits * one
  if v.mantissa % 2 == 0 then low ≤ point && point ≤ high else low < point && point < high

/-- The neighbour of `v` on the grid `10 ^ place` that reads back as `v`, the nearer of two. -/
def onGrid? (tie : Tie) (v : Magnitude) (place : Int) : Option Decimal :=
  let (unit, one) := v.scaled place
  let floor := v.mantissa * unit / one
  let excess := v.mantissa * unit % one
  match v.roundsFrom place floor, v.roundsFrom place (floor + 1) with
  | true, true =>
    let ceiling :=
      match compare (2 * excess) one, tie with
      | .lt, _ => false
      | .gt, _ => true
      | .eq, .up => true
      | .eq, .toEven => floor % 2 == 1
    some ⟨if ceiling then floor + 1 else floor, place⟩
  | true, false => some ⟨floor, place⟩
  | false, true => some ⟨floor + 1, place⟩
  | false, false => none

/-- The shortest decimal that reads back as `v`: the first grid with a candidate wins. -/
def shortest (tie : Tie) (v : Magnitude) : Decimal :=
  if v.mantissa == 0 then ⟨0, 0⟩
  else
    let top := v.decimalExponent
    let found := (List.range 17).findSome? fun (k : Nat) => v.onGrid? tie (top - 1 - k)
    match found with
    | some d => d.normal
    | none => ⟨v.whole, 0⟩

end Magnitude

end Number
end Lox
