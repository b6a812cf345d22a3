/-
# Number text

The four places a number is written share the shortest decimal and differ in the layout:

| place | whole numbers | other numbers |
| --- | --- | --- |
| value | all digits of the exact value | shortest, positional |
| tree | all digits of the exact value and `.0` | shortest, positional |
| token | below `10 ^ 15`, digits and `.0` without a sign of zero | shortest, positional |
| document | shortest with `.0`, scientific outside `10 ^ -5 ≤ x < 10 ^ 16` | the same |

The infinities are `inf` and `-inf`, a NaN is `NaN`, and both are `null` in a document.
-/

import Lox.Number.Shortest

namespace Lox
namespace Number

/-- The decimal digits of a natural number. -/
def digitsText (n : Nat) : String := String.ofList (Nat.toDigits 10 n)

/-- A run of `n` zeros. -/
def zeros (n : Nat) : String := String.ofList (List.replicate n '0')

/-- A minus sign if asked for. -/
def sign (negative : Bool) : String := if negative then "-" else ""

namespace Decimal

/-- Positional notation without an exponent and without superfluous zeros: `1200`, `0.012`. -/
def positional (d : Decimal) : String :=
  let ds := Nat.toDigits 10 d.digits
  if 0 ≤ d.exponent then String.ofList ds ++ zeros d.exponent.toNat
  else
    let places := (-d.exponent).toNat
    if places < ds.length then
      let cut := ds.length - places
      String.ofList (ds.take cut) ++ "." ++ String.ofList (ds.drop cut)
    else "0." ++ zeros (places - ds.length) ++ String.ofList ds

/-- The exponent of the leading digit. -/
def leading (d : Decimal) : Int := (digitCount d.digits : Int) + d.exponent - 1

/-- Scientific notation with one digit before the point and a signed exponent: `1.23e-7`. -/
def scientific (d : Decimal) : String :=
  let ds := Nat.toDigits 10 d.digits
  let point := if ds.length ≤ 1 then "" else "."
  let e := d.leading
  String.ofList (ds.take 1) ++ point ++ String.ofList (ds.drop 1) ++ "e" ++
    (if e < 0 then "-" else "+") ++ digitsText e.natAbs

end Decimal

/-- The shortest text in positional notation, a half going up. -/
def shortestText (x : Float) : String :=
  match Binary.ofFloat x with
  | .nan => "NaN"
  | .infinite negative => sign negative ++ "inf"
  | .finite negative v => sign negative ++ (v.shortest .up).positional

/-- The text of a number as a value: a whole number by all its digits. -/
def valueText (x : Float) : String :=
  match Binary.ofFloat x with
  | .finite negative v =>
    if v.isWhole then sign negative ++ digitsText v.whole else shortestText x
  | _ => shortestText x

/-- The text of a number in a tree: a whole number by all its digits and `.0`. -/
def treeText (x : Float) : String :=
  match Binary.ofFloat x with
  | .finite negative v =>
    if v.isWhole then sign negative ++ digitsText v.whole ++ ".0" else shortestText x
  | _ => shortestText x

/-- The text of a number in a token: a whole number below `10 ^ 15` has `.0`, and zero no sign. -/
def tokenText (x : Float) : String :=
  match Binary.ofFloat x with
  | .finite negative v =>
    if v.isWhole && v.whole < Nat.pow 10 15 then
      sign (negative && v.whole != 0) ++ digitsText v.whole ++ ".0"
    else shortestText x
  | _ => shortestText x

/-- The text of a number in a document: a half going to the even digit, positional with at least
one place while the leading digit stands between `10 ^ -5` and `10 ^ 15`, else scientific. -/
def documentText (x : Float) : String :=
  match Binary.ofFloat x with
  | .finite negative v =>
    let d := v.shortest .toEven
    let body :=
      if v.mantissa == 0 then "0.0"
      else if -5 ≤ d.leading ∧ d.leading < 16 then
        if 0 ≤ d.exponent then d.positional ++ ".0" else d.positional
      else d.scientific
    sign negative ++ body
  | _ => "null"

end Number
end Lox
