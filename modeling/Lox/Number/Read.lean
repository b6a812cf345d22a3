/-
# Reading numbers

A decimal is read as the nearest double. Numerals in a source are digits with an optional
fraction; the general form also has a sign, an exponent and the names of the infinities and of the
NaN.
-/

namespace Lox
namespace Number

/-- The natural number that a list of digits spells. -/
def ofDigits (ds : List Char) : Nat :=
  ds.foldl (fun n c => 10 * n + (c.toNat - '0'.toNat)) 0

/-- The double nearest to `whole.fraction`, both given by their digits. -/
def ofNumeral (whole fraction : List Char) : Float :=
  Float.ofScientific (ofDigits (whole ++ fraction)) true fraction.length

/-- The double nearest to `digits * 10 ^ exponent`. -/
def ofDecimal (digits : Nat) (exponent : Int) : Float :=
  if exponent < 0 then Float.ofScientific digits true (-exponent).toNat
  else Float.ofScientific digits false exponent.toNat

/-- An integer with an optional sign. -/
def integer? : List Char → Option Int
  | '-' :: ds => if ds.isEmpty || !ds.all Char.isDigit then none else some (-(ofDigits ds : Int))
  | '+' :: ds => if ds.isEmpty || !ds.all Char.isDigit then none else some (ofDigits ds)
  | ds => if ds.isEmpty || !ds.all Char.isDigit then none else some (ofDigits ds)

/-- A number without a sign: a name, or digits with an optional fraction and exponent. -/
def unsigned? (cs : List Char) : Option Float :=
  if cs == "inf".toList then some (1.0 / 0.0)
  else if cs == "NaN".toList then some (0.0 / 0.0)
  else
    let whole := cs.takeWhile Char.isDigit
    let afterWhole := cs.dropWhile Char.isDigit
    let (fraction, rest) :=
      match afterWhole with
      | '.' :: more => (more.takeWhile Char.isDigit, more.dropWhile Char.isDigit)
      | _ => ([], afterWhole)
    let digits := ofDigits (whole ++ fraction)
    if whole.isEmpty && fraction.isEmpty then none
    else
      match rest with
      | [] => some (ofDecimal digits (-(fraction.length : Int)))
      | e :: more =>
        if e == 'e' || e == 'E' then
          (integer? more).map fun k => ofDecimal digits (k - fraction.length)
        else none

/-- Reads a number from its text. -/
def read? (text : String) : Option Float :=
  match text.toList with
  | '-' :: cs => (unsigned? cs).map fun x => -x
  | cs => unsigned? cs

end Number
end Lox
