/-
# The range of JSON numbers

A literal is read as digits and a power of ten, and of the digits only as many as 64 bits hold.

| digits | as long as they fit | from the first that does not fit |
| --- | --- | --- |
| in front of the point | taken | one more in the exponent for each |
| behind the point | taken, one less in the exponent for each | passed over |

A number is in range if the double nearest to its digits, times the double nearest to its power of
ten, is again a finite double.  As the digits are rounded on their own, this draws the line a little
off 2^1024, and for two spellings of one number not always at the same place.
-/

import AnnexB.Text.Decimal

namespace AnnexB
namespace Json
namespace Number

/-- Writes digits behind a number as long as it stays below 2^64; with the digits that are left. -/
def takeDigits (n : Nat) : List Char → Nat × List Char
  | [] => (n, [])
  | d :: ds =>
    let longer := 10 * n + (d.toNat - '0'.toNat)
    if longer < UInt64.size then takeDigits longer ds else (n, d :: ds)

/-- The power of ten behind the letter of an exponent; zero without one. -/
def power (exponent : List Char) : Int :=
  match exponent.drop 1 with
  | '-' :: ds => -((takeDigits 0 ds).1 : Int)
  | '+' :: ds => (takeDigits 0 ds).1
  | ds => (takeDigits 0 ds).1

/-- What a literal stands for, without its sign. -/
def scaled (literal : String) : Decimal.Scaled :=
  let (front, exponent) := literal.toList.span fun c => c ≠ 'e' && c ≠ 'E'
  let (whole, behind) := (front.dropWhile (· == '-')).span (· ≠ '.')
  let places := behind.drop 1
  let (n, counted) := takeDigits 0 whole
  let (digits, passed) := takeDigits n places
  let taken : Int := places.length - passed.length
  ⟨digits, power exponent + counted.length - taken⟩

/-- Halfway from the greatest double to 2^1024: from here on a number is rounded to no double. -/
def limit : Nat := (1 <<< 54 - 1) <<< 970

/-- Whether a literal is in range. -/
def inRange (literal : String) : Bool :=
  let s := scaled literal
  s.digits == 0 || s.exponent < 0 ||
    (s.exponent ≤ 308 &&
      Decimal.nearestDouble s.digits * Decimal.nearestDouble (Nat.pow 10 s.exponent.toNat) < limit)

end Number
end Json
end AnnexB
