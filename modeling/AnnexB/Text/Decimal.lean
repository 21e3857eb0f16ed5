/-
# Decimal texts of floating-point numbers

A finite double is `m * 2^q` with natural `m`.  Two texts of it are made in exact arithmetic.

| text | rule |
| --- | --- |
| `Decimal.fixed places` | rounded to so many places, a tie to the even digit |
| `Decimal.shortest` | the fewest digits that read back, of two such the nearer one |

The shortest text is positional from `0.00001` up to below `10^16` and keeps a point; outside of
that range it has an exponent.
-/

namespace AnnexB
namespace Decimal

/-- The number that some decimal digits stand for. -/
def ofDigits (ds : List Char) : Nat := ds.foldl (fun n c => 10 * n + (c.toNat - '0'.toNat)) 0

/-- A finite double without its sign: `mantissa * 2^exponent`. -/
structure Binary where
  mantissa : Nat
  exponent : Int
  deriving DecidableEq, Repr, Inhabited

/-- The highest bit of a mantissa, which is not stored. -/
def Binary.leadingBit : Nat := 1 <<< 52

/-- The magnitude of a finite double. -/
def Binary.ofFloat (x : Float) : Binary :=
  let bits := x.toBits.toNat
  let field := bits / leadingBit % 2048
  let fraction := bits % leadingBit
  if field = 0 then ⟨fraction, -1074⟩ else ⟨leadingBit + fraction, (field : Int) - 1075⟩

/-- Whether the sign bit is set. -/
def isNegative (x : Float) : Bool := x.toBits >>> 63 != 0

/-- `num / den` rounded to a natural number, a tie to the even one. -/
def roundDiv (num den : Nat) : Nat :=
  let q := num / den
  let twice := 2 * (num % den)
  if twice > den || (twice == den && q % 2 == 1) then q + 1 else q

/-- The number of at most 53 significant bits nearest to `n`, a tie to the even one. -/
def nearestDouble (n : Nat) : Nat :=
  let dropped := n.log2 - 52
  roundDiv n (1 <<< dropped) <<< dropped

/-- The number as a fraction. -/
def Binary.fraction (b : Binary) : Nat × Nat :=
  (b.mantissa <<< b.exponent.toNat, 1 <<< (-b.exponent).toNat)

/-- The decimal digits of `n`, at least `width` of them. -/
def padded (n width : Nat) : List Char :=
  let ds := Nat.toDigits 10 n
  List.replicate (width - ds.length) '0' ++ ds

/-- The digits of `n`, the last `places` of them behind a point. -/
def withPoint (n places : Nat) : List Char :=
  let ds := padded n (places + 1)
  ds.take (ds.length - places) ++ '.' :: ds.drop (ds.length - places)

/-- A finite number with `places` places, of which there is at least one. -/
def fixed (places : Nat) (x : Float) : String :=
  let (num, den) := (Binary.ofFloat x).fraction
  let sign := if isNegative x then ['-'] else []
  String.ofList (sign ++ withPoint (roundDiv (num * Nat.pow 10 places) den) places)

/-- A decimal number `digits * 10^exponent`. -/
structure Scaled where
  digits : Nat
  exponent : Int
  deriving DecidableEq, Repr, Inhabited

/-- The fraction `num / den` in units of `10^exponent`. -/
def inUnits (num den : Nat) (exponent : Int) : Nat × Nat :=
  (num * Nat.pow 10 (-exponent).toNat, den * Nat.pow 10 exponent.toNat)

/-- The multiple of `10^exponent` nearest to a number that reads back as the number, if one does.
The numbers that read back reach halfway to the neighbours, whose lower one is nearer for a power
of two; the ends count for an even mantissa. -/
def candidate? (b : Binary) (exponent : Int) : Option Nat :=
  let even := b.mantissa % 2 = 0
  let lowerGap := if b.mantissa = Binary.leadingBit ∧ b.exponent > -1074 then 1 else 2
  let (num, den) := (Binary.mk (4 * b.mantissa) (b.exponent - 2)).fraction
  let gap := (Binary.mk 1 (b.exponent - 2)).fraction
  let (value, unit) := inUnits num den exponent
  let (quarter, _) := inUnits gap.1 gap.2 exponent
  let readsBack (n : Nat) : Bool :=
    let low := value - lowerGap * quarter
    let high := value + 2 * quarter
    if even then low ≤ n * unit && n * unit ≤ high else low < n * unit && n * unit < high
  let nearest := roundDiv value unit
  let others := [value / unit, value / unit + 1]
  (nearest :: others).find? readsBack

/-- The candidate with the fewest digits, with units of `10^exponent` tried from large to small. -/
def search (b : Binary) (exponent : Int) : (tries : Nat) → Scaled
  | 0 => ⟨0, 0⟩
  | tries + 1 =>
    match candidate? b exponent with
    | some n => if n = 0 then search b (exponent - 1) tries else ⟨n, exponent⟩
    | none => search b (exponent - 1) tries

/-- The number without the zeros at the end of its digits. -/
def Scaled.trim (s : Scaled) : (tries : Nat) → Scaled
  | 0 => s
  | tries + 1 =>
    if s.digits ≠ 0 ∧ s.digits % 10 = 0 then trim ⟨s.digits / 10, s.exponent + 1⟩ tries else s

/-- The shortest decimal number that reads back as the given one. -/
def Scaled.ofBinary (b : Binary) : Scaled :=
  if b.mantissa = 0 then ⟨0, 0⟩ else (search b 309 640).trim 310

/-- How a decimal number is written. -/
def Scaled.text (s : Scaled) : List Char :=
  let ds := Nat.toDigits 10 s.digits
  let point := ds.length + s.exponent
  if s.digits = 0 then ['0', '.', '0']
  else if 0 ≤ s.exponent ∧ point ≤ 16 then
    ds ++ List.replicate s.exponent.toNat '0' ++ ['.', '0']
  else if 0 < point ∧ point ≤ 16 then
    ds.take point.toNat ++ '.' :: ds.drop point.toNat
  else if -5 < point ∧ point ≤ 0 then
    '0' :: '.' :: List.replicate (-point).toNat '0' ++ ds
  else
    let power := 'e' :: (toString (point - 1)).toList
    match ds with
    | [d] => d :: power
    | d :: rest => d :: '.' :: rest ++ power
    | [] => power

/-- The shortest text of a finite number. -/
def shortest (x : Float) : String :=
  let sign := if isNegative x then ['-'] else []
  String.ofList (sign ++ (Scaled.ofBinary (Binary.ofFloat x)).text)

end Decimal
end AnnexB
