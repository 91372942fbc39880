/-!
# Shortest decimals

The fewest digits that name a double: of the decimals that round to it, those with the fewest
digits, and of these the nearest. All arithmetic is on natural numbers.

The reals that round to a double form an interval around it. A grid of decimals with a given number
of digits meets the interval only if one of the two grid points next to the double is in it, so
it is enough to try these two on one grid after the other.
-/

namespace Tabletop.Decimal

/-- A double and the interval of reals that round to it, as fractions over one denominator. -/
structure Interval where
  low : Nat
  value : Nat
  high : Nat
  den : Nat
  /-- The ends round to the double too. -/
  closed : Bool
deriving DecidableEq, Repr, Inhabited

namespace Interval

/-- The interval of `m * 2 ^ e`, which reaches half way to the doubles next to it. -/
def ofBinary (m : Nat) (e : Int) (tight : Bool) : Interval :=
  let scale := Nat.pow 2 (e - 2).toNat
  { low := (4 * m - (if tight then 1 else 2)) * scale
    value := 4 * m * scale
    high := (4 * m + 2) * scale
    den := Nat.pow 2 (2 - e).toNat
    closed := m % 2 == 0 }

/-- `d * 10 ^ p` is in the interval. -/
def contains (i : Interval) (d : Nat) (p : Int) : Bool :=
  let x := d * Nat.pow 10 p.toNat * i.den
  let low := i.low * Nat.pow 10 (-p).toNat
  let high := i.high * Nat.pow 10 (-p).toNat
  if i.closed then low ≤ x && x ≤ high else low < x && x < high

end Interval

/-- The number of decimal digits; zero has none. -/
def digitCount (n : Nat) : Nat :=
  if n = 0 then 0 else (Nat.toDigits 10 n).length

/-- The exponent `e` with `10 ^ e ≤ num / den < 10 ^ (e + 1)`. -/
def decimalExponent (num den : Nat) : Int :=
  if den ≤ num then (digitCount (num / den) : Int) - 1 else -(digitCount ((den - 1) / num) : Int)

/-- Digits and the power of ten of the last of them. -/
structure Digits where
  digits : Nat
  exponent : Int
deriving DecidableEq, Repr, Inhabited

/-- The decimal of `k` digits in the interval that is nearest to the double. Of two equally near
ones it is the greater if `tiesUp`, else the one with the even last digit. -/
def nearest? (tiesUp : Bool) (i : Interval) (k : Nat) : Option Digits :=
  let p := decimalExponent i.value i.den - k + 1
  let num := i.value * Nat.pow 10 (-p).toNat
  let den := i.den * Nat.pow 10 p.toNat
  let d := num / den
  let twice := 2 * (num % den)
  let below : Digits := ⟨d, p⟩
  let above : Digits := if d + 1 = Nat.pow 10 k then ⟨1, p + k⟩ else ⟨d + 1, p⟩
  match i.contains d p, i.contains (d + 1) p with
  | false, false => none
  | true, false => some below
  | false, true => some above
  | true, true =>
    if twice < den || (twice = den && !tiesUp && d % 2 = 0) then some below else some above

/-- The shortest decimal of a positive double. Seventeen digits are always enough. -/
def shortest (tiesUp : Bool) (m : Nat) (e : Int) (tight : Bool) : Digits :=
  let i := Interval.ofBinary m e tight
  ((List.range 17).findSome? fun k => nearest? tiesUp i (k + 1)).getD ⟨m, 0⟩

end Tabletop.Decimal
