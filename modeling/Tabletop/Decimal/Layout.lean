import Tabletop.Decimal.Binary
import Tabletop.Decimal.Shortest

/-!
# Writing decimals

A layout fixes how the shortest digits of a double are set out: which magnitudes have their digits
in place, with at least one on either side of the point, and which are written with an exponent.
-/

namespace Tabletop.Decimal

/-- How the digits of a double are set out. -/
structure Layout where
  /-- The least power of ten of a first digit that is written in place. -/
  inPlaceFrom : Int
  /-- The least power of ten of a first digit that is too great for it. -/
  inPlaceBelow : Int
  /-- Of two equally near shortest decimals the greater is written. -/
  tiesUp : Bool
deriving DecidableEq, Repr, Inhabited

namespace Layout

/-- The digits in place, where the first one counts `10 ^ e`. -/
def inPlace (digits : List Char) (e : Int) : String :=
  if e < 0 then
    "0." ++ String.ofList (List.replicate (-e - 1).toNat '0' ++ digits)
  else
    let whole := e.toNat + 1
    let fraction := digits.drop whole
    String.ofList (digits.take whole ++ List.replicate (whole - digits.length) '0') ++ "." ++
      (if fraction.isEmpty then "0" else String.ofList fraction)

/-- The digits with an exponent; a single digit has no point. -/
def withExponent (digits : List Char) (e : Int) : String :=
  let fraction := digits.drop 1
  String.ofList (digits.take 1) ++
    (if fraction.isEmpty then "" else "." ++ String.ofList fraction) ++ "e" ++ toString e

/-- The text of `m * 2 ^ e`. -/
def magnitude (l : Layout) (m : Nat) (e : Int) (tight : Bool) : String :=
  if m = 0 then "0.0"
  else
    let s := shortest l.tiesUp m e tight
    let digits := Nat.toDigits 10 s.digits
    let first := s.exponent + digits.length - 1
    if l.inPlaceFrom ≤ first && first < l.inPlaceBelow then inPlace digits first
    else withExponent digits first

/-- The text of a double. -/
def text (l : Layout) (x : Float) : String :=
  match Parts.ofFloat x with
  | .nan => "NaN"
  | .infinite negative => if negative then "-inf" else "inf"
  | .finite negative m e tight => (if negative then "-" else "") ++ l.magnitude m e tight

end Layout

end Tabletop.Decimal
