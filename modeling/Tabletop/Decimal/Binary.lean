/-!
# The exact value of a double

A finite double is `mantissa * 2 ^ exponent` with a sign. `Parts.ofFloat` reads the parts off the
bits, and `integer?` and `truncated` compute with them exactly.
-/

namespace Tabletop.Decimal

/-- A double, taken apart. -/
inductive Parts where
  | nan
  | infinite (negative : Bool)
  /-- `tight`: the next double towards zero is half as far away as the next one from zero. -/
  | finite (negative : Bool) (mantissa : Nat) (exponent : Int) (tight : Bool)
deriving DecidableEq, Repr, Inhabited

namespace Parts

/-- The parts that a pattern of 64 bits stands for: a sign, 11 bits of exponent and 52 bits of
fraction. -/
def ofBits (bits : Nat) : Parts :=
  let negative := bits / Nat.pow 2 63 % 2 == 1
  let exponent : Nat := bits / Nat.pow 2 52 % Nat.pow 2 11
  let fraction := bits % Nat.pow 2 52
  if exponent = Nat.pow 2 11 - 1 then
    if fraction = 0 then .infinite negative else .nan
  else if exponent = 0 then
    .finite negative fraction (-1074) false
  else
    .finite negative (Nat.pow 2 52 + fraction) ((exponent : Int) - 1075)
      (fraction == 0 && 1 < exponent)

/-- The parts of a double. -/
def ofFloat (x : Float) : Parts :=
  ofBits x.toBits.toNat

end Parts

/-- `n` with the sign. -/
def withSign (negative : Bool) (n : Nat) : Int :=
  if negative then -(n : Int) else n

/-- The integer that the double is equal to. -/
def integer? (x : Float) : Option Int :=
  match Parts.ofFloat x with
  | .finite negative m e _ =>
    if 0 ≤ e then some (withSign negative (m * Nat.pow 2 e.toNat))
    else if m % Nat.pow 2 (-e).toNat = 0 then
      some (withSign negative (m / Nat.pow 2 (-e).toNat))
    else none
  | _ => none

/-- The double without its fraction, as an integer between `low` and `high`; a double that is no
number counts as zero. -/
def truncated (low high : Int) (x : Float) : Int :=
  match Parts.ofFloat x with
  | .nan => 0
  | .infinite negative => if negative then low else high
  | .finite negative m e _ =>
    max low (min high (withSign negative (m * Nat.pow 2 e.toNat / Nat.pow 2 (-e).toNat)))

end Tabletop.Decimal
