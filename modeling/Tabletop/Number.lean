import Tabletop.Decimal.Layout
import Tabletop.Integer

/-!
# Numbers

The value of an expression is an integer, or a decimal where division is allowed to leave the
integers. Arithmetic on integers is exact: an operation is `none` where the result is no 64-bit
integer. Arithmetic that involves a decimal is that of doubles.
-/

namespace Tabletop

/-- How `/` treats a quotient with a fractional part. -/
inductive Division where
  /-- The fraction is dropped. -/
  | truncate
  /-- Exact quotients stay integers, the others become decimals. -/
  | decimal
deriving DecidableEq, Repr, Inhabited

/-- An integer, or a double. -/
inductive Number where
  | int (n : Int64)
  | decimal (x : Float)
deriving Repr, Inhabited

namespace Number

/-- Decimals have the fewest digits that name them. Exponents are left to magnitudes below a
ten-thousandth and from ten to the sixteenth on. -/
def layout : Decimal.Layout := ⟨-4, 16, true⟩

example : layout.magnitude (2 ^ 52) (-53) true = "0.5" := by decide +kernel
example : layout.magnitude (3 * 2 ^ 51) (-51) false = "3.0" := by decide +kernel
example : layout.magnitude (2 ^ 52) 8 true = "1.152921504606847e18" := by decide +kernel
example : layout.magnitude 1 (-1074) false = "5e-324" := by decide +kernel

/-- The text of a decimal. -/
def decimalText (x : Float) : String :=
  layout.text x

instance : ToString Number where
  toString
    | int n => toString n
    | decimal x => decimalText x

/-- The double nearest to the number. -/
def toFloat : Number → Float
  | int n => Float.ofInt n.toInt
  | decimal x => x

/-- The integer that the number is equal to, if it lies strictly between `-2 ^ 63` and `2 ^ 63`
or is one to begin with. -/
def toInt? : Number → Option Int64
  | int n => some n
  | decimal x => do
    let n ← Decimal.integer? x
    if n.natAbs < Nat.pow 2 63 then checked n else none

/-- The number is zero; both zeros among the doubles count. -/
def isZero : Number → Bool
  | int n => n == 0
  | decimal x => x == 0

/-- Integers are compared exactly, all else as doubles. -/
def equals : Number → Number → Bool
  | int m, int n => m == n
  | x, y => x.toFloat == y.toFloat

/-- The order of two numbers; none if one of them is no number. -/
def order? : Number → Number → Option Ordering
  | int m, int n => some (compare m n)
  | x, y =>
    let x := x.toFloat
    let y := y.toFloat
    if x < y then some .lt else if x == y then some .eq else if y < x then some .gt else none

/-! ## Arithmetic -/

/-- The opposite number. -/
def neg? : Number → Option Number
  | int n => (checked (-n.toInt)).map int
  | decimal x => some (decimal (-x))

/-- The sum. -/
def add? : Number → Number → Option Number
  | int m, int n => (checked (m.toInt + n.toInt)).map int
  | x, y => some (decimal (x.toFloat + y.toFloat))

/-- The difference. -/
def sub? : Number → Number → Option Number
  | int m, int n => (checked (m.toInt - n.toInt)).map int
  | x, y => some (decimal (x.toFloat - y.toFloat))

/-- The product. -/
def mul? : Number → Number → Option Number
  | int m, int n => (checked (m.toInt * n.toInt)).map int
  | x, y => some (decimal (x.toFloat * y.toFloat))

/-- The quotient by a divisor that is not zero. -/
def div? (division : Division) : Number → Number → Option Number
  | int m, int n =>
    match division with
    | .truncate => (checked (m.toInt.tdiv n.toInt)).map int
    | .decimal =>
      -- the one exact quotient that is no 64-bit integer becomes a decimal
      match checked (m.toInt.tdiv n.toInt) with
      | some q => if m.toInt.tmod n.toInt = 0 then some (int q) else some (quotient m n)
      | none => some (quotient m n)
  | x, y =>
    match division with
    | .truncate =>
      some (int (clamped (Decimal.truncated Int64.minValue.toInt Int64.maxValue.toInt
        (x.toFloat / y.toFloat))))
    | .decimal => some (decimal (x.toFloat / y.toFloat))
where
  quotient (m n : Int64) : Number :=
    decimal (toFloat (int m) / toFloat (int n))

end Number

end Tabletop
