import Tabletop.Dice.Redraw
import Tabletop.Expr

/-!
# Rolling expressions

The value of an expression, and the dice of its dice terms. Operands are evaluated from left to
right, and the count of a dice term before its sides. A dice term is checked completely before its
first die is drawn: count and sides, then the number of dice, then that no modifier can go on
forever.
-/

namespace Tabletop

/-- The dice of one dice term, in the order drawn. -/
structure DiceGroup where
  /-- The dice term as it is written. -/
  text : String
  sides : Int64
  dice : List Die
  /-- What the term contributes to the total. -/
  value : Int64
  /-- The value counts dice and does not add up faces. -/
  counts : Bool
deriving DecidableEq, Repr, Inhabited

/-- The total of an expression, and the dice that made it. -/
structure RollResult where
  /-- The expression as it is written. -/
  text : String
  total : Number
  /-- One group for each dice term, in the order of evaluation. -/
  groups : List DiceGroup
deriving Repr, Inhabited

namespace RollResult

/-- Every die, in the order of the groups. -/
def dice (r : RollResult) : List Die :=
  r.groups.flatMap DiceGroup.dice

end RollResult

namespace Pool

variable {σ : Type} [Source σ]

open Rolling

/-- The count and the sides of a dice term as integers: the count natural, the sides positive. -/
def spec (count sides : Number) : Except EvalError (Int64 × Int64) :=
  match count.toInt?, sides.toInt? with
  | some n, some s => if 0 ≤ n ∧ 1 ≤ s then .ok (n, s) else .error (.invalidDice count sides)
  | _, _ => .error (.invalidDice count sides)

/-- Checks a dice term before anything is drawn for it. -/
def check (config : Config) (count sides : Number) (modifiers : List Modifier) :
    Except EvalError (Nat × Int64) := do
  let (n, s) ← spec count sides
  if config.maxDice < n.toInt.toNat then
    .error (.tooManyDice n config.maxDice)
  else
    match modifiers.findSome? (·.endless? s) with
    | some c => .error (.endless c s)
    | none => .ok (n.toInt.toNat, s)

/-- Draws the dice of a dice term and applies its modifiers in the order written. -/
def roll (config : Config) (count sides : Number) (modifiers : List Modifier) :
    Rolling σ Pool := do
  let (n, s) ← (check config count sides modifiers : Except EvalError _)
  let faces ← drawFaces s n
  modifiers.foldlM (modify config) (ofFaces s faces)

/-- The finished dice term. -/
def group (p : Pool) (text : String) : Rolling σ DiceGroup := do
  let value ← orOverflow p.value?
  pure ⟨text, p.sides, p.dice, value, p.success.isSome⟩

end Pool

namespace Expr

variable {σ : Type} [Source σ]

open Rolling

/-- The value under a sign. -/
def applyUnary : UnaryOp → Number → Rolling σ Number
  | .plus, x => pure x
  | .minus, x => orOverflow x.neg?

/-- The value of two operands. -/
def applyBinary (division : Division) : BinaryOp → Number → Number → Rolling σ Number
  | .add, x, y => orOverflow (x.add? y)
  | .sub, x, y => orOverflow (x.sub? y)
  | .mul, x, y => orOverflow (x.mul? y)
  | .div, x, y => if y.isZero then throw .divideByZero else orOverflow (x.div? division y)

/-- The value of an expression and the groups of its dice terms. -/
def eval (config : Config) (resolve : Resolver) : Expr → Rolling σ (Number × List DiceGroup)
  | literal n => pure (.int n, [])
  | reference r =>
    match resolve r with
    | some n => pure (.int n, [])
    | none => throw (.unresolved r)
  | dice count sides modifiers => do
    let (n, groups) ← count.eval config resolve
    let (s, groups') ← sides.eval config resolve
    let pool ← Pool.roll config n s modifiers
    let group ← pool.group (dice count sides modifiers).text
    pure (.int group.value, groups ++ groups' ++ [group])
  | group e => e.eval config resolve
  | unary op e => do
    let (x, groups) ← e.eval config resolve
    let y ← applyUnary op x
    pure (y, groups)
  | binary op l r => do
    let (x, groups) ← l.eval config resolve
    let (y, groups') ← r.eval config resolve
    let z ← applyBinary config.division op x y
    pure (z, groups ++ groups')

/-- Rolls an expression. -/
def roll (config : Config) (resolve : Resolver) (e : Expr) : Rolling σ RollResult := do
  let (total, groups) ← e.eval config resolve
  pure ⟨e.text, total, groups⟩

end Expr

end Tabletop
