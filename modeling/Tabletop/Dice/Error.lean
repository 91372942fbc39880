import Tabletop.Comparison
import Tabletop.Error
import Tabletop.Number
import Tabletop.Reference

/-!
# Errors of rolling

Why an expression that was read has no result.
-/

namespace Tabletop

/-- Why an expression has no value. -/
inductive EvalError where
  | divideByZero
  /-- The count is no natural number, or the sides are no positive integer. -/
  | invalidDice (count sides : Number)
  | tooManyDice (requested : Int64) (limit : Nat)
  | chainTooLong (limit : Nat)
  /-- Every face meets the condition on which drawing goes on. -/
  | endless (condition : Comparison) (sides : Int64)
  /-- The source answered with a number outside of the range. -/
  | outOfRange (value low high : Int64)
  | overflow
  | unresolved (reference : Reference)
deriving Repr, Inhabited

namespace EvalError

/-- The error in a sentence. -/
def message : EvalError → String
  | divideByZero => "cannot divide by zero"
  | invalidDice count sides =>
    "invalid dice " ++ toString count ++ "d" ++ toString sides ++
      ": the count must be a non-negative integer and the sides a positive integer"
  | tooManyDice requested limit =>
    "safety ceiling exceeded: " ++ toString requested ++ " dice requested, at most " ++
      toString limit ++ " allowed"
  | chainTooLong limit =>
    "safety ceiling exceeded: reroll or explosion chain longer than " ++ toString limit
  | endless condition sides =>
    "condition " ++ toString condition ++ " matches every face of a d" ++ toString sides ++
      " and would never stop"
  | outOfRange value low high =>
    "random source returned " ++ toString value ++ ", outside " ++ toString low ++ "..=" ++
      toString high
  | overflow => "integer overflow"
  | unresolved reference => "no value for " ++ toString reference

end EvalError

/-- Why a text has no result. -/
inductive RollError where
  | read (e : ReadError)
  | eval (e : EvalError)
deriving Repr, Inhabited

/-- The error in a sentence. -/
def RollError.message : RollError → String
  | read e => e.message
  | eval e => e.message

end Tabletop
