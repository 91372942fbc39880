import Tabletop.Comparison

/-!
# Modifiers

What may follow a dice term, applied to its dice in the order written:

* a `Selection` keeps or drops the highest or lowest dice;
* a `Redraw` rerolls dice or draws more of them, on a condition that may be left out;
* a success count makes the term count the kept dice that meet a comparison.
-/

namespace Tabletop

/-- Which dice stay and which are dropped. -/
inductive Selection where
  | keepHighest
  | keepLowest
  | dropHighest
  | dropLowest
deriving DecidableEq, Repr, Inhabited

/-- How the selection is written. -/
def Selection.symbol : Selection → String
  | keepHighest => "kh"
  | keepLowest => "kl"
  | dropHighest => "dh"
  | dropLowest => "dl"

/-- What happens to a die that meets the condition: `reroll` replaces it until the condition fails
and `rerollOnce` once, `explode` adds a die that may explode again, and `compound` adds further
faces onto it. -/
inductive Redraw where
  | reroll
  | rerollOnce
  | explode
  | compound
deriving DecidableEq, Repr, Inhabited

namespace Redraw

/-- How the redraw is written. -/
def symbol : Redraw → String
  | reroll => "r"
  | rerollOnce => "ro"
  | explode => "!"
  | compound => "!!"

/-- The condition meant where none is written: rerolls replace ones, explosions need the highest
face. -/
def defaultCondition (sides : Int64) : Redraw → Comparison
  | reroll | rerollOnce => .equalTo 1
  | explode | compound => .equalTo sides

/-- The drawing goes on for as long as the condition holds. -/
def repeats : Redraw → Bool
  | rerollOnce => false
  | _ => true

/-- The symbol is made of exclamation marks. -/
def isBang : Redraw → Bool
  | explode | compound => true
  | _ => false

end Redraw

/-- One modifier with its argument. -/
inductive Modifier where
  | select (selection : Selection) (count : UInt64)
  | redraw (redraw : Redraw) (condition : Option Comparison)
  | countSuccesses (condition : Comparison)
deriving DecidableEq, Repr, Inhabited

namespace Modifier

instance : ToString Modifier where
  toString
    | .select s n => s.symbol ++ toString n
    | .redraw r none => r.symbol
    | .redraw r (some c) => r.symbol ++ toString c
    | .countSuccesses c => toString c

/-- The condition that a redraw of dice with `sides` faces depends on. -/
def condition? (sides : Int64) : Modifier → Option Comparison
  | .redraw r c => some (c.getD (r.defaultCondition sides))
  | _ => none

/-- A condition met by every face of the die, on which the modifier would draw forever. -/
def endless? (sides : Int64) : Modifier → Option Comparison
  | .redraw r c =>
    let c := c.getD (r.defaultCondition sides)
    if r.repeats && c.acceptsEvery sides then some c else none
  | _ => none

/-- `m` ends with an exclamation mark and `next` starts with one, so that side by side the two
would read as one modifier. -/
def clings : Modifier → Modifier → Bool
  | .redraw r none, .redraw s _ => r.isBang && s.isBang
  | _, _ => false

/-- The modifiers of a chain, each with the space that is needed behind it. -/
def chainParts : List Modifier → List String
  | [] => []
  | [m] => [toString m]
  | m :: n :: ms => (toString m ++ if m.clings n then " " else "") :: chainParts (n :: ms)

/-- A chain of modifiers, a space between two that would cling together. -/
def chainText (ms : List Modifier) : String :=
  String.join (chainParts ms)

@[simp] theorem chainText_singleton (m : Modifier) : chainText [m] = toString m := by
  simp [chainText, chainParts, String.join_cons]

theorem chainText_cons_cons (m n : Modifier) (ms : List Modifier) :
    chainText (m :: n :: ms) =
      toString m ++ (if m.clings n then " " else "") ++ chainText (n :: ms) := by
  simp [chainText, chainParts, String.join_cons]

example :
    chainText [.redraw .explode none, .redraw .compound (some ⟨.ge, 5⟩), .select .keepHighest 2] =
      "! !!>=5kh2" := by decide +kernel

end Modifier

end Tabletop
