import Tabletop.Config
import Tabletop.Dice.Pool

/-!
# Rerolls and explosions

The modifiers that draw further dice. Each of them makes chains of draws, and no chain may be longer
than a limit.

* A reroll gives every kept die that meets the condition a chain of replacements, of which the last
  one is kept.
* A compounding explosion gives each such die a chain of faces that are added onto it.
* A plain explosion works by generations: each die of one generation that meets the condition
  brings one die of the next.
-/

namespace Tabletop.Pool

variable {σ : Type} [Source σ]

open Rolling

/-- Faces drawn one after the other until one of them is not to be followed by another. There may
be `n` of them; `limit` is the limit that is reported. -/
def chain (again : Int64 → Bool) (sides : Int64) (limit : Nat) :
    (n : Nat) → Rolling σ (List Int64)
  | 0 => throw (.chainTooLong limit)
  | n + 1 => do
    let face ← draw sides
    if again face then
      let faces ← chain again sides limit n
      pure (face :: faces)
    else
      pure [face]

/-- A chain whose faces are added onto `total`: its faces, and the sum. -/
def growingChain (again : Int64 → Bool) (sides : Int64) (limit : Nat) :
    (n : Nat) → (total : Int64) → Rolling σ (List Int64 × Int64)
  | 0, _ => throw (.chainTooLong limit)
  | n + 1, total => do
    let face ← draw sides
    let total ← orOverflow (checked (total.toInt + face.toInt))
    if again face then
      let (faces, total) ← growingChain again sides limit n total
      pure (face :: faces, total)
    else
      pure ([face], total)

/-- Changes the dice that meet the condition, in order, by `f`, which also says what dice to put
behind all others. -/
def extend (c : Comparison) (f : Die → Rolling σ (Die × List Die)) (p : Pool) :
    Rolling σ Pool := do
  let results ← p.dice.mapM fun d => if d.meets c then f d else pure (d, [])
  pure { p with dice := results.map (·.1) ++ results.flatMap (·.2) }

/-! ## Rerolls -/

/-- The dice of a chain of replacements: all are rerolled but the last. -/
def replacements (sides : Int64) : List Int64 → List Die
  | [] => []
  | [face] => [.drawn sides .kept face]
  | face :: faces => .drawn sides .rerolled face :: replacements sides faces

/-- Replaces the dice that meet the condition, until it fails or once. -/
def reroll (c : Comparison) (once : Bool) (limit : Nat) (p : Pool) : Rolling σ Pool :=
  p.extend c fun d => do
    let faces ← chain (fun face => !once && c.accepts face) p.sides limit limit
    pure ({ d with status := .rerolled }, replacements p.sides faces)

/-! ## Explosions -/

/-- Adds a chain of faces onto each die that meets the condition. -/
def compound (c : Comparison) (limit : Nat) (p : Pool) : Rolling σ Pool :=
  p.extend c fun d => do
    let (faces, total) ← growingChain c.accepts p.sides limit limit d.face
    pure ({ d with face := total, exploded := true }, faces.map (.drawn p.sides .exploded))

/-- The generation `dice` with its explosions marked, and all later ones behind it. There may be
`n` more generations. -/
def generations (c : Comparison) (sides : Int64) (limit : Nat) :
    (n : Nat) → (dice : List Die) → Rolling σ (List Die)
  | n, dice =>
    let triggers := dice.filter (Die.meets c)
    if triggers.isEmpty then
      pure dice
    else
      match n with
      | 0 => throw (.chainTooLong limit)
      | n + 1 => do
        let faces ← drawFaces sides triggers.length
        let later ← generations c sides limit n (faces.map (.drawn sides .kept))
        pure (dice.map (fun d => if d.meets c then { d with exploded := true } else d) ++ later)

/-- Adds the later generations of the dice that meet the condition. -/
def explode (c : Comparison) (limit : Nat) (p : Pool) : Rolling σ Pool := do
  let dice ← generations c p.sides limit limit p.dice
  pure { p with dice }

/-! ## All modifiers -/

/-- Applies one modifier. -/
def modify (config : Config) (p : Pool) : Modifier → Rolling σ Pool
  | .select s n => pure (p.select s n.toNat)
  | .redraw r c =>
    let c := c.getD (r.defaultCondition p.sides)
    match r with
    | .reroll => p.reroll c false config.maxChain
    | .rerollOnce => p.reroll c true config.maxChain
    | .explode => p.explode c config.maxChain
    | .compound => p.compound c config.maxChain
  | .countSuccesses c => pure { p with success := some c }

end Tabletop.Pool
