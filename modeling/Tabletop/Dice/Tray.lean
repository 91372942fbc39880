import Tabletop.Dice.Error
import Tabletop.Source

/-!
# The tray

Dice are rolled on a tray: it holds the source of faces and the record of every call to it, oldest
first. A `Rolling` may fail, and what it has drawn until then stays drawn.

`draw` is the one way to a face: it makes one call and checks the answer. `drawFaces` makes one draw
after the other, and no further one behind a draw that fails.
-/

namespace Tabletop

/-- One call to the source: the range asked for, and the answer. -/
structure Call where
  low : Int64
  high : Int64
  value : Int64
deriving DecidableEq, Repr, Inhabited

/-- A source of faces, and the calls made to it so far. -/
structure Tray (σ : Type) where
  source : σ
  calls : Array Call
deriving Repr, Inhabited

/-- A computation that draws from a source of type `σ`. -/
abbrev Rolling (σ : Type) := ExceptT EvalError (StateM (Tray σ))

namespace Tray

variable {σ : Type}

/-- A tray on which nothing has been drawn yet. -/
def ofSource (source : σ) : Tray σ := ⟨source, #[]⟩

/-- Asks the source for a number from `low` to `high`. -/
def call [Source σ] (low high : Int64) (t : Tray σ) : Int64 × Tray σ :=
  let (value, source) := Source.next t.source low high
  (value, ⟨source, t.calls.push ⟨low, high, value⟩⟩)

/-- Runs a computation on the tray. -/
def roll {α : Type} (t : Tray σ) (r : Rolling σ α) : Except EvalError α × Tray σ :=
  r.run.run t

end Tray

namespace Rolling

variable {σ α : Type}

/-- The value, or a failure by overflow if there is none. -/
def orOverflow : Option α → Rolling σ α
  | some a => pure a
  | none => throw .overflow

/-- Asks for a number from `1` to `sides`, without a look at the answer. -/
def ask [Source σ] (sides : Int64) : Rolling σ Int64 :=
  modifyGet (Tray.call 1 sides)

/-- Draws a face of a die with `sides` faces. -/
def draw [Source σ] (sides : Int64) : Rolling σ Int64 := do
  let face ← ask sides
  if 1 ≤ face ∧ face ≤ sides then pure face else throw (.outOfRange face 1 sides)

/-- Draws the faces of `n` dice with `sides` faces, one after the other. -/
def drawFaces [Source σ] (sides : Int64) : (n : Nat) → Rolling σ (List Int64)
  | 0 => pure []
  | n + 1 => do
    let face ← draw sides
    let faces ← drawFaces sides n
    pure (face :: faces)

end Rolling

end Tabletop
