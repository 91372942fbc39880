import Tabletop.Dice.Tray
import Tabletop.Modifier

/-!
# Pools

The dice of one dice term, in the order they were drawn. A die keeps its place for good: modifiers
change its status, mark it as exploded or add faces onto it, and put new dice behind the others.

* `Pool.select` drops dice by rank. Of two kept dice the one with the higher (or lower) face ranks
  first, and of two equal faces the one drawn earlier.
* `Pool.value?` adds up the kept faces, or counts those that meet the success condition.
-/

namespace Tabletop

/-- Whether a die still counts, and if not, why. -/
inductive Status where
  /-- Counts for the value of the term. -/
  | kept
  /-- Taken out by a keep or a drop. -/
  | dropped
  /-- Replaced by a later die. -/
  | rerolled
  /-- Added onto an earlier die. -/
  | exploded
deriving DecidableEq, Repr, Inhabited

/-- A die on the tray, with the face it shows. -/
structure Die where
  face : Int64
  sides : Int64
  status : Status
  /-- The die has led to further draws by an explosion. -/
  exploded : Bool
deriving DecidableEq, Repr, Inhabited

namespace Die

/-- A die as drawn. -/
def drawn (sides : Int64) (status : Status) (face : Int64) : Die :=
  ⟨face, sides, status, false⟩

def isKept (d : Die) : Bool :=
  d.status == .kept

/-- The die is kept and its face meets the condition. -/
def meets (c : Comparison) (d : Die) : Bool :=
  d.isKept && c.accepts d.face

/-- The die taken out. -/
def drop (d : Die) : Die := { d with status := .dropped }

end Die

/-- The dice of one dice term, all with the same sides. -/
structure Pool where
  sides : Int64
  dice : List Die
  /-- The condition of the last success count. -/
  success : Option Comparison
deriving DecidableEq, Repr, Inhabited

namespace Pool

/-- The pool of the faces as drawn. -/
def ofFaces (sides : Int64) (faces : List Int64) : Pool :=
  ⟨sides, faces.map (Die.drawn sides .kept), none⟩

/-! ## Keeping and dropping -/

/-- The places of the kept dice, in the order of rank. -/
def ranked (highest : Bool) (dice : List Die) : List Nat :=
  let kept := dice.zipIdx.filter (·.1.isKept)
  (kept.mergeSort fun a b =>
    if highest then b.1.face ≤ a.1.face else a.1.face ≤ b.1.face).map (·.2)

/-- The places of the dice that a selection drops. -/
def unselected (n : Nat) (dice : List Die) : Selection → List Nat
  | .keepHighest => (ranked true dice).drop n
  | .keepLowest => (ranked false dice).drop n
  | .dropHighest => (ranked true dice).take n
  | .dropLowest => (ranked false dice).take n

/-- Drops the dice at the given places. -/
def dropAt (places : List Nat) (dice : List Die) : List Die :=
  (places.foldl (fun dice i => dice.modify i Die.drop) dice.toArray).toList

/-- Just the dice at the places are taken out, and all dice stay where they are. -/
theorem getElem?_dropAt (places : List Nat) (dice : List Die) (i : Nat) :
    (dropAt places dice)[i]? = dice[i]?.map fun d => if i ∈ places then d.drop else d := by
  unfold dropAt
  suffices h : ∀ a : Array Die, (places.foldl (fun dice i => dice.modify i Die.drop) a)[i]? =
      a[i]?.map fun d => if i ∈ places then d.drop else d by
    simpa using h dice.toArray
  induction places with
  | nil => intro a; simp
  | cons p ps ih =>
    intro a
    rw [List.foldl_cons, ih, Array.getElem?_modify]
    by_cases hp : p = i
    · subst hp
      cases a[p]? <;> simp [Die.drop]
    · simp [hp, Ne.symm hp]

/-- Keeps or drops the `n` highest or lowest of the kept dice. -/
def select (s : Selection) (n : Nat) (p : Pool) : Pool :=
  { p with dice := dropAt (unselected n p.dice s) p.dice }

/-! ## The value -/

/-- The sum of the faces, if it and the sums on the way are in range. -/
def sum? (faces : List Int64) : Option Int64 :=
  faces.foldlM (fun total face => checked (total.toInt + face.toInt)) 0

/-- The value of the term. -/
def value? (p : Pool) : Option Int64 :=
  match p.success with
  | some c => some (Int64.ofNat (p.dice.countP (Die.meets c)))
  | none => sum? ((p.dice.filter Die.isKept).map Die.face)

end Pool

end Tabletop
