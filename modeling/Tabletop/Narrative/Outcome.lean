import Tabletop.Narrative.Tally
import Tabletop.Narrative.Term

/-!
# Outcomes of narrative rolls

What a list of terms has come to: the dice thrown, in order, the tally, and the outcome of each
named group. The dice and the tally include those of the groups. The groups are sorted by name, and
of several groups of one name the one that was closed last stands.
-/

namespace Tabletop.Narrative

/-- A die and the face it shows. -/
structure Throw where
  die : SymbolDie
  face : Face
deriving DecidableEq, Repr, Inhabited

/-- What terms have come to. -/
structure Outcome where
  /-- The terms as they are written. -/
  text : String
  throws : Array Throw
  tally : Tally
  groups : List (String × Outcome)
deriving Repr, Inhabited

/-- Puts a value under a key into a list that is sorted by key. -/
def insertKey {α : Type} (key : String) (a : α) : List (String × α) → List (String × α)
  | [] => [(key, a)]
  | (k, b) :: rest =>
    if key < k then (key, a) :: (k, b) :: rest
    else if key = k then (key, a) :: rest
    else (k, b) :: insertKey key a rest

namespace Outcome

/-- The outcome of terms before any of them is rolled. -/
def start (terms : List Term) : Outcome :=
  ⟨termsText terms, #[], .zero, []⟩

/-- Adds the outcome of a group: its dice, its tally and its groups, and then itself by its name. -/
def addGroup? (o : Outcome) (name : String) (inner : Outcome) : Option Outcome := do
  let tally ← o.tally.add? inner.tally
  let groups := inner.groups.foldl (fun groups (k, g) => insertKey k g groups) o.groups
  return { o with
    throws := o.throws ++ inner.throws
    tally
    groups := insertKey name inner groups }

/-- The faces that the dice of one kind show, in order. -/
def facesOf (o : Outcome) (d : SymbolDie) : List Face :=
  (o.throws.toList.filter (·.die == d)).map Throw.face

/-- How often each face that came up is shown. -/
def faceCounts (o : Outcome) : List (Face × Nat) :=
  (Face.all.map fun f => (f, o.throws.countP (·.face == f))).filter (0 < ·.2)

end Outcome

end Tabletop.Narrative
