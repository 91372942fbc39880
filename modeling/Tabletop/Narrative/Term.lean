import Tabletop.Narrative.Face
import Tabletop.Reference

/-!
# Terms of narrative notation

A narrative roll is a list of terms: dice, symbols that are simply added, and named groups of terms.
Terms are written with a space between them, and a group as `(name: terms)`.
-/

namespace Tabletop.Narrative

/-- How many dice or symbols. -/
inductive Count where
  | literal (n : Int64)
  | reference (r : Reference)
deriving DecidableEq, Repr, Inhabited

instance : ToString Count where
  toString
    | .literal n => toString n
    | .reference r => toString r

/-- Dice to be thrown, symbols to be added, or a group of terms. -/
inductive Term where
  | dice (count : Count) (die : SymbolDie)
  | symbols (count : Count) (face : Face)
  | group (name : String) (terms : List Term)
deriving Repr, Inhabited

mutual

/-- The text of a term. -/
def Term.text : Term → String
  | .dice count die => toString count ++ die.letter.toString
  | .symbols count face => toString count ++ face.letters
  | .group name terms => "(" ++ name ++ ": " ++ termsText terms ++ ")"

/-- The text of a list of terms. -/
def termsText (terms : List Term) : String :=
  " ".intercalate (termTexts terms)

/-- The texts of terms. -/
def termTexts : List Term → List String
  | [] => []
  | t :: terms => t.text :: termTexts terms

end

instance : ToString Term := ⟨Term.text⟩

end Tabletop.Narrative
