/-!
# Narrative dice

Dice that show symbols instead of numbers. A face shows up to two symbols; a triumph counts as a
success too, and a despair as a failure. Dice and symbols are written by one letter each, and no
letter stands for both a die and a symbol.
-/

namespace Tabletop.Narrative

/-- What a face may show. -/
inductive Symbol where
  | success
  | failure
  | advantage
  | threat
  | triumph
  | despair
  | light
  | dark
deriving DecidableEq, Repr, Inhabited

namespace Symbol

/-- The letter that the symbol is written by. -/
def letter : Symbol → Char
  | success => 's'
  | failure => 'f'
  | advantage => 'a'
  | threat => 'h'
  | triumph => 't'
  | despair => 'd'
  | light => 'Z'
  | dark => 'z'

/-- Showing the one symbol adds to the counter of the other. -/
def countsAs : Symbol → Symbol → Bool
  | triumph, success | despair, failure => true
  | s, t => s == t

end Symbol

/-- A face, by the symbols that it shows. -/
inductive Face where
  | blank
  | success
  | failure
  | advantage
  | threat
  | triumph
  | despair
  | light
  | dark
  | successSuccess
  | successAdvantage
  | advantageAdvantage
  | failureFailure
  | failureThreat
  | threatThreat
  | lightLight
  | darkDark
deriving DecidableEq, Repr, Inhabited

namespace Face

/-- All faces, those with one symbol before those with two. -/
def all : List Face := [
  blank, success, failure, advantage, threat, triumph, despair, light, dark, successSuccess,
  successAdvantage, advantageAdvantage, failureFailure, failureThreat, threatThreat, lightLight,
  darkDark]

/-- The symbols that the face shows. -/
def symbols : Face → List Symbol
  | blank => []
  | success => [.success]
  | failure => [.failure]
  | advantage => [.advantage]
  | threat => [.threat]
  | triumph => [.triumph]
  | despair => [.despair]
  | light => [.light]
  | dark => [.dark]
  | successSuccess => [.success, .success]
  | successAdvantage => [.success, .advantage]
  | advantageAdvantage => [.advantage, .advantage]
  | failureFailure => [.failure, .failure]
  | failureThreat => [.failure, .threat]
  | threatThreat => [.threat, .threat]
  | lightLight => [.light, .light]
  | darkDark => [.dark, .dark]

/-- The letters of the symbols. -/
def letters (f : Face) : String :=
  String.ofList (f.symbols.map Symbol.letter)

/-- The letters of the symbols, and a dash for a blank face. -/
def text (f : Face) : String :=
  if f = blank then "-" else f.letters

/-- The face with the one symbol that the letter stands for. -/
def ofLetter? : Char → Option Face
  | 's' => some success
  | 'f' => some failure
  | 'a' => some advantage
  | 'h' => some threat
  | 't' => some triumph
  | 'd' => some despair
  | 'Z' => some light
  | 'z' => some dark
  | _ => none

end Face

/-- The kinds of dice. -/
inductive SymbolDie where
  | boost
  | setback
  | ability
  | difficulty
  | proficiency
  | challenge
  | force
deriving DecidableEq, Repr, Inhabited

namespace SymbolDie

/-- All kinds of dice. -/
def all : List SymbolDie :=
  [boost, setback, ability, difficulty, proficiency, challenge, force]

/-- The letter that the die is written by. -/
def letter : SymbolDie → Char
  | boost => 'b'
  | setback => 'k'
  | ability => 'g'
  | difficulty => 'p'
  | proficiency => 'y'
  | challenge => 'r'
  | force => 'w'

/-- The die that the letter stands for. -/
def ofLetter? : Char → Option SymbolDie
  | 'b' => some boost
  | 'k' => some setback
  | 'g' => some ability
  | 'p' => some difficulty
  | 'y' => some proficiency
  | 'r' => some challenge
  | 'w' => some force
  | _ => none

/-- The name of the die. -/
def name : SymbolDie → String
  | boost => "boost"
  | setback => "setback"
  | ability => "ability"
  | difficulty => "difficulty"
  | proficiency => "proficiency"
  | challenge => "challenge"
  | force => "force"

/-- The faces, in the order in which the numbers from one on select them. -/
def faces : SymbolDie → List Face
  | boost =>
    [.blank, .blank, .success, .successAdvantage, .advantageAdvantage, .advantage]
  | setback => [.blank, .blank, .failure, .failure, .threat, .threat]
  | ability =>
    [.blank, .success, .success, .successSuccess, .advantage, .advantage, .successAdvantage,
      .advantageAdvantage]
  | difficulty =>
    [.blank, .failure, .failureFailure, .threat, .threat, .threat, .threatThreat, .failureThreat]
  | proficiency =>
    [.blank, .success, .success, .successSuccess, .successSuccess, .advantage, .successAdvantage,
      .successAdvantage, .successAdvantage, .advantageAdvantage, .advantageAdvantage, .triumph]
  | challenge =>
    [.blank, .failure, .failure, .failureFailure, .failureFailure, .threat, .threat,
      .failureThreat, .failureThreat, .threatThreat, .threatThreat, .despair]
  | force =>
    [.dark, .dark, .dark, .dark, .dark, .dark, .darkDark, .light, .light, .lightLight,
      .lightLight, .lightLight]

/-- How many faces the die has. -/
def sides (d : SymbolDie) : Int64 :=
  Int64.ofNat d.faces.length

/-- The face that a number selects. -/
def face? (d : SymbolDie) (n : Int) : Option Face :=
  if 1 ≤ n then d.faces[(n - 1).toNat]? else none

end SymbolDie

end Tabletop.Narrative
