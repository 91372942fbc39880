import Tabletop.Dice.Session
import Tabletop.Dice.Style
import Tabletop.Narrative.Roll

/-!
# The console

The interactive program as a function on text. Each line is trimmed and answered unless it is
empty; a line that starts with `genesys ` is a narrative roll, any other an expression. Answers and
the prompt go to one output, complaints to another.
-/

namespace Tabletop.Console

variable {σ : Type} [Source σ]

/-- The answer to a narrative roll: the net result, the symbols that stand beside it, and a line for
each group. -/
def narrative (o : Narrative.Outcome) : String :=
  let t := o.tally
  o.text ++ ": " ++ net t ++
    (if 0 < t.triumph then ", triumph " ++ toString t.triumph else "") ++
    (if 0 < t.despair then ", despair " ++ toString t.despair else "") ++
    (if 0 < t.light ∨ 0 < t.dark then
      ", light " ++ toString t.light ++ " / dark " ++ toString t.dark else "") ++
    String.join (o.groups.map fun (name, g) => "\n  " ++ name ++ ": " ++ net g.tally)
where
  net (t : Narrative.Tally) : String :=
    "net success `" ++ toString t.netSuccess ++ "`, net advantage `" ++
      toString t.netAdvantage ++ "`"

/-- What starts a line that is a narrative roll. -/
def narrativeMark : List Char :=
  ['g', 'e', 'n', 'e', 's', 'y', 's', ' ']

/-- Answers a line. -/
def answer (config : Config) (line : String) (t : Tray σ) : Except RollError String × Tray σ :=
  if narrativeMark.isPrefixOf line.toList then
    let rest := String.ofList (line.toList.drop narrativeMark.length)
    let (outcome, t) := Narrative.rollText config .empty rest t
    (outcome.map narrative, t)
  else
    match Expr.ofText line with
    | .error e => (.error (.read e), t)
    | .ok e =>
      let (result, t) := t.roll (e.roll config .empty)
      ((result.mapError .eval).map (Style.markdown.render e), t)

/-- What has been written on the two outputs, and how the program ends. -/
structure Transcript where
  out : String
  err : String
  exitCode : Nat
deriving DecidableEq, Repr, Inhabited

/-- What invites a line. -/
def prompt : String := "> "

/-- What a line brings to the two outputs, the next prompt left out. -/
def reply (config : Config) (line : String) (t : Tray σ) : (String × String) × Tray σ :=
  let line := Text.trim line
  if line.isEmpty then
    (("", ""), t)
  else
    match answer config line t with
    | (.ok text, t) => ((text ++ "\n", ""), t)
    | (.error e, t) => (("", "Error: " ++ e.message ++ "\n"), t)

/-- The lines of a text. A line break at the end of the text starts no further line. -/
def lines (text : String) : List String :=
  let parts := text.splitOn "\n"
  if parts.getLast? = some "" then parts.dropLast else parts

/-- The complaint about a configuration that cannot be read. -/
def configComplaint (e : ConfigError) : String :=
  "Error: " ++ e.detail ++ "\n"

/-- A whole session: the settings, the text that is entered, and a source to roll with. -/
def run (settings : String → Option String) (input : String) (source : σ) : Transcript :=
  match Config.ofSettings settings with
  | .error e => ⟨"", configComplaint e, 1⟩
  | .ok config =>
    let step := fun ((out, err, t) : String × String × Tray σ) (line : String) =>
      let ((o, e), t) := reply config line t
      (out ++ o ++ prompt, err ++ e, t)
    let (out, err, _) := (lines input).foldl step (prompt, "", Tray.ofSource source)
    ⟨out, err, 0⟩

end Tabletop.Console
