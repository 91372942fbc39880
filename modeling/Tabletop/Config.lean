import Tabletop.Number
import Tabletop.Numeral
import Tabletop.Text.Blank
import Tabletop.Text.Quoted

/-!
# Configuration

The limits that an evaluation keeps and how it divides. They may be set from named settings, such
as the environment of a process; the first setting that cannot be read is reported.
-/

namespace Tabletop

/-- The limits and the policy of an evaluation. -/
structure Config where
  /-- The most dice that one dice term may ask for. -/
  maxDice : Nat
  /-- The most draws that one chain of rerolls or explosions may make. -/
  maxChain : Nat
  division : Division
deriving DecidableEq, Repr

/-- A setting whose value cannot be read. -/
structure ConfigError where
  key : String
  value : String
deriving DecidableEq, Repr, Inhabited

/-- What is said of the setting. -/
def ConfigError.message (e : ConfigError) : String :=
  "invalid value " ++ Text.quoted e.value ++ " for " ++ e.key

/-- The error with its fields by name. -/
def ConfigError.detail (e : ConfigError) : String :=
  "InvalidValue \x7b key: " ++ Text.quoted e.key ++ ", value: " ++ Text.quoted e.value ++ " \x7d"

/-- Reads the name of a policy, in letters of either case and with blanks around it. -/
def Division.ofText (text : String) : Except ConfigError Division :=
  let name := String.ofList ((Text.trimChars text.toList).map Char.toLower)
  if name == "truncate" then .ok .truncate
  else if name == "decimal" then .ok .decimal
  else .error ⟨"division", text⟩

namespace Config

/-- A thousand dice, chains of a hundred draws, and quotients without their fraction. -/
instance : Inhabited Config := ⟨⟨1000, 100, .truncate⟩⟩

/-- The limit that `text` gives to the setting `key`. -/
def limit (key text : String) : Except ConfigError Nat :=
  match Numeral.uint64? (Text.trim text) with
  | some n => .ok n.toNat
  | none => .error ⟨key, text⟩

/-- What the setting `key` says, read by `parse`; `otherwise` where it is not given. -/
def setting {α : Type} (lookup : String → Option String) (key : String)
    (parse : String → Except ConfigError α) (otherwise : α) : Except ConfigError α :=
  match lookup key with
  | some text => parse text
  | none => .ok otherwise

/-- The configuration with the settings that `lookup` knows; the others are as by default. -/
def ofSettings (lookup : String → Option String) : Except ConfigError Config := do
  let base : Config := default
  let maxDice ← setting lookup "DICE_MAX_DICE" (limit "DICE_MAX_DICE") base.maxDice
  let maxChain ← setting lookup "DICE_MAX_CHAIN" (limit "DICE_MAX_CHAIN") base.maxChain
  let division ← setting lookup "DICE_DIVISION" Division.ofText base.division
  return ⟨maxDice, maxChain, division⟩

end Config

end Tabletop
