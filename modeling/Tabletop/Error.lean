import Tabletop.Text.Lexeme
import Tabletop.Text.Quoted

/-!
# Errors of reading

Why a text is not read, and where. The position is a byte offset, and `found` is the text that
stands there (empty at the end of the input).
-/

namespace Tabletop

namespace LexError

/-- The error in a sentence. -/
def message (e : LexError) : String :=
  "unexpected character " ++ Text.quotedChar e.char ++ " at position " ++ toString e.position

end LexError

/-- What is wrong with a sequence of tokens. -/
inductive ParseError.Cause where
  | unexpectedToken (expected : List String)
  | unexpectedEnd (expected : List String)
  | trailingInput
  /-- A modifier behind something other than dice. -/
  | modifierWithoutDice
  | integerOutOfRange
  | emptyInput
deriving DecidableEq, Repr, Inhabited

/-- What is wrong, where, and what stands there. -/
structure ParseError where
  cause : ParseError.Cause
  position : Nat
  found : String
deriving DecidableEq, Repr, Inhabited

namespace ParseError

/-- Alternatives in a sentence: `a`, `a or b`, `a, b, or c`. -/
def alternatives : List String → String
  | [] => ""
  | [a] => a
  | [a, b] => a ++ " or " ++ b
  | as => ", ".intercalate as.dropLast ++ ", or " ++ as.getLastD ""

namespace Cause

/-- What would have been read in place of what was found. -/
def expected : Cause → List String
  | unexpectedToken labels | unexpectedEnd labels => labels
  | _ => []

/-- The cause in a sentence. -/
def message : Cause → String
  | unexpectedToken labels => "unexpected token; expected " ++ alternatives labels
  | unexpectedEnd labels => "unexpected end of input; expected " ++ alternatives labels
  | trailingInput => "unexpected input after the expression"
  | modifierWithoutDice => "modifiers can only follow dice"
  | integerOutOfRange => "integer is too large"
  | emptyInput => "nothing to roll"

end Cause

/-- The error in a sentence. -/
def message (e : ParseError) : String :=
  "error at position " ++ toString e.position ++ " (" ++ Text.quoted e.found ++ "): " ++
    e.cause.message

end ParseError

/-- Why a text is not read: it does not split into tokens, or they make no sense. -/
inductive ReadError where
  | lex (e : LexError)
  | parse (e : ParseError)
deriving DecidableEq, Repr, Inhabited

/-- The error in a sentence. -/
def ReadError.message : ReadError → String
  | lex e => e.message
  | parse e => e.message

/-! ## Reading one token after the other -/

/-- Feeds the lexemes to a reader, `step` by `step`, and `finish`es it behind the last one. What
goes wrong in a step is reported at its lexeme, what is missing at the end just behind the last. -/
def readAll {κ ρ α : Type} (step : ρ → κ → String → Except ParseError.Cause ρ)
    (finish : ρ → Except ParseError.Cause α) (start : ρ) (lexemes : List (Lexeme κ)) :
    Except ParseError α :=
  match lexemes.getLast? with
  | none => .error ⟨.emptyInput, 0, ""⟩
  | some last => do
    let reader ← lexemes.foldlM
      (fun r l => (step r l.kind l.text).mapError (⟨·, l.position, l.text⟩)) start
    (finish reader).mapError (⟨·, last.stop, ""⟩)

end Tabletop
