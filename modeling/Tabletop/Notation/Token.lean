import Tabletop.Expr
import Tabletop.Text.Lexeme

/-!
# Tokens of dice notation

The kinds of token and how they are spelled. A fixed spelling has one or two characters; integers
and references have as many as the text offers. A `d` is always a dice marker here: which of them
drop the lowest die is decided by `Notation.Marker`.
-/

namespace Tabletop.Notation

/-- What a token is. -/
inductive Kind where
  | int
  /-- The `d` that makes a count and sides a dice term. -/
  | dice
  | percent
  | operator (op : BinaryOp)
  | leftParen
  | rightParen
  | select (s : Selection)
  | redraw (r : Redraw)
  | compare (r : Relation)
  | reference
  /-- No token of the notation. -/
  | unknown
deriving DecidableEq, Repr, Inhabited

namespace Kind

/-- How messages name the kind. -/
def label : Kind → String
  | int => "<integer>"
  | dice => "'d'"
  | percent => "'%'"
  | operator op => "'" ++ op.symbol ++ "'"
  | leftParen => "'('"
  | rightParen => "')'"
  | select s => "'" ++ s.symbol ++ "'"
  | redraw r => "'" ++ r.symbol ++ "'"
  | compare r => "'" ++ r.symbol ++ "'"
  | reference => "<reference>"
  | unknown => "<error>"

instance : ToString Kind := ⟨label⟩

/-- A token of the kind starts a modifier. -/
def isModifier : Kind → Bool
  | select _ | redraw _ | compare _ => true
  | _ => false

/-- A token of the kind may follow a dice marker, as the sides or the start of them. -/
def startsSides : Kind → Bool
  | int | percent | leftParen | reference => true
  | _ => false

end Kind

/-- A token with its text and position. -/
abbrev Token := Lexeme Kind

/-- White space between tokens. -/
def isSpace (c : Char) : Bool :=
  c == ' ' || c == '\t' || c == '\r' || c == '\n'

/-- The fixed spellings. Those of two characters come first, so that the first one that a text
starts with is the longest. -/
def spellings : List (List Char × Kind) := [
  (['k', 'h'], .select .keepHighest), (['k', 'l'], .select .keepLowest),
  (['d', 'h'], .select .dropHighest), (['d', 'l'], .select .dropLowest),
  (['r', 'o'], .redraw .rerollOnce), (['!', '!'], .redraw .compound),
  (['<', '='], .compare .le), (['>', '='], .compare .ge),
  (['d'], .dice), (['D'], .dice), (['%'], .percent),
  (['+'], .operator .add), (['-'], .operator .sub),
  (['*'], .operator .mul), (['/'], .operator .div),
  (['('], .leftParen), ([')'], .rightParen),
  (['k'], .select .keepHighest), (['r'], .redraw .reroll), (['!'], .redraw .explode),
  (['<'], .compare .lt), (['>'], .compare .gt), (['='], .compare .eq)]

/-- The longest token at the start of a text. -/
def longest? (cs : List Char) : Option (Kind × Nat) :=
  match spellings.find? fun (word, _) => word.isPrefixOf cs with
  | some (word, kind) => some (kind, word.length)
  | none =>
    match Lexicon.reference? cs with
    | some n => some (.reference, n)
    | none =>
      let n := Lexicon.run Char.isDigit cs
      if n = 0 then none else some (.int, n)

/-- The lexemes of dice notation. -/
def lexicon : Lexicon Kind := ⟨isSpace, longest?⟩

end Tabletop.Notation
