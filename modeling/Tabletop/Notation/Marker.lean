import Tabletop.Notation.Token

/-!
# Dice markers

What a `d` means depends on what is before it: behind a complete dice term it drops the lowest die,
anywhere else it makes a dice term and has to be followed by sides. A `Tracker` follows the tokens
from left to right and knows which of the two it is; `tokenize` splits a text and decides every `d`.
-/

namespace Tabletop.Notation

/-- Where the tokens read so far have led to. -/
inductive Place where
  /-- Outside of any dice term, or in its count. -/
  | outside
  /-- Right behind a dice marker. -/
  | marker
  /-- Behind the sides of a dice term, or in its modifiers. -/
  | complete
deriving DecidableEq, Repr, Inhabited

/-- The place on the innermost level of parentheses, and for each open parenthesis, innermost
first, whether it encloses the sides of a dice term. -/
structure Tracker where
  place : Place
  groups : List Bool
deriving DecidableEq, Repr, Inhabited

namespace Tracker

/-- The tracker at the start of a text. -/
def start : Tracker := ⟨.outside, []⟩

/-- What a token of kind `kind` is here. -/
def read (t : Tracker) (kind : Kind) : Kind :=
  if kind = .dice ∧ t.place = .complete then .select .dropLowest else kind

/-- The tracker behind a token that is of kind `kind` here. -/
def step (t : Tracker) (kind : Kind) : Tracker :=
  match kind with
  | .dice => { t with place := .marker }
  | .int => if t.place = .marker then { t with place := .complete } else t
  | .percent | .reference =>
    { t with place := if t.place = .marker then .complete else .outside }
  | .leftParen => ⟨.outside, (t.place = .marker) :: t.groups⟩
  | .rightParen =>
    ⟨if t.groups.head? = some true then .complete else .outside, t.groups.tail⟩
  | .select _ | .redraw _ | .compare _ => t
  | .operator _ | .unknown => { t with place := .outside }

end Tracker

/-- Decides every `d` of a scanned text. A dice marker without sides is an error. -/
def settle (t : Tracker) (fault : Option LexError) : List Token → Except LexError (List Token)
  | [] =>
    match fault with
    | none => .ok []
    | some e => .error e
  | token :: rest =>
    let kind := t.read token.kind
    if kind = .dice ∧ !(rest.head?.any (·.kind.startsSides)) then
      .error ⟨token.position, token.text.toList.headD 'd'⟩
    else
      (settle (t.step kind) fault rest).map ({ token with kind := kind } :: ·)

/-- The tokens of a text. -/
def tokenize (text : String) : Except LexError (List Token) :=
  let scan := lexicon.scan 0 text.toList
  settle .start scan.fault scan.lexemes

end Tabletop.Notation
