import Tabletop.Narrative.Term
import Tabletop.Narrative.Token
import Tabletop.Numeral

/-!
# Reading narrative rolls

Terms are read one token at a time. A `Reader` holds the terms of this level so far, and for every
open group its name and the terms before it. A count may stand before a die or a symbol; without
one it is one.
-/

namespace Tabletop.Narrative

open ParseError (Cause)

/-- What the next token may be. -/
inductive Focus where
  /-- The start of a term, or the end of a group. -/
  | term
  /-- A die or a symbol, behind its count. -/
  | item (count : Count)
  /-- The name of a group, behind its parenthesis. -/
  | name
deriving DecidableEq, Repr, Inhabited

/-- What is open behind the tokens read so far. -/
structure Reader where
  /-- For each open group, innermost first, its name and the terms before it, last one first. -/
  outer : List (String × List Term)
  /-- The terms read on this level, last one first. -/
  terms : List Term
  focus : Focus
deriving Repr, Inhabited

namespace Reader

/-- The reader before the first token. -/
def start : Reader := ⟨[], [], .term⟩

/-- The reader behind one more term. -/
def push (r : Reader) (t : Term) : Reader :=
  { r with terms := t :: r.terms, focus := .term }

/-- The kinds named where a die or a symbol is missing. -/
def itemLabels : List String :=
  [(Kind.die .boost).label, (Kind.symbol .blank).label]

/-- Reads a die or a symbol. -/
def stepItem (r : Reader) (count : Count) : Kind → Except Cause Reader
  | .die d => .ok (r.push (.dice count d))
  | .symbol f => .ok (r.push (.symbols count f))
  | _ => .error (.unexpectedToken itemLabels)

/-- Reads one token. -/
def step (r : Reader) (kind : Kind) (text : String) : Except Cause Reader :=
  match r.focus, kind with
  | .name, .groupName => .ok ⟨(text, r.terms) :: r.outer, [], .term⟩
  | .name, _ => .error (.unexpectedToken [Kind.groupName.label])
  | .item count, kind => r.stepItem count kind
  | .term, .int =>
    match Numeral.int64? text with
    | some n => .ok { r with focus := .item (.literal n) }
    | none => .error .integerOutOfRange
  | .term, .reference => .ok { r with focus := .item (.reference (.ofText text)) }
  | .term, .leftParen => .ok { r with focus := .name }
  | .term, .rightParen =>
    match r.outer with
    | [] => .error .trailingInput
    | (name, before) :: outer =>
      .ok ⟨outer, .group name r.terms.reverse :: before, .term⟩
  | .term, kind => r.stepItem (.literal 1) kind

/-- The terms, if all groups are closed. -/
def finish (r : Reader) : Except Cause (List Term) :=
  match r.focus, r.outer with
  | .name, _ => .error (.unexpectedEnd [Kind.groupName.label])
  | .item _, _ => .error (.unexpectedEnd itemLabels)
  | .term, [] => .ok r.terms.reverse
  | .term, _ :: _ => .error (.unexpectedEnd [Kind.rightParen.label])

end Reader

/-- The terms that a sequence of tokens stands for. -/
def parseTokens : List Token → Except ParseError (List Term) :=
  readAll Reader.step Reader.finish .start

/-- The terms that a text stands for. -/
def parse (text : String) : Except ReadError (List Term) := do
  let tokens ← (tokenize text).mapError .lex
  (parseTokens tokens).mapError .parse

end Tabletop.Narrative
