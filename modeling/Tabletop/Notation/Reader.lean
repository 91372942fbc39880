import Tabletop.Error
import Tabletop.Notation.Marker
import Tabletop.Numeral

/-!
# Reading expressions

An expression is read one token at a time by a pushdown automaton. `+` and `-` bind least, then `*`
and `/`, then signs, then dice terms with their modifiers; operators of one rank group to the left.

A `Reader` holds what is open: the enclosing levels of parentheses (`outer`), the operators that
wait for their right operand on this level (`pending`), and the operand being read (`focus`).
`Reader.step` takes one token, `Reader.finish` closes the expression. Both fail with a cause
alone: it is always the token at hand, or the end of the input, that is wrong, so positions play no
part in what is accepted.
-/

namespace Tabletop.Notation

open ParseError (Cause)

/-- The operators of one level that wait for an operand: `+` or `-` with its left operand, then
`*` or `/` with its left operand, then signs, the innermost first. -/
structure Pending where
  sum : Option (Expr × BinaryOp)
  product : Option (Expr × BinaryOp)
  signs : List UnaryOp
deriving DecidableEq, Repr, Inhabited

namespace Pending

/-- Nothing waits. -/
def empty : Pending := ⟨none, none, []⟩

/-- The left operand and its operator, if there is one, applied to `e`. -/
def attach : Option (Expr × BinaryOp) → Expr → Expr
  | none, e => e
  | some (left, op), e => .binary op left e

/-- `e` under the waiting signs. -/
def signed (p : Pending) (e : Expr) : Expr :=
  p.signs.foldl (fun e op => .unary op e) e

/-- The product that ends with the operand `e`. -/
def term (p : Pending) (e : Expr) : Expr :=
  attach p.product (p.signed e)

/-- The sum that ends with the operand `e`. -/
def total (p : Pending) (e : Expr) : Expr :=
  attach p.sum (p.term e)

/-- What waits when `op` follows the operand `e`. -/
def extend (p : Pending) (e : Expr) (op : BinaryOp) : Pending :=
  if op.isSum then ⟨some (p.total e, op), none, []⟩
  else { p with product := some (p.term e, op), signs := [] }

end Pending

/-- A dice term: its count, its sides and the modifiers read so far, last one first. -/
structure DiceTerm where
  count : Expr
  sides : Expr
  modifiers : List Modifier
deriving DecidableEq, Repr, Inhabited

namespace DiceTerm

/-- The expression of the term as it is. -/
def expr (d : DiceTerm) : Expr := .dice d.count d.sides d.modifiers.reverse

/-- The term with one more modifier. -/
def push (d : DiceTerm) (m : Modifier) : DiceTerm := { d with modifiers := m :: d.modifiers }

end DiceTerm

/-- A place for a literal, a reference or a parenthesis: an operand of its own, or the sides of dice
whose count is known. -/
inductive Slot where
  | operand
  | sides (count : Expr)
deriving DecidableEq, Repr, Inhabited

/-- The operand being read. -/
inductive Focus where
  | slot (s : Slot)
  /-- A complete operand, which a dice marker makes the count of dice. -/
  | atom (e : Expr)
  | dice (d : DiceTerm)
  /-- Behind a keep or drop, which may be followed by a count. -/
  | select (d : DiceTerm) (s : Selection)
  /-- Behind a redraw, which may be followed by a condition. -/
  | redraw (d : DiceTerm) (r : Redraw)
  /-- Behind a comparison, which needs a threshold: the condition of a redraw, or a success
  count. -/
  | threshold (d : DiceTerm) (r : Option Redraw) (relation : Relation)
deriving DecidableEq, Repr, Inhabited

/-- What an atom in the slot amounts to. -/
def Slot.fill : Slot → Expr → Focus
  | operand, e => .atom e
  | sides count, e => .dice ⟨count, e, []⟩

namespace Focus

/-- The operand read so far, if it may end here. -/
def operand? : Focus → Option Expr
  | slot _ | threshold .. => none
  | atom e => some e
  | dice d => some d.expr
  | select d s => some (d.push (.select s 1)).expr
  | redraw d r => some (d.push (.redraw r none)).expr

end Focus

/-- What is open behind the tokens read so far. -/
structure Reader where
  /-- What waits outside of each open parenthesis, innermost first, and the slot that it fills. -/
  outer : List (Pending × Slot)
  pending : Pending
  focus : Focus
deriving DecidableEq, Repr, Inhabited

namespace Reader

/-- The reader before the first token. -/
def start : Reader := ⟨[], .empty, .slot .operand⟩

/-- The kinds named where a slot is not filled. -/
def atomLabels : List String :=
  [Kind.int, .dice, .leftParen, .reference].map Kind.label

/-- The number that `read?` makes of a numeral. -/
def numeral {α : Type} (read? : String → Option α) (text : String) : Except Cause α :=
  match read? text with
  | some n => .ok n
  | none => .error .integerOutOfRange

/-- Fills a slot with a literal or a reference, or opens a parenthesis for it. -/
def stepAtom (r : Reader) (s : Slot) (kind : Kind) (text : String) : Except Cause Reader :=
  match kind with
  | .int => do
    let n ← numeral Numeral.int64? text
    .ok { r with focus := s.fill (.literal n) }
  | .reference => .ok { r with focus := s.fill (.reference (.ofText text)) }
  | .leftParen => .ok ⟨(r.pending, s) :: r.outer, .empty, .slot .operand⟩
  | _ => .error (.unexpectedToken atomLabels)

/-- Goes on in a slot: an operand may start with signs or with a dice marker, whose count is then
one, and sides may be a percent sign, which stands for a hundred. -/
def stepSlot (r : Reader) (s : Slot) (kind : Kind) (text : String) : Except Cause Reader :=
  match s, kind with
  | .operand, .operator op =>
    match op.sign? with
    | some sign =>
      .ok { r with pending := { r.pending with signs := sign :: r.pending.signs } }
    | none => .error (.unexpectedToken atomLabels)
  | .operand, .dice => .ok { r with focus := .slot (.sides (.literal 1)) }
  | .sides count, .percent => .ok { r with focus := .dice ⟨count, .literal 100, []⟩ }
  | s, kind => r.stepAtom s kind text

/-- Goes on behind the operand `e`. -/
def stepOperand (r : Reader) (e : Expr) (kind : Kind) : Except Cause Reader :=
  match kind, r.outer with
  | .operator op, _ => .ok { r with pending := r.pending.extend e op, focus := .slot .operand }
  | .rightParen, (pending, s) :: outer =>
    .ok ⟨outer, pending, s.fill (.group (r.pending.total e))⟩
  | _, [] => .error .trailingInput
  | _, _ :: _ => .error (.unexpectedToken [Kind.rightParen.label])

/-- Goes on behind an operand that may be the count of dice. -/
def stepCount (r : Reader) (e : Expr) (kind : Kind) : Except Cause Reader :=
  if kind = .dice then .ok { r with focus := .slot (.sides e) }
  else if kind.isModifier then .error .modifierWithoutDice
  else r.stepOperand e kind

/-- Goes on behind a dice term. -/
def stepDice (r : Reader) (d : DiceTerm) (kind : Kind) : Except Cause Reader :=
  match kind with
  | .select s => .ok { r with focus := .select d s }
  | .redraw m => .ok { r with focus := .redraw d m }
  | .compare relation => .ok { r with focus := .threshold d none relation }
  | kind => r.stepOperand d.expr kind

/-- Reads one token. An optional argument that is there is always taken. -/
def step (r : Reader) (kind : Kind) (text : String) : Except Cause Reader :=
  match r.focus with
  | .slot s => r.stepSlot s kind text
  | .atom e => r.stepCount e kind
  | .dice d => r.stepDice d kind
  | .select d s =>
    match kind with
    | .int => do
      let n ← numeral Numeral.uint64? text
      .ok { r with focus := .dice (d.push (.select s n)) }
    | kind => r.stepDice (d.push (.select s 1)) kind
  | .redraw d m =>
    match kind with
    | .int => do
      let n ← numeral Numeral.int64? text
      .ok { r with focus := .dice (d.push (.redraw m (some (.equalTo n)))) }
    | .compare relation => .ok { r with focus := .threshold d (some m) relation }
    | kind => r.stepDice (d.push (.redraw m none)) kind
  | .threshold d m relation =>
    match kind with
    | .int => do
      let n ← numeral Numeral.int64? text
      let modifier := match m with
        | none => .countSuccesses ⟨relation, n⟩
        | some m => .redraw m (some ⟨relation, n⟩)
      .ok { r with focus := .dice (d.push modifier) }
    | _ => .error (.unexpectedToken [Kind.int.label])

/-- The expression, if it is complete. -/
def finish (r : Reader) : Except Cause Expr :=
  match r.focus.operand?, r.outer, r.focus with
  | some e, [], _ => .ok (r.pending.total e)
  | some _, _ :: _, _ => .error (.unexpectedEnd [Kind.rightParen.label])
  | none, _, .threshold .. => .error (.unexpectedEnd [Kind.int.label])
  | none, _, _ => .error (.unexpectedEnd atomLabels)

end Reader

/-- The expression that a sequence of tokens stands for. -/
def parseTokens : List Token → Except ParseError Expr :=
  readAll Reader.step Reader.finish .start

end Tabletop.Notation

/-- The expression that a text stands for. -/
def Tabletop.Expr.ofText (text : String) : Except ReadError Expr := do
  let tokens ← (Notation.tokenize text).mapError .lex
  (Notation.parseTokens tokens).mapError .parse
