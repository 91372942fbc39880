import Tabletop.Dice.Table
import Tabletop.Notation.Reader

/-!
# Sessions

Reading and rolling texts, one after the other, on one table. A session remembers the expressions
that it has read, so that they can be rolled again. Only the table and the remembered expressions go
from one request to the next.
-/

namespace Tabletop

variable {σ : Type} [Source σ]

/-- Reads a text and rolls it. -/
def rollText (config : Config) (resolve : Resolver) (text : String) (t : Tray σ) :
    Except RollError RollResult × Tray σ :=
  match Expr.ofText text with
  | .error e => (.error (.read e), t)
  | .ok e =>
    let (result, t) := t.roll (e.roll config resolve)
    (result.mapError .eval, t)

/-- A table in use, with the expressions read at it. -/
structure Session (σ : Type) where
  config : Config
  resolve : Resolver
  table : Table σ
  /-- The expressions read so far, oldest first. -/
  exprs : Array Expr

namespace Session

/-- What a session is asked to do. -/
inductive Request where
  /-- Read a text, remember the expression and roll it. -/
  | roll (text : String)
  /-- Roll a remembered expression again. -/
  | again (i : Nat)
  /-- Draw one face of a die. -/
  | draw (sides : Int64)
deriving DecidableEq, Repr, Inhabited

/-- What a session answers. -/
inductive Reply where
  | unreadable (e : ReadError)
  | unknownExpr
  | rolled (e : Expr) (result : Except EvalError RollResult)
  | drawn (face : Except EvalError Int64)

/-- The tray of the session. -/
def tray (s : Session σ) : Tray σ :=
  s.table.tray

/-- Rolls an expression on the session's table. -/
def eval (s : Session σ) (e : Expr) : Except EvalError RollResult × Session σ :=
  let (result, table) := s.table.lay (e.rollLaying s.config s.resolve)
  (result, { s with table })

/-- Draws one face on the session's table. -/
def draw (s : Session σ) (sides : Int64) : Except EvalError Int64 × Session σ :=
  let (face, table) := s.table.lay (Laying.onTray (Rolling.draw sides))
  (face, { s with table })

/-- Answers one request. -/
def answer (s : Session σ) : Request → Reply × Session σ
  | .roll text =>
    match Expr.ofText text with
    | .error e => (.unreadable e, s)
    | .ok e =>
      let (result, s) := eval { s with exprs := s.exprs.push e } e
      (.rolled e result, s)
  | .again i =>
    match s.exprs[i]? with
    | none => (.unknownExpr, s)
    | some e =>
      let (result, s) := s.eval e
      (.rolled e result, s)
  | .draw sides =>
    let (face, s) := s.draw sides
    (.drawn face, s)

end Session

end Tabletop
