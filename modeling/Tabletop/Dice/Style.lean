import Tabletop.Dice.Roll

/-!
# Showing results

An expression with the dice that it rolled: behind each dice term stand the faces of its group, and
behind the expression its total. Expression and groups are walked in the order of evaluation, so
each dice term takes the next group; a dice term for which none is left is written alone.
-/

namespace Tabletop

/-- How the parts of a result are set out. -/
structure Style where
  die : Die → String
  total : Number → String

namespace Style

/-- The face, with a mark if it exploded. -/
def face (d : Die) : String :=
  toString d.face ++ (if d.exploded then "!" else "")

/-- Nothing is emphasised. -/
def plain : Style := ⟨face, toString⟩

/-- The lowest and the highest face are bold, and dice that no longer count are struck out. -/
def markdown : Style where
  die d :=
    let text := if d.face == 1 || d.face == d.sides then "**" ++ face d ++ "**" else face d
    match d.status with
    | .dropped | .rerolled => "~~" ++ text ++ "~~"
    | .kept | .exploded => text
  total x := "`" ++ toString x ++ "`"

/-- A dice term and the faces of its dice. -/
def group (s : Style) (text : String) (g : DiceGroup) : String :=
  text ++ " (" ++ ", ".intercalate (g.dice.map s.die) ++ ")"

/-- The text of an expression with the groups that its dice terms take, and the groups left over. -/
def expr (s : Style) : Expr → List DiceGroup → String × List DiceGroup
  | .literal n, groups => (toString n, groups)
  | .reference r, groups => (toString r, groups)
  | .dice count sides modifiers, groups =>
    let (n, groups) := s.expr count groups
    let (d, groups) := s.expr sides groups
    let text := n ++ "d" ++ d ++ Modifier.chainText modifiers
    match groups with
    | [] => (text, [])
    | g :: groups => (s.group text g, groups)
  | .group e, groups =>
    let (x, groups) := s.expr e groups
    ("(" ++ x ++ ")", groups)
  | .unary op e, groups =>
    let (x, groups) := s.expr e groups
    (op.symbol ++ x, groups)
  | .binary op l r, groups =>
    let (x, groups) := s.expr l groups
    let (y, groups) := s.expr r groups
    (x ++ " " ++ op.symbol ++ " " ++ y, groups)

/-- The text of an expression with a result. -/
def render (s : Style) (e : Expr) (r : RollResult) : String :=
  (s.expr e r.groups).1 ++ " = " ++ s.total r.total

end Style

end Tabletop
