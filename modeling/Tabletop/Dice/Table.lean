import Tabletop.Dice.Roll

/-!
# The table

Where several expressions are rolled, one after the other, the tray stands on a table. The group of
each dice term is laid down there when the term is finished, those of its count and its sides before
its own. A roll that succeeds takes all groups with it. One that fails leaves its groups lying, so a
roll clears the table before it begins.
-/

namespace Tabletop

/-- A tray, and the groups that have been laid down beside it, oldest first. -/
structure Table (σ : Type) where
  tray : Tray σ
  groups : Array DiceGroup

/-- A computation that draws from a source of type `σ` and lays down groups. -/
abbrev Laying (σ : Type) := ExceptT EvalError (StateM (Table σ))

namespace Laying

variable {σ α : Type}

/-- Rolls on the tray, without a look at the groups. -/
def onTray (x : Rolling σ α) : Laying σ α :=
  ExceptT.mk fun table =>
    let (r, tray) := table.tray.roll x
    (r, { table with tray })

/-- Lays down a group. -/
def layDown (g : DiceGroup) : Laying σ Unit :=
  modify fun table => { table with groups := table.groups.push g }

/-- Takes all groups from the table. -/
def takeGroups : Laying σ (List DiceGroup) :=
  modifyGet fun table => (table.groups.toList, { table with groups := #[] })

end Laying

namespace Expr

variable {σ : Type} [Source σ]

open Laying

/-- The value of an expression. The groups of its dice terms are laid down. -/
def evalLaying (config : Config) (resolve : Resolver) : Expr → Laying σ Number
  | literal n => pure (.int n)
  | reference r =>
    match resolve r with
    | some n => pure (.int n)
    | none => throw (.unresolved r)
  | dice count sides modifiers => do
    let n ← count.evalLaying config resolve
    let s ← sides.evalLaying config resolve
    let pool ← onTray (Pool.roll config n s modifiers)
    let group ← onTray (pool.group (dice count sides modifiers).text)
    layDown group
    pure (.int group.value)
  | group e => e.evalLaying config resolve
  | unary op e => do
    let x ← e.evalLaying config resolve
    onTray (applyUnary op x)
  | binary op l r => do
    let x ← l.evalLaying config resolve
    let y ← r.evalLaying config resolve
    onTray (applyBinary config.division op x y)

/-- Rolls an expression on a table that is cleared first. -/
def rollLaying (config : Config) (resolve : Resolver) (e : Expr) : Laying σ RollResult := do
  let _ ← takeGroups
  let total ← e.evalLaying config resolve
  let groups ← takeGroups
  pure ⟨e.text, total, groups⟩

end Expr

namespace Table

variable {σ α : Type}

/-- A table with nothing on it but a tray on which nothing has been drawn. -/
def ofSource (source : σ) : Table σ := ⟨.ofSource source, #[]⟩

/-- Runs a computation on the table. -/
def lay (table : Table σ) (x : Laying σ α) : Except EvalError α × Table σ :=
  x.run.run table

end Table

end Tabletop
