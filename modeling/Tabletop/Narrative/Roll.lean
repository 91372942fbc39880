import Tabletop.Config
import Tabletop.Dice.Tray
import Tabletop.Narrative.Outcome
import Tabletop.Narrative.Reader

/-!
# Rolling narrative dice

Terms are rolled from left to right, the terms of a group in place. The limit on dice is one for the
whole roll: every dice term is charged for before its first die is thrown.
-/

namespace Tabletop.Narrative

variable {σ : Type} [Source σ]

open Rolling

namespace Count

/-- The value of a count. A negative count asks for no dice there are; `sides` is what to report. -/
def value (resolve : Resolver) (sides : Int64) : Count → Except EvalError Nat
  | .literal n => natural n
  | .reference r =>
    match resolve r with
    | some n => natural n
    | none => .error (.unresolved r)
where
  natural (n : Int64) : Except EvalError Nat :=
    if n < 0 then .error (.invalidDice (.int n) (.int sides)) else .ok n.toInt.toNat

end Count

/-- Throws a die. -/
def throwDie (d : SymbolDie) : Rolling σ Face := do
  let n ← ask d.sides
  match d.face? n.toInt with
  | some f => pure f
  | none => throw (.outOfRange n 1 d.sides)

/-- Throws a number of dice of one kind and adds each face to the tally: the faces, and the tally
with them. -/
def throwDice (d : SymbolDie) : (n : Nat) → Tally → Rolling σ (List Face × Tally)
  | 0, tally => pure ([], tally)
  | n + 1, tally => do
    let face ← throwDie d
    let tally ← orOverflow (tally.add? face.tally)
    let (faces, tally) ← throwDice d n tally
    pure (face :: faces, tally)

mutual

/-- Rolls a term, where `o` is the outcome of the terms before it and `spent` is the number of dice
that the whole roll has been charged for. -/
def rollTerm (config : Config) (resolve : Resolver) (o : Outcome) (spent : Nat) :
    Term → Rolling σ (Outcome × Nat)
  | .dice count d => do
    let n ← (count.value resolve d.sides : Except EvalError Nat)
    let spent := spent + n
    if config.maxDice < spent then
      throw (.tooManyDice (clamped spent) config.maxDice)
    else
      let (faces, tally) ← throwDice d n o.tally
      pure ({ o with throws := o.throws ++ faces.map (Throw.mk d), tally }, spent)
  | .symbols count f => do
    let n ← (count.value resolve 1 : Except EvalError Nat)
    let tally ← orOverflow do
      let added ← f.tally.scale? n
      o.tally.add? added
    pure ({ o with tally }, spent)
  | .group name terms => do
    let (inner, spent) ← rollTerms config resolve (.start terms) spent terms
    let o ← orOverflow (o.addGroup? name inner)
    pure (o, spent)

/-- Rolls terms one after the other. -/
def rollTerms (config : Config) (resolve : Resolver) (o : Outcome) (spent : Nat) :
    List Term → Rolling σ (Outcome × Nat)
  | [] => pure (o, spent)
  | t :: terms => do
    let (o, spent) ← rollTerm config resolve o spent t
    rollTerms config resolve o spent terms

end

/-- Rolls a list of terms. -/
def roll (config : Config) (resolve : Resolver) (terms : List Term) : Rolling σ Outcome := do
  let (o, _) ← rollTerms config resolve (.start terms) 0 terms
  pure o

/-- Reads a text and rolls it. -/
def rollText (config : Config) (resolve : Resolver) (text : String) (t : Tray σ) :
    Except RollError Outcome × Tray σ :=
  match parse text with
  | .error e => (.error (.read e), t)
  | .ok terms =>
    let (result, t) := t.roll (roll config resolve terms)
    (result.mapError .eval, t)

end Tabletop.Narrative
