import Tabletop.Narrative.Roll
import Tabletop.Proofs.Dice.Replay

/-!
# Rolling narrative dice again

What `Repeats` says of a roll of narrative terms: the answers of the source decide it, the limit on
dice only whether it fails, and the resolver only by the values that it gives. Main statement:
`Repeats.rollNarrative`.
-/

namespace Tabletop

variable {σ τ : Type} [Source σ] [Source τ] {config config' : Config} {resolve resolve' : Resolver}

namespace Narrative

/-- A count has the same value with a resolver that knows more. -/
theorem Count.value_of_atMost (h : resolve.AtMost resolve') {sides : Int64} {c : Count} {n : Nat}
    (hn : c.value resolve sides = .ok n) : c.value resolve' sides = .ok n := by
  cases c with
  | literal m => exact hn
  | reference r =>
    simp only [value] at hn ⊢
    cases hr : resolve r with
    | none =>
      rw [hr] at hn
      cases hn
    | some m =>
      rw [hr] at hn
      rw [h r m hr]
      exact hn

end Narrative

namespace Repeats

open Narrative

protected theorem throwDie (d : SymbolDie) :
    Repeats (throwDie d : Rolling σ Face) (throwDie d : Rolling τ Face) := by
  refine (Repeats.ask _).bind fun n => ?_
  cases d.face? n.toInt with
  | none => exact .throw_left _ _
  | some f => exact .pure f

protected theorem throwDice (d : SymbolDie) (n : Nat) (tally : Tally) :
    Repeats (throwDice d n tally : Rolling σ (List Face × Tally))
      (throwDice d n tally : Rolling τ (List Face × Tally)) := by
  induction n generalizing tally with
  | zero => exact .pure _
  | succ n ih =>
    exact (Repeats.throwDie d).bind fun _ => (Repeats.orOverflow _).bind fun tally =>
      (ih tally).bind fun _ => .pure _

mutual

/-- A term is rolled alike where no fewer dice are allowed. -/
protected theorem rollTerm (h : config.maxDice ≤ config'.maxDice) (hr : resolve.AtMost resolve')
    (o : Outcome) (spent : Nat) (term : Term) :
    Repeats (rollTerm config resolve o spent term : Rolling σ (Outcome × Nat))
      (rollTerm config' resolve' o spent term : Rolling τ (Outcome × Nat)) := by
  cases term with
  | dice count d =>
    unfold rollTerm
    refine (Repeats.liftM fun _ => Count.value_of_atMost hr).bind fun n => ?_
    dsimp only
    by_cases hspent : config.maxDice < spent + n
    · rw [if_pos hspent]
      exact .throw_left _ _
    · rw [if_neg hspent, if_neg (by omega)]
      exact (Repeats.throwDice d n _).bind fun _ => .pure _
  | symbols count f =>
    unfold rollTerm
    exact (Repeats.liftM fun _ => Count.value_of_atMost hr).bind fun n =>
      (Repeats.orOverflow _).bind fun _ => .pure _
  | group name terms =>
    unfold rollTerm
    exact (Repeats.rollTerms h hr _ _ terms).bind fun _ => (Repeats.orOverflow _).bind fun _ =>
      .pure _

/-- Terms are rolled alike where no fewer dice are allowed. -/
protected theorem rollTerms (h : config.maxDice ≤ config'.maxDice) (hr : resolve.AtMost resolve')
    (o : Outcome) (spent : Nat) (terms : List Term) :
    Repeats (rollTerms config resolve o spent terms : Rolling σ (Outcome × Nat))
      (rollTerms config' resolve' o spent terms : Rolling τ (Outcome × Nat)) := by
  cases terms with
  | nil =>
    unfold rollTerms
    exact .pure _
  | cons term terms =>
    unfold rollTerms
    exact (Repeats.rollTerm h hr o spent term).bind fun _ => Repeats.rollTerms h hr _ _ terms

end

/-- A narrative roll is the same where no fewer dice are allowed, on any source that gives the same
answers. -/
theorem rollNarrative (h : config.maxDice ≤ config'.maxDice) (hr : resolve.AtMost resolve')
    (terms : List Term) :
    Repeats (Narrative.roll config resolve terms : Rolling σ Outcome)
      (Narrative.roll config' resolve' terms : Rolling τ Outcome) :=
  (Repeats.rollTerms h hr _ _ terms).bind fun _ => .pure _

end Repeats

end Tabletop
