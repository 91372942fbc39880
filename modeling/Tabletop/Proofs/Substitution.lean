import Mathlib.Data.List.Forall2
import Tabletop.Narrative.Roll
import Tabletop.Proofs.Dice.Agreement

/-!
# References and their values

A reference means its value: a roll with a resolver is the roll, without one, of what has the values
in place of the references.

* `Expr.substitute`, `Narrative.substituteAll`: the values in place of the references. A reference
  that the resolver does not know stays, and fails in both rolls.
* `RollResult.Alike`, `Narrative.Outcome.Alike`: the same but for what is written.
* `roll_alike_substitute`: the two rolls agree.
-/

namespace Tabletop

variable {σ : Type} [Source σ]

/-! ## Expressions -/

/-- The rolls are the same but for how the expressions and their dice terms are written. -/
structure RollResult.Alike (r r' : RollResult) : Prop where
  total : r.total = r'.total
  groups : List.Forall₂ DiceGroup.Alike r.groups r'.groups

namespace Expr

/-- The expression with the values of its references in their places. -/
def substitute (resolve : Resolver) : Expr → Expr
  | literal n => literal n
  | reference r =>
    match resolve r with
    | some n => literal n
    | none => reference r
  | dice count sides modifiers =>
    dice (count.substitute resolve) (sides.substitute resolve) modifiers
  | group e => group (e.substitute resolve)
  | unary op e => unary op (e.substitute resolve)
  | binary op l r => binary op (l.substitute resolve) (r.substitute resolve)

theorem eval_substitute (config : Config) (resolve : Resolver) (e : Expr) :
    Agrees (fun x y => x.1 = y.1 ∧ List.Forall₂ DiceGroup.Alike x.2 y.2)
      (e.eval config resolve : Rolling σ (Number × List DiceGroup))
      ((e.substitute resolve).eval config .empty) := by
  induction e with
  | literal n => exact .pure ⟨rfl, .nil⟩
  | reference r =>
    unfold substitute eval
    cases resolve r with
    | some n => exact .pure ⟨rfl, .nil⟩
    | none => exact .throw _ _
  | dice count sides ms ihc ihs =>
    unfold substitute eval
    refine ihc.bind ?_
    rintro ⟨n, gs⟩ ⟨_, hs⟩ ⟨rfl, hcount⟩
    refine ihs.bind ?_
    rintro ⟨s, gs'⟩ ⟨_, hs'⟩ ⟨rfl, hsides⟩
    refine .bind_self (Pool.roll config n s ms) fun p => ?_
    refine (Agrees.group p _ _).bind ?_
    rintro g g' ⟨halike, -, -⟩
    exact .pure ⟨congrArg Number.int halike.value,
      List.rel_append (List.rel_append hcount hsides) (.cons halike .nil)⟩
  | group e ih => exact ih
  | unary op e ih =>
    unfold substitute eval
    refine ih.bind ?_
    rintro ⟨x, gs⟩ ⟨_, gs'⟩ ⟨rfl, hgroups⟩
    exact .bind_self (applyUnary op x) fun y => .pure ⟨rfl, hgroups⟩
  | binary op l r ihl ihr =>
    unfold substitute eval
    refine ihl.bind ?_
    rintro ⟨x, gs⟩ ⟨_, hs⟩ ⟨rfl, hleft⟩
    refine ihr.bind ?_
    rintro ⟨y, gs'⟩ ⟨_, hs'⟩ ⟨rfl, hright⟩
    exact .bind_self (applyBinary config.division op x y) fun z =>
      .pure ⟨rfl, List.rel_append hleft hright⟩

end Expr

namespace Narrative

/-! ## Outcomes but for their texts -/

mutual

/-- The outcomes, and those of their groups, are the same but for how the terms are written. -/
inductive Outcome.Alike : Outcome → Outcome → Prop
  | intro {o o' : Outcome} (throws : o.throws = o'.throws) (tally : o.tally = o'.tally)
    (groups : Outcome.GroupsAlike o.groups o'.groups) : Outcome.Alike o o'

/-- The groups have the same names, and their outcomes are the same but for how the terms are
written. -/
inductive Outcome.GroupsAlike : List (String × Outcome) → List (String × Outcome) → Prop
  | nil : Outcome.GroupsAlike [] []
  | cons {o o' : Outcome} {gs gs' : List (String × Outcome)} (name : String)
    (head : Outcome.Alike o o') (tail : Outcome.GroupsAlike gs gs') :
    Outcome.GroupsAlike ((name, o) :: gs) ((name, o') :: gs')

end

namespace Outcome

variable {o o' inner inner' : Outcome} {gs gs' hs hs' : List (String × Outcome)}

theorem GroupsAlike.insertKey (h : GroupsAlike gs gs') (name : String) (ho : o.Alike o') :
    GroupsAlike (insertKey name o gs) (insertKey name o' gs') := by
  induction gs generalizing gs' with
  | nil =>
    cases h
    exact .cons name ho .nil
  | cons p gs ih =>
    cases h with
    | cons k head tail =>
      unfold Narrative.insertKey
      split
      · exact .cons name ho (.cons k head tail)
      · split
        · exact .cons name ho tail
        · exact .cons k head (ih tail)

theorem GroupsAlike.foldl_insertKey (h : GroupsAlike gs gs') (more : GroupsAlike hs hs') :
    GroupsAlike (hs.foldl (fun groups (k, g) => Narrative.insertKey k g groups) gs)
      (hs'.foldl (fun groups (k, g) => Narrative.insertKey k g groups) gs') := by
  induction hs generalizing hs' gs gs' with
  | nil =>
    cases more
    exact h
  | cons p hs ih =>
    cases more with
    | cons k head tail =>
      rw [List.foldl_cons, List.foldl_cons]
      exact ih (h.insertKey k head) tail

/-- Nothing has been rolled, whatever is written. -/
theorem alike_start (terms terms' : List Term) : (start terms).Alike (start terms') :=
  .intro rfl rfl .nil

/-- The outcome of a group is added alike. -/
theorem Alike.addGroup? (ho : o.Alike o') (hinner : inner.Alike inner') (name : String) :
    Option.Rel Alike (o.addGroup? name inner) (o'.addGroup? name inner') := by
  obtain ⟨hthrows, htally, hgroups⟩ := ho
  have hall := hinner
  obtain ⟨hthrows', htally', hgroups'⟩ := hinner
  unfold Outcome.addGroup?
  rw [htally, htally', hthrows, hthrows']
  cases o'.tally.add? inner'.tally with
  | none => exact .none
  | some tally => exact .some ⟨rfl, rfl, (hgroups.foldl_insertKey hgroups').insertKey name hall⟩

end Outcome

/-! ## Narrative rolls -/

/-- The count with the value of its reference in place of it. -/
def Count.substitute (resolve : Resolver) : Count → Count
  | .literal n => .literal n
  | .reference r =>
    match resolve r with
    | some n => .literal n
    | none => .reference r

mutual

/-- The term with the values of its references in their places. -/
def Term.substitute (resolve : Resolver) : Term → Term
  | .dice count d => .dice (count.substitute resolve) d
  | .symbols count f => .symbols (count.substitute resolve) f
  | .group name terms => .group name (substituteAll resolve terms)

/-- The terms with the values of their references in their places. -/
def substituteAll (resolve : Resolver) : List Term → List Term
  | [] => []
  | t :: terms => t.substitute resolve :: substituteAll resolve terms

end

variable (config : Config) (resolve : Resolver)

theorem Count.value_substitute (sides : Int64) (count : Count) :
    (count.substitute resolve).value .empty sides = count.value resolve sides := by
  cases count with
  | literal n => rfl
  | reference r =>
    simp only [substitute, value]
    cases resolve r <;> rfl

/-- What a roll has come to, and what it has been charged for, are alike. -/
def ChargedAlike (x y : Outcome × Nat) : Prop :=
  x.1.Alike y.1 ∧ x.2 = y.2

mutual

/-- A term is rolled alike with the values in place of the references. -/
theorem rollTerm_substitute {o o' : Outcome} (ho : o.Alike o') (spent : Nat) (term : Term) :
    Agrees ChargedAlike (rollTerm config resolve o spent term : Rolling σ (Outcome × Nat))
      (rollTerm config .empty o' spent (term.substitute resolve)) := by
  cases term with
  | dice count d =>
    obtain ⟨hthrows, htally, hgroups⟩ := ho
    unfold Term.substitute rollTerm
    rw [Count.value_substitute, hthrows, htally]
    refine .bind_self _ fun n => ?_
    dsimp only
    split
    · exact .throw _ _
    · refine .bind_self _ ?_
      rintro ⟨faces, tally⟩
      exact .pure ⟨⟨rfl, rfl, hgroups⟩, rfl⟩
  | symbols count f =>
    obtain ⟨hthrows, htally, hgroups⟩ := ho
    unfold Term.substitute rollTerm
    rw [Count.value_substitute, htally]
    exact .bind_self _ fun n => .bind_self _ fun tally => .pure ⟨⟨hthrows, rfl, hgroups⟩, rfl⟩
  | group name terms =>
    unfold Term.substitute rollTerm
    refine (rollTerms_substitute (Outcome.alike_start _ _) spent terms).bind ?_
    rintro ⟨inner, paid⟩ ⟨inner', _⟩ ⟨hinner, rfl⟩
    refine (Agrees.orOverflow (ho.addGroup? hinner name)).bind ?_
    exact fun o₁ o₁' ho₁ => .pure ⟨ho₁, rfl⟩

/-- Terms are rolled alike with the values in place of the references. -/
theorem rollTerms_substitute {o o' : Outcome} (ho : o.Alike o') (spent : Nat) (terms : List Term) :
    Agrees ChargedAlike (rollTerms config resolve o spent terms : Rolling σ (Outcome × Nat))
      (rollTerms config .empty o' spent (substituteAll resolve terms)) := by
  cases terms with
  | nil =>
    unfold substituteAll rollTerms
    exact .pure ⟨ho, rfl⟩
  | cons term terms =>
    unfold substituteAll rollTerms
    refine (rollTerm_substitute ho spent term).bind ?_
    rintro ⟨o₁, paid⟩ ⟨o₁', _⟩ ⟨ho₁, rfl⟩
    exact rollTerms_substitute ho₁ paid terms

end

end Narrative

/-- A reference means its value. A roll of an expression, or of narrative terms, makes the same
calls as the roll without a resolver of what has the values in place of the references. Either both
fail, with the same error, or both succeed, and what they have come to is the same but for how it is
written. -/
theorem roll_alike_substitute (config : Config) (resolve : Resolver) :
    (∀ e : Expr, Agrees RollResult.Alike (e.roll config resolve : Rolling σ RollResult)
      ((e.substitute resolve).roll config .empty)) ∧
    ∀ terms : List Narrative.Term, Agrees Narrative.Outcome.Alike
      (Narrative.roll config resolve terms : Rolling σ Narrative.Outcome)
      (Narrative.roll config .empty (Narrative.substituteAll resolve terms)) := by
  constructor
  · intro e
    refine (e.eval_substitute config resolve).bind ?_
    rintro ⟨x, gs⟩ ⟨_, gs'⟩ ⟨rfl, hgroups⟩
    exact .pure ⟨rfl, hgroups⟩
  · intro terms
    refine (Narrative.rollTerms_substitute config resolve
      (Narrative.Outcome.alike_start _ _) 0 terms).bind ?_
    rintro ⟨o, paid⟩ ⟨o', _⟩ ⟨ho, -⟩
    exact .pure ho

end Tabletop
