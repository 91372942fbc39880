import Tabletop.Dice.Roll
import Tabletop.Proofs.Dice.Tray

/-!
# Computations that agree

`Agrees R x y`: on every tray, `x` and `y` make the same calls and leave the source in the same
state. Either both fail, with the same error, or both succeed, and their values are in the relation
`R`. It goes through `pure`, `throw` and `>>=`, so two evaluations that differ in one step are
compared at that step alone.

`DiceGroup.Alike`: the groups are the same but for how their terms are written.
-/

namespace Tabletop

variable {σ α β γ δ : Type}

/-- On every tray both computations make the same calls, and both succeed, with values in the
relation, or both fail with one and the same error. -/
def Agrees (R : α → β → Prop) (x : Rolling σ α) (y : Rolling σ β) : Prop :=
  ∀ t : Tray σ,
    (∃ a b t', t.roll x = (.ok a, t') ∧ t.roll y = (.ok b, t') ∧ R a b) ∨
    ∃ e t', t.roll x = (.error e, t') ∧ t.roll y = (.error e, t')

namespace Agrees

variable {R : α → β → Prop} {S : γ → δ → Prop}

/-- A computation agrees with itself. -/
protected theorem refl (x : Rolling σ α) : Agrees Eq x x := by
  intro t
  rcases hrun : t.roll x with ⟨e | a, t'⟩
  · exact .inr ⟨e, t', rfl, rfl⟩
  · exact .inl ⟨a, a, t', rfl, rfl, rfl⟩

protected theorem pure {a : α} {b : β} (h : R a b) :
    Agrees R (pure a : Rolling σ α) (pure b : Rolling σ β) :=
  fun t => .inl ⟨a, b, t, rfl, rfl, h⟩

protected theorem throw (R : α → β → Prop) (e : EvalError) :
    Agrees R (throw e : Rolling σ α) (throw e : Rolling σ β) :=
  fun t => .inr ⟨e, t, rfl, rfl⟩

/-- What the first computations agree on, the second ones go on with. -/
theorem bind {x : Rolling σ α} {y : Rolling σ β} {f : α → Rolling σ γ} {g : β → Rolling σ δ}
    (hx : Agrees R x y) (hf : ∀ a b, R a b → Agrees S (f a) (g b)) :
    Agrees S (x >>= f) (y >>= g) := by
  intro t
  obtain ⟨a, b, t₁, ha, hb, hab⟩ | ⟨e, t₁, hx, hy⟩ := hx t
  · rw [Tray.roll_bind_of_ok ha, Tray.roll_bind_of_ok hb]
    exact hf a b hab t₁
  · exact .inr ⟨e, t₁, Tray.roll_bind_of_error hx f, Tray.roll_bind_of_error hy g⟩

/-- Behind one and the same computation. -/
theorem bind_self (x : Rolling σ α) {f : α → Rolling σ γ} {g : α → Rolling σ δ}
    (h : ∀ a, Agrees S (f a) (g a)) : Agrees S (x >>= f) (x >>= g) := by
  refine (Agrees.refl x).bind ?_
  rintro a _ rfl
  exact h a

/-- Values that are there or missing alike. -/
protected theorem orOverflow {o : Option α} {o' : Option β} (h : Option.Rel R o o') :
    Agrees R (Rolling.orOverflow o : Rolling σ α) (Rolling.orOverflow o') := by
  cases h with
  | some h => exact .pure h
  | none => exact .throw R .overflow

end Agrees

/-- The groups are the same but for how their terms are written. -/
structure DiceGroup.Alike (g g' : DiceGroup) : Prop where
  sides : g.sides = g'.sides
  dice : g.dice = g'.dice
  value : g.value = g'.value
  counts : g.counts = g'.counts

/-- How a dice term is written has nothing to do with what comes of its pool. -/
theorem Agrees.group (p : Pool) (text text' : String) :
    Agrees (fun g g' => g.Alike g' ∧ g.text = text ∧ g'.text = text')
      (p.group text : Rolling σ DiceGroup) (p.group text') :=
  .bind_self (Rolling.orOverflow p.value?) fun _ => .pure ⟨⟨rfl, rfl, rfl, rfl⟩, rfl, rfl⟩

end Tabletop
