import Tabletop.Proofs.Dice.Agreement
import Tabletop.Proofs.Dice.Conservation

/-!
# Counting successes

A success count says how the dice are valued in the end, and nothing before the end depends on it.
So it may stand anywhere in a chain of modifiers, and of several counts the last one alone matters.

* `Modifier.countedLast`: the modifiers without their success counts, and the last count behind
  them.
* `Pool.modify_counting`: no other modifier looks at the condition of a success count.
* `Pool.foldlM_eq_counting`: a run of modifiers is one of those without success counts, with the
  condition put in afterwards.
* `Expr.dice_countedLast`: a dice term is rolled alike in both orders.
-/

namespace Tabletop

namespace Modifier

/-- The modifiers that are no success counts. -/
def uncounted (ms : List Modifier) : List Modifier :=
  ms.filter fun m => m.success?.isNone

/-- The modifiers with the last success count behind all others, and the other counts left out. -/
def countedLast (ms : List Modifier) : List Modifier :=
  uncounted ms ++ (Pool.lastSuccess? ms).toList.map .countSuccesses

theorem uncounted_cons_of_none {m : Modifier} (h : m.success? = none) (ms : List Modifier) :
    uncounted (m :: ms) = m :: uncounted ms :=
  List.filter_cons_of_pos (by simp [h])

theorem uncounted_cons_of_some {m : Modifier} {c : Comparison} (h : m.success? = some c)
    (ms : List Modifier) : uncounted (m :: ms) = uncounted ms :=
  List.filter_cons_of_neg (by simp [h])

theorem success?_eq_some_iff {m : Modifier} {c : Comparison} :
    m.success? = some c ↔ m = .countSuccesses c := by
  cases m <;> simp [success?]

/-- Where there is no success count, there is nothing to move. -/
theorem countedLast_of_lastSuccess?_eq_none {ms : List Modifier}
    (h : Pool.lastSuccess? ms = none) : countedLast ms = ms := by
  have hnone : ∀ m ∈ ms, m.success?.isNone = true := by
    intro m hm
    cases hsuccess : m.success? with
    | none => rfl
    | some c =>
      rw [success?_eq_some_iff] at hsuccess
      exact absurd (hsuccess ▸ hm) (Pool.lastSuccess?_eq_none_iff.mp h c)
  rw [countedLast, h, uncounted, List.filter_eq_self.mpr hnone]
  exact List.append_nil ms

/-- A success count draws nothing, so it could not draw forever. -/
theorem findSome?_endless?_countedLast (sides : Int64) (ms : List Modifier) :
    (countedLast ms).findSome? (·.endless? sides) = ms.findSome? (·.endless? sides) := by
  have huncounted : (uncounted ms).findSome? (·.endless? sides) =
      ms.findSome? (·.endless? sides) := by
    induction ms with
    | nil => rfl
    | cons m ms ih =>
      cases h : m.success? with
      | none =>
        rw [uncounted_cons_of_none h, List.findSome?_cons, List.findSome?_cons, ih]
      | some c =>
        obtain rfl := success?_eq_some_iff.mp h
        rw [uncounted_cons_of_some h, ih]
        rfl
  rw [countedLast, List.findSome?_append, huncounted]
  cases Pool.lastSuccess? ms <;> simp [endless?]

end Modifier

namespace Pool

open Modifier (uncounted countedLast)

variable {σ : Type} [Source σ] {config : Config}

/-! ## Modifiers -/

/-- The pool with the condition of its success count replaced. -/
def counting (success : Option Comparison) (p : Pool) : Pool :=
  { p with success }

omit [Source σ] in
theorem extend_counting (c : Comparison) (f : Die → Rolling σ (Die × List Die))
    (success : Option Comparison) (p : Pool) :
    (p.counting success).extend c f = counting success <$> p.extend c f := by
  unfold extend
  rw [map_bind]
  refine bind_congr fun results => ?_
  rw [map_pure]
  rfl

/-- No modifier but a success count looks at the condition of one, or changes it. -/
theorem modify_counting {m : Modifier} (hm : m.success? = none) (success : Option Comparison)
    (p : Pool) :
    ((p.counting success).modify config m : Rolling σ Pool) =
      counting success <$> p.modify config m := by
  cases m with
  | select s n => rfl
  | redraw r c =>
    cases r with
    | reroll => exact extend_counting _ _ success p
    | rerollOnce => exact extend_counting _ _ success p
    | explode =>
      refine Eq.trans ?_ (map_bind _ _ _).symm
      refine bind_congr fun dice => ?_
      rw [map_pure]
      rfl
    | compound => exact extend_counting _ _ success p
  | countSuccesses c => cases hm

/-- A run of modifiers is one of those that are no success counts. The condition may be any on the
way; at the end it is that of the last success count, or the one before if there is none. -/
theorem foldlM_eq_counting (ms : List Modifier) (success : Option Comparison) (p : Pool) :
    (ms.foldlM (modify config) p : Rolling σ Pool) =
      counting ((lastSuccess? ms).or p.success) <$>
        (uncounted ms).foldlM (modify config) (p.counting success) := by
  induction ms generalizing p with
  | nil =>
    rw [uncounted, List.filter_nil, List.foldlM_nil, List.foldlM_nil, map_pure]
    rfl
  | cons m ms ih =>
    cases hm : m.success? with
    | none =>
      have hkept : (p.modify config m : Rolling σ Pool) =
          counting p.success <$> p.modify config m := modify_counting hm p.success p
      rw [Modifier.uncounted_cons_of_none hm, lastSuccess?_cons, hm, Option.or_none,
        List.foldlM_cons, List.foldlM_cons, hkept, modify_counting hm, bind_map_left,
        bind_map_left, map_bind]
      exact bind_congr fun q => ih (q.counting p.success)
    | some c =>
      obtain rfl := Modifier.success?_eq_some_iff.mp hm
      rw [Modifier.uncounted_cons_of_some hm, lastSuccess?_cons, hm, Option.or_assoc,
        Option.some_or, List.foldlM_cons]
      exact ih (p.counting (some c))

theorem foldlM_countedLast (ms : List Modifier) (p : Pool) :
    ((countedLast ms).foldlM (modify config) p : Rolling σ Pool) =
      ms.foldlM (modify config) p := by
  cases hlast : lastSuccess? ms with
  | none => rw [Modifier.countedLast_of_lastSuccess?_eq_none hlast]
  | some c =>
    rw [foldlM_eq_counting ms p.success p, countedLast, hlast, Option.some_or,
      List.foldlM_append, map_eq_pure_bind]
    rfl

/-! ## Dice terms -/

theorem check_countedLast (config : Config) (x y : Number) (ms : List Modifier) :
    check config x y (countedLast ms) = check config x y ms := by
  simp only [check, Modifier.findSome?_endless?_countedLast]

/-- The pool of a dice term does not depend on where its successes are counted. -/
theorem roll_countedLast (config : Config) (x y : Number) (ms : List Modifier) :
    (roll config x y (countedLast ms) : Rolling σ Pool) = roll config x y ms := by
  simp only [roll, check_countedLast, foldlM_countedLast]

end Pool

/-- A dice term is rolled in the same way if its success counts are left out but for the last one,
and that is put behind all other modifiers. The same calls are made, and either both terms fail with
the same error, or their values are the same, the groups of their counts and sides are, and so are
their own groups but for how the terms are written. -/
theorem Expr.dice_countedLast {σ : Type} [Source σ] (config : Config) (resolve : Resolver)
    (count sides : Expr) (ms : List Modifier) :
    Agrees (fun r r' => ∃ (x : Number) (groups : List DiceGroup) (g g' : DiceGroup),
        r = (x, groups ++ [g]) ∧ r' = (x, groups ++ [g']) ∧ g.Alike g' ∧
        g.text = (dice count sides ms).text ∧
        g'.text = (dice count sides (Modifier.countedLast ms)).text)
      ((dice count sides ms).eval config resolve : Rolling σ (Number × List DiceGroup))
      ((dice count sides (Modifier.countedLast ms)).eval config resolve) := by
  unfold eval
  refine .bind_self _ ?_
  rintro ⟨n, gs⟩
  refine .bind_self _ ?_
  rintro ⟨s, gs'⟩
  simp only [Pool.roll_countedLast]
  refine .bind_self _ fun p => ?_
  refine (Agrees.group p _ _).bind ?_
  rintro g g' ⟨halike, htext, htext'⟩
  exact .pure ⟨.int g.value, gs ++ gs', g, g', rfl, by rw [halike.value], halike, htext, htext'⟩

end Tabletop
