import Tabletop.Proofs.Narrative.Replay

/-!
# Limits

The limits on dice and on chains only ever turn a result into a failure
(`roll_unchanged_of_atMost`): a roll that succeeds is the same roll, draw by draw, wherever more is
allowed and more is known of references.
-/

namespace Tabletop

variable {σ : Type} [Source σ] {resolve resolve' : Resolver}

/-- A roll that succeeds has the same result, and has made the same calls to the source, under
limits that are no tighter and with a resolver that knows more. Of the configuration, a narrative
roll depends on the limit on dice alone. -/
theorem roll_unchanged_of_atMost (hr : resolve.AtMost resolve') :
    (∀ config config' : Config, config.AtMost config' →
      ∀ (e : Expr) (t t' : Tray σ) (result : RollResult),
        t.roll (e.roll config resolve) = (.ok result, t') →
        t.roll (e.roll config' resolve') = (.ok result, t')) ∧
    (∀ config config' : Config, config.maxDice ≤ config'.maxDice →
      ∀ (terms : List Narrative.Term) (t t' : Tray σ) (outcome : Narrative.Outcome),
        t.roll (Narrative.roll config resolve terms) = (.ok outcome, t') →
        t.roll (Narrative.roll config' resolve' terms) = (.ok outcome, t')) := by
  constructor
  · intro config config' h e t t' result hroll
    have hrepeats : Repeats (e.roll config resolve : Rolling σ RollResult)
        (e.roll config' resolve' : Rolling σ RollResult) := .roll_of_atMost h hr e
    exact hrepeats.roll_eq_ok hroll
  · intro config config' h terms t t' outcome hroll
    have hrepeats : Repeats (Narrative.roll config resolve terms : Rolling σ Narrative.Outcome)
        (Narrative.roll config' resolve' terms : Rolling σ Narrative.Outcome) :=
      .rollNarrative h hr terms
    exact hrepeats.roll_eq_ok hroll

/-- Two dice with one explosion, just what the tighter limits allow, and three narrative dice. -/
theorem roll_unchanged_at_limits : ∃ (two all : Resolver) (e : Expr) (terms : List Narrative.Term),
    two ⟨.named, "m"⟩ = none ∧ all ⟨.named, "m"⟩ = some 0 ∧
    e = .dice (.reference ⟨.named, "n"⟩) (.literal 6) [.redraw .explode none] ∧
    terms = [.dice (.literal 1) .boost, .group "extra" [.dice (.reference ⟨.named, "n"⟩) .force]] ∧
    (∃ result t', result.total = .int 11 ∧
      (Tray.ofSource (Script.ofList [6, 2, 3])).roll (e.roll ⟨2, 1, .truncate⟩ two) =
        (.ok result, t') ∧
      (Tray.ofSource (Script.ofList [6, 2, 3])).roll (e.roll ⟨9, 4, .truncate⟩ all) =
        (.ok result, t')) ∧
    (∃ outcome t', outcome.throws.size = 3 ∧
      (Tray.ofSource (Script.ofList [3, 7, 12])).roll
        (Narrative.roll ⟨3, 0, .truncate⟩ two terms) = (.ok outcome, t') ∧
      (Tray.ofSource (Script.ofList [3, 7, 12])).roll
        (Narrative.roll ⟨4, 0, .decimal⟩ all terms) = (.ok outcome, t')) := by
  have hr : Resolver.AtMost (fun r => if r.name = "n" then some 2 else none)
      (fun r => some (if r.name = "n" then 2 else 0)) := by
    intro r n h
    by_cases hn : r.name = "n"
    · simpa [hn] using h
    · simp [hn] at h
  have hdice : (Tray.ofSource (Script.ofList [6, 2, 3])).roll
      ((Expr.dice (.reference ⟨.named, "n"⟩) (.literal 6) [.redraw .explode none]).roll
        ⟨2, 1, .truncate⟩ (fun r => if r.name = "n" then some 2 else none)) =
      (.ok ⟨"$\x7bn\x7dd6!", .int 11, [⟨"$\x7bn\x7dd6!", 6,
          [⟨6, 6, .kept, true⟩, .drawn 6 .kept 2, .drawn 6 .kept 3], 11, false⟩]⟩,
        ⟨⟨#[6, 2, 3], 3⟩, #[⟨1, 6, 6⟩, ⟨1, 6, 2⟩, ⟨1, 6, 3⟩]⟩) := by rfl
  have hnarrative : (Tray.ofSource (Script.ofList [3, 7, 12])).roll
      (Narrative.roll ⟨3, 0, .truncate⟩ (fun r => if r.name = "n" then some 2 else none)
        [.dice (.literal 1) .boost, .group "extra" [.dice (.reference ⟨.named, "n"⟩) .force]]) =
      (.ok ⟨Narrative.termsText [.dice (.literal 1) .boost,
            .group "extra" [.dice (.reference ⟨.named, "n"⟩) .force]],
          #[⟨.boost, .success⟩, ⟨.force, .darkDark⟩, ⟨.force, .lightLight⟩],
          ⟨1, 0, 0, 0, 0, 0, 2, 2⟩,
          [("extra", ⟨Narrative.termsText [.dice (.reference ⟨.named, "n"⟩) .force],
            #[⟨.force, .darkDark⟩, ⟨.force, .lightLight⟩], ⟨0, 0, 0, 0, 0, 0, 2, 2⟩, []⟩)]⟩,
        ⟨⟨#[3, 7, 12], 3⟩, #[⟨1, 6, 3⟩, ⟨1, 12, 7⟩, ⟨1, 12, 12⟩]⟩) := by rfl
  obtain ⟨hexpr, hterms⟩ := roll_unchanged_of_atMost (σ := Script) hr
  have hdice' := hexpr ⟨2, 1, .truncate⟩ ⟨9, 4, .truncate⟩ ⟨by decide, by decide, rfl⟩ _ _ _ _ hdice
  have hnarrative' := hterms ⟨3, 0, .truncate⟩ ⟨4, 0, .decimal⟩ (by decide) _ _ _ _ hnarrative
  exact ⟨_, _, _, _, rfl, rfl, rfl, rfl, ⟨_, _, rfl, hdice, hdice'⟩,
    ⟨_, _, rfl, hnarrative, hnarrative'⟩⟩

end Tabletop
