import Tabletop.Proofs.Dice.Compounding
import Tabletop.Proofs.Dice.Replay
import Tabletop.Proofs.Dice.Rerolling

/-!
# Checked before drawn

A dice term is refused for its count and sides, for too many dice, or for a modifier that could draw
forever, in this order and before its first die is drawn. Once it draws, it fails for other reasons.

* `Modifier.Endless`: every face meets the condition on which the modifier goes on drawing.
* `Pool.Refuses`: why a dice term is refused, for each of the errors.
* `Pool.check_eq_error_iff`: the check refuses a dice term for just these reasons.
* `Pool.roll_failsWith`: how a dice term fails that passes the check.
* `Expr.dice_refused_undrawn`: when a dice term is refused, and that nothing has been drawn then.
-/

namespace Tabletop

/-! ## Modifiers that could draw forever -/

namespace Modifier

/-- The modifier goes on drawing for as long as the faces meet the condition: the one that is
written, or else that the face is a one, or the highest one of the die. -/
inductive DrawsWhile (sides : Int64) : Modifier → Comparison → Prop where
  | written {r : Redraw} (h : r ≠ .rerollOnce) (c : Comparison) :
    DrawsWhile sides (.redraw r (some c)) c
  | reroll : DrawsWhile sides (.redraw .reroll none) (.equalTo 1)
  | explode : DrawsWhile sides (.redraw .explode none) (.equalTo sides)
  | compound : DrawsWhile sides (.redraw .compound none) (.equalTo sides)

/-- The modifier could draw forever: every face of the die meets the condition on which it goes on
drawing. -/
def Endless (sides : Int64) (m : Modifier) (c : Comparison) : Prop :=
  m.DrawsWhile sides c ∧ ∀ face : Int64, 1 ≤ face → face ≤ sides → c.accepts face = true

theorem drawsWhile_iff {sides : Int64} {m : Modifier} {c : Comparison} : m.DrawsWhile sides c ↔
    ∃ r own, m = .redraw r own ∧ r.repeats = true ∧ own.getD (r.defaultCondition sides) = c := by
  constructor
  · rintro (⟨h, c⟩ | _ | _ | _)
    · rename_i r
      exact ⟨r, some c, rfl, by cases r <;> simp_all [Redraw.repeats], rfl⟩
    · exact ⟨.reroll, none, rfl, rfl, rfl⟩
    · exact ⟨.explode, none, rfl, rfl, rfl⟩
    · exact ⟨.compound, none, rfl, rfl, rfl⟩
  · rintro ⟨r, own | c, rfl, hrepeats, rfl⟩
    · cases r with
      | reroll => exact .reroll
      | rerollOnce => cases hrepeats
      | explode => exact .explode
      | compound => exact .compound
    · exact .written (by rintro rfl; cases hrepeats) c

/-- There is one such condition. -/
theorem DrawsWhile.unique {sides : Int64} {m : Modifier} {c c' : Comparison}
    (h : m.DrawsWhile sides c) (h' : m.DrawsWhile sides c') : c = c' := by
  cases h <;> cases h' <;> rfl

/-- The check of a modifier tests all faces by the threshold alone. -/
theorem endless?_eq_some_iff {sides : Int64} (hs : 1 ≤ sides) {m : Modifier} {c : Comparison} :
    m.endless? sides = some c ↔ m.Endless sides c := by
  have hevery : c.acceptsEvery sides = true ↔
      ∀ face : Int64, 1 ≤ face → face ≤ sides → c.accepts face = true := by
    simp only [Comparison.acceptsEvery_iff, Int64.le_iff_toInt_le] at hs ⊢
    exact and_iff_right hs
  rw [Endless, drawsWhile_iff, ← hevery]
  cases m with
  | select _ _ | countSuccesses _ => simp [endless?]
  | redraw r own =>
    simp only [endless?, Bool.and_eq_true, Option.ite_none_right_eq_some, Option.some.injEq,
      redraw.injEq]
    constructor
    · rintro ⟨⟨hrepeats, hall⟩, rfl⟩
      exact ⟨⟨r, own, ⟨rfl, rfl⟩, hrepeats, rfl⟩, hall⟩
    · rintro ⟨⟨_, _, ⟨rfl, rfl⟩, hrepeats, rfl⟩, hall⟩
      exact ⟨⟨hrepeats, hall⟩, rfl⟩

theorem endless?_eq_none_iff {sides : Int64} (hs : 1 ≤ sides) {m : Modifier} :
    m.endless? sides = none ↔ ∀ c, ¬m.Endless sides c := by
  simp only [Option.eq_none_iff_forall_ne_some, ne_eq, endless?_eq_some_iff hs]

/-- The first modifier that could draw forever is found. -/
theorem findSome?_endless?_eq_some_iff {sides : Int64} (hs : 1 ≤ sides) {ms : List Modifier}
    {c : Comparison} : ms.findSome? (·.endless? sides) = some c ↔
      ∃ earlier m later, ms = earlier ++ m :: later ∧ m.Endless sides c ∧
        ∀ m' ∈ earlier, ∀ c', ¬m'.Endless sides c' := by
  simp only [List.findSome?_eq_some_iff, endless?_eq_some_iff hs, endless?_eq_none_iff hs]

theorem exists_endless_iff {sides : Int64} (hs : 1 ≤ sides) {ms : List Modifier} :
    (∃ m ∈ ms, ∃ c, m.Endless sides c) ↔ ∃ c, ms.findSome? (·.endless? sides) = some c := by
  simp only [← Option.isSome_iff_exists, List.findSome?_isSome_iff, ← endless?_eq_some_iff hs]

end Modifier

/-! ## What is refused -/

/-- The error is that of a dice term that is refused. -/
def EvalError.IsRefusal : EvalError → Prop
  | .invalidDice _ _ | .tooManyDice _ _ | .endless _ _ => True
  | _ => False

namespace Pool

variable {config : Config} {x y : Number} {ms : List Modifier}

/-- The numbers are a count and sides that a dice term can have: integers, the one natural and the
other positive. -/
def IsSpec (x y : Number) (n s : Int64) : Prop :=
  x.toInt? = some n ∧ y.toInt? = some s ∧ 0 ≤ n ∧ 1 ≤ s

/-- Why a dice term with the count `x` and the sides `y` is refused. A reason counts only if those
before it do not hold. -/
inductive Refuses (config : Config) (x y : Number) (ms : List Modifier) : EvalError → Prop where
  | spec (h : ¬∃ n s, IsSpec x y n s) : Refuses config x y ms (.invalidDice x y)
  | count {n s : Int64} (h : IsSpec x y n s) (hmax : config.maxDice < n.toInt.toNat) :
    Refuses config x y ms (.tooManyDice n config.maxDice)
  /-- The first modifier that could draw forever is reported, by its condition. -/
  | endless {n s : Int64} (h : IsSpec x y n s) (hmax : n.toInt.toNat ≤ config.maxDice)
    {earlier later : List Modifier} {m : Modifier} {c : Comparison}
    (hms : ms = earlier ++ m :: later)
    (hfirst : ∀ m' ∈ earlier, ∀ c', ¬m'.Endless s c') (hm : m.Endless s c) :
    Refuses config x y ms (.endless c s)

theorem isSpec_iff {n s : Int64} : IsSpec x y n s ↔ spec x y = .ok (n, s) :=
  spec_eq_ok_iff.symm

theorem IsSpec.unique {n s n' s' : Int64} (h : IsSpec x y n s) (h' : IsSpec x y n' s') :
    n = n' ∧ s = s' :=
  ⟨Option.some.inj (h.1.symm.trans h'.1), Option.some.inj (h.2.1.symm.trans h'.2.1)⟩

theorem spec_eq_error {e : EvalError} (h : spec x y = .error e) : e = .invalidDice x y := by
  unfold spec at h
  split at h
  · split at h <;> cases h
    rfl
  · cases h
    rfl

theorem check_of_not_isSpec (h : ¬∃ n s, IsSpec x y n s) :
    check config x y ms = .error (.invalidDice x y) := by
  cases hspec : spec x y with
  | error e =>
    obtain rfl := spec_eq_error hspec
    rw [check, hspec]
    rfl
  | ok r => exact absurd ⟨r.1, r.2, isSpec_iff.mpr hspec⟩ h

theorem check_of_isSpec {n s : Int64} (h : IsSpec x y n s) : check config x y ms =
    if config.maxDice < n.toInt.toNat then .error (.tooManyDice n config.maxDice)
    else match ms.findSome? (·.endless? s) with
      | some c => .error (.endless c s)
      | none => .ok (n.toInt.toNat, s) := by
  rw [check, isSpec_iff.mp h]
  rfl

/-- The check fails just with the error of the reason that holds. -/
theorem check_eq_error_iff {e : EvalError} :
    check config x y ms = .error e ↔ Refuses config x y ms e := by
  constructor
  · intro h
    by_cases hspec : ∃ n s, IsSpec x y n s
    · obtain ⟨n, s, hns⟩ := hspec
      rw [check_of_isSpec hns] at h
      split at h
      · next hmax =>
        cases h
        exact .count hns hmax
      · next hmax =>
        split at h
        · next c hfind =>
          cases h
          obtain ⟨earlier, m, later, hms, hm, hfirst⟩ :=
            (Modifier.findSome?_endless?_eq_some_iff hns.2.2.2).mp hfind
          exact .endless hns (Nat.le_of_not_lt hmax) hms hfirst hm
        · cases h
    · rw [check_of_not_isSpec hspec] at h
      cases h
      exact .spec hspec
  · rintro (hspec | ⟨hns, hmax⟩ | ⟨hns, hmax, hms, hfirst, hm⟩)
    · exact check_of_not_isSpec hspec
    · rw [check_of_isSpec hns, if_pos hmax]
    · have hfind := (Modifier.findSome?_endless?_eq_some_iff hns.2.2.2).mpr
        ⟨_, _, _, hms, hm, hfirst⟩
      rw [check_of_isSpec hns, if_neg (Nat.not_lt.mpr hmax), hfind]

theorem exists_refuses_invalidDice_iff (config : Config) (ms : List Modifier) :
    (∃ k l, Refuses config x y ms (.invalidDice k l)) ↔ ¬∃ n s, IsSpec x y n s := by
  constructor
  · rintro ⟨k, l, ⟨h⟩⟩
    exact h
  · exact fun h => ⟨x, y, .spec h⟩

theorem exists_refuses_tooManyDice_iff (ms : List Modifier) {n s : Int64} (h : IsSpec x y n s) :
    (∃ k l, Refuses config x y ms (.tooManyDice k l)) ↔ config.maxDice < n.toInt.toNat := by
  constructor
  · rintro ⟨k, l, hcount⟩
    cases hcount with
    | count h' hmax =>
      obtain ⟨rfl, -⟩ := h.unique h'
      exact hmax
  · exact fun hmax => ⟨n, _, .count h hmax⟩

theorem exists_refuses_endless_iff {n s : Int64} (h : IsSpec x y n s)
    (hmax : n.toInt.toNat ≤ config.maxDice) :
    (∃ c k, Refuses config x y ms (.endless c k)) ↔ ∃ m ∈ ms, ∃ c, m.Endless s c := by
  constructor
  · rintro ⟨c, k, hendless⟩
    cases hendless with
    | endless h' _ hms _ hm =>
      obtain ⟨rfl, rfl⟩ := h.unique h'
      exact ⟨_, by simp [hms], c, hm⟩
  · intro hendless
    obtain ⟨c, hfind⟩ := (Modifier.exists_endless_iff h.2.2.2).mp hendless
    obtain ⟨earlier, m, later, hms, hm, hfirst⟩ :=
      (Modifier.findSome?_endless?_eq_some_iff h.2.2.2).mp hfind
    exact ⟨c, s, .endless h hmax hms hfirst hm⟩

theorem Refuses.isRefusal {e : EvalError} (h : Refuses config x y ms e) : e.IsRefusal := by
  cases h <;> trivial

/-! ## Errors behind the check -/

variable {σ : Type} [Source σ]

/-- A dice term that passes the check fails for a chain that is too long or a sum that is too large,
or for an answer out of range. -/
theorem roll_failsWith {n : Nat} {s : Int64} (h : check config x y ms = .ok (n, s)) :
    FailsWith (Pool.roll config x y ms : Rolling σ Pool)
      fun e => e = .chainTooLong config.maxChain ∨ e = .overflow := by
  refine (FailsWith.composes _).rollPool (.inl rfl) (.inr rfl) (fun e he => ?_) (.refl config)
  rw [h] at he
  cases he

theorem roll_of_check_eq_error {e : EvalError} (h : check config x y ms = .error e)
    (t : Tray σ) : t.roll (Pool.roll config x y ms) = (.error e, t) := by
  refine Tray.roll_bind_of_error ?_ _
  rw [h]
  rfl

end Pool

/-! ## Dice terms -/

section Run

variable {σ : Type} [Source σ] {config : Config} {resolve : Resolver} {count sides : Expr}
  {ms : List Modifier} {t t₁ t₂ : Tray σ} {x y : Number} {gs gs' : List DiceGroup}

/-- Once its count and its sides have their values, a dice term is refused for the first reason that
holds, and then the source is left as they have left it. If no reason holds, it fails with none of
these errors. -/
theorem Expr.dice_refused_undrawn
    (hcount : t.roll (count.eval config resolve) = (.ok (x, gs), t₁))
    (hsides : t₁.roll (sides.eval config resolve) = (.ok (y, gs'), t₂)) :
    let run := t.roll ((dice count sides ms).eval config resolve)
    ((∃ k l, run.1 = .error (.invalidDice k l)) ↔ ¬∃ n s, Pool.IsSpec x y n s) ∧
    (∀ n s, Pool.IsSpec x y n s →
      ((∃ k l, run.1 = .error (.tooManyDice k l)) ↔ config.maxDice < n.toInt.toNat) ∧
      (n.toInt.toNat ≤ config.maxDice →
        ((∃ c k, run.1 = .error (.endless c k)) ↔ ∃ m ∈ ms, ∃ c, m.Endless s c))) ∧
    (∀ e, run.1 = .error e ∧ e.IsRefusal ↔ Pool.Refuses config x y ms e) ∧
    ∀ e, Pool.Refuses config x y ms e → run = (.error e, t₂) := by
  intro run
  have hrun : run = t₂.roll (Pool.roll config x y ms >>= fun p => do
      let group ← p.group (dice count sides ms).text
      pure (.int group.value, gs ++ gs' ++ [group])) := by
    simp only [run]
    rw [eval, Tray.roll_bind_of_ok hcount]
    dsimp only
    rw [Tray.roll_bind_of_ok hsides]
  have hrefused : ∀ e, Pool.Refuses config x y ms e → run = (.error e, t₂) := by
    intro e he
    have hpool := Pool.roll_of_check_eq_error (Pool.check_eq_error_iff.mpr he) t₂
    rw [hrun, Tray.roll_bind_of_error hpool]
  have hpassed : ∀ r, Pool.check config x y ms = .ok r → ∀ e, run.1 = .error e → ¬e.IsRefusal := by
    rintro ⟨n, s⟩ hcheck e he hrefusal
    have hgroup (p : Pool) : FailsWith (do
        let group ← p.group (dice count sides ms).text
        pure (.int group.value, gs ++ gs' ++ [group]) : Rolling σ (Number × List DiceGroup))
        fun e => e = .chainTooLong config.maxChain ∨ e = .overflow :=
      ((FailsWith.composes _).group (.inr rfl) p _ 0).bind fun g => .pure _ _
    obtain ⟨cs, -, hfails⟩ := (Pool.roll_failsWith hcheck).bind hgroup t₂
    rw [hrun] at he
    obtain (rfl | rfl) | ⟨c, -, -, rfl⟩ := hfails e he <;> exact hrefusal
  have hiff : ∀ e, run.1 = .error e ∧ e.IsRefusal ↔ Pool.Refuses config x y ms e := by
    intro e
    constructor
    · rintro ⟨he, hrefusal⟩
      cases hcheck : Pool.check config x y ms with
      | error e' =>
        have hrefuses := Pool.check_eq_error_iff.mp hcheck
        rw [hrefused e' hrefuses] at he
        cases he
        exact hrefuses
      | ok r => exact absurd hrefusal (hpassed r hcheck e he)
    · exact fun he => ⟨by rw [hrefused e he], he.isRefusal⟩
  have herror : ∀ e, e.IsRefusal → (run.1 = .error e ↔ Pool.Refuses config x y ms e) :=
    fun e he => ⟨fun h => (hiff e).mp ⟨h, he⟩, fun h => ((hiff e).mpr h).1⟩
  refine ⟨?_, fun n s hns => ⟨?_, fun hmax => ?_⟩, hiff, hrefused⟩
  · rw [← Pool.exists_refuses_invalidDice_iff config ms]
    exact exists₂_congr fun k l => herror _ trivial
  · rw [← Pool.exists_refuses_tooManyDice_iff ms hns]
    exact exists₂_congr fun k l => herror _ trivial
  · rw [← Pool.exists_refuses_endless_iff hns hmax]
    exact exists₂_congr fun c k => herror _ trivial

end Run

/-- The last of three modifiers rerolls every face. The draw for the count is made, but no die is
drawn that the first modifier could explode. -/
theorem Expr.dice_refused_undrawn_late : ∃ (count : Expr) (ms : List Modifier) (t t₁ : Tray Script)
    (gs : List DiceGroup), count = group (dice (literal 1) (literal 2) []) ∧
    ms = [.redraw .explode none, .select .keepHighest 1, .redraw .reroll (some ⟨.ge, 1⟩)] ∧
    t = Tray.ofSource (Script.ofList [2, 6, 5]) ∧ t₁.calls = #[⟨1, 2, 2⟩] ∧
    t.roll (count.eval default .empty) = (.ok (.int 2, gs), t₁) ∧
    t₁.roll ((literal 6).eval default .empty) = (.ok (.int 6, []), t₁) ∧
    Pool.Refuses default (.int 2) (.int 6) ms (.endless ⟨.ge, 1⟩ 6) ∧
    t.roll ((dice count (literal 6) ms).eval default .empty) =
      (.error (.endless ⟨.ge, 1⟩ 6), t₁) := by
  have hcount : (Tray.ofSource (Script.ofList [2, 6, 5])).roll
      ((group (dice (literal 1) (literal 2) [])).eval default .empty) =
      (.ok (.int 2, [⟨"1d2", 2, [.drawn 2 .kept 2], 2, false⟩]),
        ⟨⟨#[2, 6, 5], 1⟩, #[⟨1, 2, 2⟩]⟩) := by rfl
  have hspec : Pool.IsSpec (.int 2) (.int 6) 2 6 := ⟨rfl, rfl, by decide, by decide⟩
  have hfirst : ∀ m ∈ [Modifier.redraw .explode none, .select .keepHighest 1],
      ∀ c, ¬m.Endless 6 c := by
    have hnone : ∀ m ∈ [Modifier.redraw .explode none, .select .keepHighest 1],
        m.endless? 6 = none := by decide
    exact fun m hm => (Modifier.endless?_eq_none_iff (by decide)).mp (hnone m hm)
  have hlast : (Modifier.redraw .reroll (some ⟨.ge, 1⟩)).Endless 6 ⟨.ge, 1⟩ :=
    (Modifier.endless?_eq_some_iff (by decide)).mp rfl
  have hrefuses : Pool.Refuses default (.int 2) (.int 6)
      ([.redraw .explode none, .select .keepHighest 1] ++ [.redraw .reroll (some ⟨.ge, 1⟩)])
      (.endless ⟨.ge, 1⟩ 6) := .endless hspec (by decide) rfl hfirst hlast
  have hsides : (⟨⟨#[2, 6, 5], 1⟩, #[⟨1, 2, 2⟩]⟩ : Tray Script).roll
      ((literal 6).eval default .empty) =
      (.ok (.int 6, []), ⟨⟨#[2, 6, 5], 1⟩, #[⟨1, 2, 2⟩]⟩) := rfl
  obtain ⟨-, -, -, hrefused⟩ := dice_refused_undrawn hcount hsides
  exact ⟨_, _, _, _, _, rfl, rfl, rfl, rfl, hcount, rfl, hrefuses, hrefused _ hrefuses⟩

end Tabletop
