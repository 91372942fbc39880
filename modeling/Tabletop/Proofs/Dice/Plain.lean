import Tabletop.Dice.Session
import Tabletop.Proofs.Dice.Checking
import Tabletop.Proofs.Dice.Conservation
import Tabletop.Proofs.Notation.RoundTrip

/-!
# Plain dice

A number of dice without modifiers, from its text to its result.

* `ofText_plainText`: the text `NdS` is read as the dice that it names.
* `Pool.check_plain`: when plain dice are refused.
* `roll_plain_of_draws`, `exists_draws_of_roll_plain`: plain dice show the faces drawn, and come to
  their sum.
* `rollText_plain`: what the text comes to if all dice show their highest face, and what it comes to
  on any source.
-/

namespace Tabletop

variable {n s : Int64} {config : Config} {resolve : Resolver}

/-! ## Reading -/

/-- The text of `n` dice with `s` sides. -/
def plainText (n s : Int64) : String :=
  toString n ++ "d" ++ toString s

/-- The expression of `n` dice with `s` sides. -/
def Expr.plain (n s : Int64) : Expr :=
  .dice (.literal n) (.literal s) []

theorem Expr.text_plain (n s : Int64) : (plain n s).text = plainText n s :=
  String.append_empty

theorem ofText_plainText (hn : 0 ≤ n) (hs : 0 ≤ s) :
    Expr.ofText (plainText n s) = .ok (.plain n s) := by
  have hwell : (Expr.plain n s).WellFormed := ⟨rfl, rfl, hn, hs, by simp, by simp⟩
  obtain ⟨hclosed, hwords, hreread⟩ := hwell.reads_back
  have hread := (Expr.ofText_text_eq_ok_iff hclosed).mpr ⟨hwords, hreread⟩
  rwa [Expr.text_plain] at hread

/-! ## Rolling -/

theorem Int64.one_le_of_ne_zero (hs : 0 ≤ s) (hne : s ≠ 0) : 1 ≤ s := by
  have hint : s.toInt ≠ 0 := fun h => hne (Int64.toInt_inj.mp h)
  rw [Int64.le_iff_toInt_le, Int64.toInt_zero] at hs
  rw [Int64.le_iff_toInt_le, Int64.toInt_one]
  omega

/-- Plain dice are refused for their sides or for their number, and for nothing else. -/
theorem Pool.check_plain (config : Config) (hn : 0 ≤ n) (hs : 0 ≤ s) :
    check config (.int n) (.int s) [] =
      if s = 0 then .error (.invalidDice (.int n) (.int s))
      else if config.maxDice < n.toInt.toNat then .error (.tooManyDice n config.maxDice)
      else .ok (n.toInt.toNat, s) := by
  by_cases hzero : s = 0
  · rw [if_pos hzero]
    refine check_of_not_isSpec ?_
    rintro ⟨k, l, -, hl, -, hpos⟩
    cases hl
    rw [hzero] at hpos
    exact absurd hpos (by decide)
  · have hspec : IsSpec (.int n) (.int s) n s := ⟨rfl, rfl, hn, Int64.one_le_of_ne_zero hs hzero⟩
    rw [if_neg hzero, check_of_isSpec hspec]
    rfl

/-- The result of plain dice that show the faces. -/
def plainResult (n s : Int64) (faces : List Int64) (total : Int64) : RollResult :=
  ⟨plainText n s, .int total,
    [⟨plainText n s, s, faces.map (Die.drawn s .kept), total, false⟩]⟩

section

variable {σ : Type} [Source σ] {t t' : Tray σ}

/-- Plain dice are drawn and then added up. -/
theorem roll_plain (t : Tray σ) : t.roll ((Expr.plain n s).roll config resolve) =
    t.roll (do
      let p ← Pool.roll config (.int n) (.int s) []
      let g ← p.group (plainText n s)
      pure ⟨plainText n s, .int g.value, [g]⟩) := by
  simp only [Expr.roll, Expr.plain, Expr.eval, pure_bind, bind_assoc, ← Expr.text_plain]
  rfl

theorem value?_ofFaces {faces : List Int64} (hone : ∀ face ∈ faces, 1 ≤ face.toInt) :
    (Pool.ofFaces s faces).value? = checked (faces.map (·.toInt)).sum := by
  rw [Pool.value?_of_success_eq_none rfl (Pool.one_le_of_mem_drawn hone), Pool.ofFaces,
    Pool.keptSum_drawn]

/-- Plain dice that are refused are not drawn. -/
theorem roll_plain_of_refused {e : EvalError}
    (h : Pool.check config (.int n) (.int s) [] = .error e) (t : Tray σ) :
    t.roll ((Expr.plain n s).roll config resolve) = (.error e, t) := by
  rw [roll_plain, Tray.roll_bind_of_error (Pool.roll_of_check_eq_error h t)]

/-- Plain dice that are drawn come to the sum of their faces, if it is in range. -/
theorem roll_plain_of_draws {faces : List Int64}
    (hcheck : Pool.check config (.int n) (.int s) [] = .ok (faces.length, s))
    (hdraws : t.Draws s faces t') : t.roll ((Expr.plain n s).roll config resolve) =
      match checked (faces.map (·.toInt)).sum with
      | some total => (.ok (plainResult n s faces total), t')
      | none => (.error .overflow, t') := by
  have hpool : t.roll (Pool.roll config (.int n) (.int s) []) =
      (.ok (Pool.ofFaces s faces), t') :=
    Pool.roll_eq_ok_iff.mpr ⟨_, s, faces, t', hcheck, Rolling.drawFaces_of_draws hdraws, rfl⟩
  have heval : t.roll ((Expr.plain n s).eval config resolve) = _ := Expr.roll_dice rfl rfl hpool
  rw [Expr.roll, Tray.roll_bind, heval, value?_ofFaces hdraws.one_le, ← Expr.plain,
    Expr.text_plain]
  cases checked (faces.map (·.toInt)).sum <;> rfl

/-- Plain dice that come to a result have been drawn, and it is that of their faces. -/
theorem exists_draws_of_roll_plain {r : RollResult}
    (h : t.roll ((Expr.plain n s).roll config resolve) = (.ok r, t')) :
    ∃ faces total, faces.length = n.toInt.toNat ∧ t.Draws s faces t' ∧
      total.toInt = (faces.map (·.toInt)).sum ∧ r = plainResult n s faces total := by
  rw [roll_plain] at h
  obtain ⟨p, t₁, hpool, h⟩ := Tray.roll_bind_eq_ok_iff.mp h
  obtain ⟨g, t₂, hgroup, h⟩ := Tray.roll_bind_eq_ok_iff.mp h
  obtain ⟨rfl, rfl⟩ := Tray.roll_pure_eq_ok_iff.mp h
  obtain ⟨rfl, total, hvalue, rfl⟩ := Pool.roll_group_eq_ok_iff.mp hgroup
  obtain ⟨k, s', faces, t₃, hcheck, hfaces, hfold⟩ := Pool.roll_eq_ok_iff.mp hpool
  obtain ⟨rfl, rfl⟩ := Tray.roll_pure_eq_ok_iff.mp hfold
  obtain ⟨n', hspec, hk, -, -⟩ := Pool.check_eq_ok_iff.mp hcheck
  obtain ⟨hn', hs', -, -⟩ := Pool.spec_eq_ok_iff.mp hspec
  cases hn'
  cases hs'
  obtain ⟨hlength, hdraws⟩ := Rolling.draws_of_drawFaces hfaces
  rw [value?_ofFaces hdraws.one_le] at hvalue
  exact ⟨faces, total, hlength.trans hk.symm, hdraws, checked_eq_some_iff.mp hvalue, rfl⟩

/-- Drawn faces add up to at least one for each die, and to no more than all its sides. -/
theorem Tray.Draws.sum_bounds {faces : List Int64} (h : t.Draws s faces t') :
    faces.length ≤ (faces.map (·.toInt)).sum ∧
      (faces.map (·.toInt)).sum ≤ faces.length * s.toInt := by
  have hlow := List.card_nsmul_le_sum (faces.map (·.toInt)) 1 fun x hx => by
    obtain ⟨face, hface, rfl⟩ := List.mem_map.mp hx
    exact h.one_le face hface
  have hhigh := List.sum_le_card_nsmul (faces.map (·.toInt)) s.toInt fun x hx => by
    obtain ⟨face, hface, rfl⟩ := List.mem_map.mp hx
    exact Int64.le_iff_toInt_le.mp (h.mem face hface).2
  simpa using And.intro hlow hhigh

end

/-! ## The highest faces -/

/-- The source that answers with the top of the range shows the highest face of every die. -/
theorem Highest.exists_draws (hs : 1 ≤ s) (k : Nat) (t : Tray Highest) :
    ∃ t', t.Draws s (List.replicate k s) t' := by
  induction k generalizing t with
  | zero => exact ⟨t, Tray.draws_nil t s⟩
  | succ k ih =>
    obtain ⟨t', hrest⟩ := ih (t.call 1 s).2
    have hface : t.roll (Rolling.draw s) = (.ok s, (t.call 1 s).2) :=
      Tray.roll_draw_eq_ok_iff.mpr ⟨rfl, hs, Int64.le_refl s⟩
    exact ⟨t', Tray.draws_cons_iff.mpr ⟨_, hface, hrest⟩⟩

/-- Plain dice that show their highest faces are refused, or come to the product of their number and
their sides if it is in range. -/
theorem roll_plain_highest (hn : 0 ≤ n) (hs : 0 ≤ s) (t : Tray Highest) :
    (t.roll ((Expr.plain n s).roll config resolve)).1 =
      if s = 0 then .error (.invalidDice (.int n) (.int s))
      else if config.maxDice < n.toInt.toNat then .error (.tooManyDice n config.maxDice)
      else match checked (n.toInt * s.toInt) with
        | some total => .ok (plainResult n s (List.replicate n.toInt.toNat s) total)
        | none => .error .overflow := by
  have hcheck := Pool.check_plain config hn hs
  split at hcheck
  · next hzero => rw [if_pos hzero, roll_plain_of_refused hcheck]
  · next hzero =>
    rw [if_neg hzero]
    split at hcheck
    · next hmax => rw [if_pos hmax, roll_plain_of_refused hcheck]
    · next hmax =>
      obtain ⟨t', hdraws⟩ := Highest.exists_draws (Int64.one_le_of_ne_zero hs hzero) n.toInt.toNat t
      have hsum : ((List.replicate n.toInt.toNat s).map (·.toInt)).sum = n.toInt * s.toInt := by
        have hnat := Int.toNat_of_nonneg (Int64.le_iff_toInt_le.mp hn)
        rw [List.map_replicate, List.sum_replicate, nsmul_eq_mul, hnat]
      rw [if_neg hmax, roll_plain_of_draws (by rw [List.length_replicate, hcheck]) hdraws, hsum]
      cases checked (n.toInt * s.toInt) <;> rfl

/-! ## From the text to the result -/

theorem rollText_plainText {σ : Type} [Source σ] (hn : 0 ≤ n) (hs : 0 ≤ s) (t : Tray σ) :
    rollText config resolve (plainText n s) t =
      ((t.roll ((Expr.plain n s).roll config resolve)).1.mapError .eval,
        (t.roll ((Expr.plain n s).roll config resolve)).2) := by
  rw [rollText, ofText_plainText hn hs]

/-- A text `NdS` is rolled, with the highest face of every die, to `N` kept dice that show `S` and
make `N * S`, unless the dice have no sides, or there are more of them than allowed, or the product
is out of range. On any source, a result has `N` kept dice that show the faces drawn, in order, and
adds them up to at least `N` and at most `N * S`. -/
theorem rollText_plain (hn : 0 ≤ n) (hs : 0 ≤ s) (config : Config) :
    (∃ total : Int64,
      (n.toInt * s.toInt ≤ Int64.maxValue.toInt → total.toInt = n.toInt * s.toInt) ∧
      ∀ t : Tray Highest, (rollText config .empty (plainText n s) t).1 =
        if s = 0 then .error (.eval (.invalidDice (.int n) (.int s)))
        else if config.maxDice < n.toInt.toNat then .error (.eval (.tooManyDice n config.maxDice))
        else if Int64.maxValue.toInt < n.toInt * s.toInt then .error (.eval .overflow)
        else .ok (plainResult n s (List.replicate n.toInt.toNat s) total)) ∧
    ∀ (σ : Type) [Source σ] (t t' : Tray σ) (r : RollResult),
      rollText config .empty (plainText n s) t = (.ok r, t') →
      ∃ (faces : List Int64) (total : Int64), faces.length = n.toInt.toNat ∧
        t.Draws s faces t' ∧ total.toInt = (faces.map (·.toInt)).sum ∧
        n ≤ total ∧ total.toInt ≤ n.toInt * s.toInt ∧ r = plainResult n s faces total := by
  have hn' := Int64.le_iff_toInt_le.mp hn
  rw [Int64.toInt_zero] at hn'
  constructor
  · have hs' := Int64.le_iff_toInt_le.mp hs
    have hmin : Int64.minValue.toInt < 0 := by decide
    have hproduct := Int.mul_nonneg hn' hs'
    simp only [rollText_plainText hn hs, roll_plain_highest hn hs]
    cases hchecked : checked (n.toInt * s.toInt) with
    | none =>
      have hover := checked_eq_none_iff.mp hchecked
      refine ⟨0, fun hle => by omega, fun t => ?_⟩
      rw [if_pos (show Int64.maxValue.toInt < n.toInt * s.toInt by omega)]
      split <;> [rfl; split <;> rfl]
    | some total =>
      have htotal := checked_eq_some_iff.mp hchecked
      refine ⟨total, fun _ => htotal, fun t => ?_⟩
      rw [if_neg (Int.not_lt.mpr (htotal ▸ total.toInt_le))]
      split <;> [rfl; split <;> rfl]
  · intro σ _ t t' r h
    rw [rollText_plainText hn hs, Prod.mk.injEq, Except.mapError_eq_ok_iff] at h
    obtain ⟨faces, total, hlength, hdraws, htotal, rfl⟩ :=
      exists_draws_of_roll_plain (Prod.ext h.1 h.2)
    obtain ⟨hlow, hhigh⟩ := hdraws.sum_bounds
    rw [← htotal, hlength, Int.toNat_of_nonneg hn'] at hlow hhigh
    exact ⟨faces, total, hlength, hdraws, htotal, Int64.le_iff_toInt_le.mpr hlow, hhigh, rfl⟩

/-- One die with as many sides as there can be is just in range, and two with half as many are just
out of range. -/
theorem rollText_plain_limits :
    ((0 : Int64) ≤ 1 ∧ 0 ≤ Int64.maxValue) ∧
    (rollText default .empty "1d9223372036854775807" (.ofSource Highest.mk)).1 =
      .ok (plainResult 1 Int64.maxValue [Int64.maxValue] Int64.maxValue) ∧
    (rollText default .empty "2d4611686018427387904" (.ofSource Highest.mk)).1 =
      .error (.eval .overflow) ∧
    (rollText default .empty "1001d0" (.ofSource Highest.mk)).1 =
      .error (.eval (.invalidDice (.int 1001) (.int 0))) ∧
    (rollText default .empty "1001d6" (.ofSource Highest.mk)).1 =
      .error (.eval (.tooManyDice 1001 1000)) := by
  obtain ⟨⟨total, htotal, hlargest⟩, -⟩ :=
    @rollText_plain 1 Int64.maxValue (by decide) (by decide) default
  obtain rfl : total = Int64.maxValue := Int64.toInt_inj.mp (htotal (by decide))
  obtain ⟨⟨_, -, hover⟩, -⟩ :=
    @rollText_plain 2 4611686018427387904 (by decide) (by decide) default
  obtain ⟨⟨_, -, hsides⟩, -⟩ := @rollText_plain 1001 0 (by decide) (by decide) default
  obtain ⟨⟨_, -, hcount⟩, -⟩ := @rollText_plain 1001 6 (by decide) (by decide) default
  exact ⟨by decide, hlargest _, hover _, hsides _, hcount _⟩

end Tabletop
