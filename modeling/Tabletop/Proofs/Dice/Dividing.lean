import Tabletop.Proofs.Dice.Exact

/-!
# Exact division

The two ways to divide agree on quotients that are 64-bit integers. An evaluation that drops
fractions where there are none is the same evaluation, draw by draw, as one that keeps them.

* `Number.Whole m n`: the quotient of `m` and `n` is a 64-bit integer.
* `Number.div?_decimal_eq_truncate_iff`: just there the two ways agree.
* `Expr.Reaches`: the parts that an evaluation comes to.
* `Expr.dividesExactly_binary_iff` and the like: the divisions of an expression are those of its
  operands and its own.
* `Expr.roll_decimal_eq_truncate`: where every division is exact, the two ways agree.
-/

namespace Tabletop

/-! ## Quotients -/

/-- Of all quotients without their fraction one alone is no 64-bit integer. -/
theorem checked_tdiv_eq_none_iff {m n : Int64} :
    checked (m.toInt.tdiv n.toInt) = none ↔ m = Int64.minValue ∧ n = -1 := by
  have hmin : Int64.minValue.toInt = -2 ^ 63 := by decide
  have hmax : Int64.maxValue.toInt = 2 ^ 63 - 1 := by decide
  have hlow := m.minValue_le_toInt
  have hhigh := m.toInt_le
  rw [checked_eq_none_iff, hmin, hmax, ← Int64.toInt_inj, ← @Int64.toInt_inj n, hmin]
  rw [hmin] at hlow
  rw [hmax] at hhigh
  change _ ↔ _ ∧ n.toInt = -1
  by_cases hneg : n.toInt = -1
  · rw [hneg, Int.tdiv_neg, Int.tdiv_one]
    omega
  · have hle : (m.toInt.tdiv n.toInt).natAbs ≤ m.toInt.natAbs := Int.natAbs_tdiv_le_natAbs _ _
    have hone : n.toInt = 1 → m.toInt.tdiv n.toInt = m.toInt := by
      intro hone
      rw [hone, Int.tdiv_one]
    have hhalf : 2 ≤ n.toInt.natAbs →
        (m.toInt.tdiv n.toInt).natAbs ≤ m.toInt.natAbs / 2 := by
      intro htwo
      rw [Int.natAbs_tdiv]
      exact Nat.div_le_div_left htwo (by decide)
    have hzero : n.toInt = 0 → m.toInt.tdiv n.toInt = 0 := by
      intro hzero
      rw [hzero, Int.tdiv_zero]
    omega

namespace Number

/-- The quotient has no fraction, and it is not the one that is too large. -/
def Whole (m n : Int64) : Prop :=
  m.toInt.tmod n.toInt = 0 ∧ ¬(m = Int64.minValue ∧ n = -1)

/-- The two ways to divide integers agree just on the quotients that are 64-bit integers. -/
theorem div?_decimal_eq_truncate_iff {m n : Int64} :
    (int m).div? .decimal (int n) = (int m).div? .truncate (int n) ↔ Whole m n := by
  rw [Whole, ← checked_tdiv_eq_none_iff]
  cases hquotient : checked (m.toInt.tdiv n.toInt) with
  | none => simp [div?, hquotient]
  | some q =>
    by_cases hrest : m.toInt.tmod n.toInt = 0 <;> simp [div?, div?.quotient, hquotient, hrest]

end Number

/-- The configuration with this way to divide. -/
def Config.dividing (config : Config) (division : Division) : Config :=
  { config with division }

namespace Expr

variable {σ : Type} [Source σ]

/-! ## The parts that an evaluation comes to -/

/-- The evaluation of `e` on the tray `t` comes to its part `e'` with the tray `t'`: what is
evaluated before that part has a value. -/
inductive Reaches (config : Config) (resolve : Resolver) :
    (t : Tray σ) → (e : Expr) → (t' : Tray σ) → (e' : Expr) → Prop
  | refl {t : Tray σ} {e : Expr} : Reaches config resolve t e t e
  | count {t t' : Tray σ} {count sides e : Expr} {ms : List Modifier}
    (h : Reaches config resolve t count t' e) : Reaches config resolve t (dice count sides ms) t' e
  | sides {t t₁ t' : Tray σ} {count sides e : Expr} {ms : List Modifier} {n : Number}
    {groups : List DiceGroup} (hcount : t.roll (count.eval config resolve) = (.ok (n, groups), t₁))
    (h : Reaches config resolve t₁ sides t' e) : Reaches config resolve t (dice count sides ms) t' e
  | group {t t' : Tray σ} {inner e : Expr} (h : Reaches config resolve t inner t' e) :
    Reaches config resolve t (group inner) t' e
  | unary {t t' : Tray σ} {op : UnaryOp} {operand e : Expr}
    (h : Reaches config resolve t operand t' e) : Reaches config resolve t (unary op operand) t' e
  | left {t t' : Tray σ} {op : BinaryOp} {l r e : Expr} (h : Reaches config resolve t l t' e) :
    Reaches config resolve t (binary op l r) t' e
  | right {t t₁ t' : Tray σ} {op : BinaryOp} {l r e : Expr} {x : Number} {groups : List DiceGroup}
    (hleft : t.roll (l.eval config resolve) = (.ok (x, groups), t₁))
    (h : Reaches config resolve t₁ r t' e) : Reaches config resolve t (binary op l r) t' e

/-- If both operands have integer values on this tray, the right one behind the left, then the
divisor is zero or the quotient is whole. -/
def QuotientWhole (config : Config) (resolve : Resolver) (t : Tray σ) (l r : Expr) : Prop :=
  ∀ (m n : Int64) (gs gs' : List DiceGroup) (t₁ t₂ : Tray σ),
    t.roll (l.eval config resolve) = (.ok (.int m, gs), t₁) →
    t₁.roll (r.eval config resolve) = (.ok (.int n, gs'), t₂) → n = 0 ∨ Number.Whole m n

theorem quotientWhole_iff {config : Config} {resolve : Resolver} {t t₁ t₂ : Tray σ} {l r : Expr}
    {m n : Int64} {gs gs' : List DiceGroup}
    (hl : t.roll (l.eval config resolve) = (.ok (.int m, gs), t₁))
    (hr : t₁.roll (r.eval config resolve) = (.ok (.int n, gs'), t₂)) :
    QuotientWhole config resolve t l r ↔ n = 0 ∨ Number.Whole m n := by
  constructor
  · exact fun h => h m n gs gs' t₁ t₂ hl hr
  · intro h m' n' gs₁ gs₂ t₁' t₂' hl' hr'
    rw [hl] at hl'
    cases hl'
    rw [hr] at hr'
    cases hr'
    exact h

/-- Of the divisions that the evaluation comes to, those whose operands have values are by zero or
have whole quotients. -/
def DividesExactly (config : Config) (resolve : Resolver) (t : Tray σ) (e : Expr) : Prop :=
  ∀ (t' : Tray σ) (l r : Expr), Reaches config resolve t e t' (binary .div l r) →
    QuotientWhole config resolve t' l r

section

variable {config : Config} {resolve : Resolver} {t : Tray σ}

theorem dividesExactly_literal (n : Int64) : (literal n).DividesExactly config resolve t := by
  intro t' l r h
  cases h

theorem dividesExactly_reference (r : Reference) :
    (reference r).DividesExactly config resolve t := by
  intro t' l r h
  cases h

theorem dividesExactly_dice_iff {count sides : Expr} {ms : List Modifier} :
    (dice count sides ms).DividesExactly config resolve t ↔
      count.DividesExactly config resolve t ∧
      ∀ n groups t₁, t.roll (count.eval config resolve) = (.ok (n, groups), t₁) →
        sides.DividesExactly config resolve t₁ := by
  constructor
  · exact fun h => ⟨fun t' l r hr => h t' l r hr.count,
      fun n groups t₁ hcount t' l r hr => h t' l r (hr.sides hcount)⟩
  · rintro ⟨hcount, hsides⟩ t' l r h
    cases h with
    | count h => exact hcount t' l r h
    | sides hn h => exact hsides _ _ _ hn t' l r h

theorem dividesExactly_group_iff {e : Expr} :
    (group e).DividesExactly config resolve t ↔ e.DividesExactly config resolve t := by
  constructor
  · exact fun h t' l r hr => h t' l r hr.group
  · intro he t' l r h
    cases h with
    | group h => exact he t' l r h

theorem dividesExactly_unary_iff {op : UnaryOp} {e : Expr} :
    (unary op e).DividesExactly config resolve t ↔ e.DividesExactly config resolve t := by
  constructor
  · exact fun h t' l r hr => h t' l r hr.unary
  · intro he t' l r h
    cases h with
    | unary h => exact he t' l r h

theorem dividesExactly_binary_iff {op : BinaryOp} {l r : Expr} :
    (binary op l r).DividesExactly config resolve t ↔
      l.DividesExactly config resolve t ∧
      (∀ x groups t₁, t.roll (l.eval config resolve) = (.ok (x, groups), t₁) →
        r.DividesExactly config resolve t₁) ∧
      (op = .div → QuotientWhole config resolve t l r) := by
  constructor
  · intro h
    refine ⟨fun t' l' r' hr => h t' l' r' hr.left,
      fun x groups t₁ hl t' l' r' hr => h t' l' r' (hr.right hl), ?_⟩
    rintro rfl
    exact h t l r .refl
  · rintro ⟨hl, hr, hown⟩ t' l' r' h
    cases h with
    | refl => exact hown rfl
    | left h => exact hl t' l' r' h
    | right hx h => exact hr _ _ _ hx t' l' r' h

end

/-! ## The two ways to divide -/

omit [Source σ] in
/-- No operation but division depends on the way to divide, and division by zero does not. -/
theorem applyBinary_decimal_eq_truncate {op : BinaryOp} {m n : Int64}
    (h : op = .div → n = 0 ∨ Number.Whole m n) :
    (applyBinary .decimal op (.int m) (.int n) : Rolling σ Number) =
      applyBinary .truncate op (.int m) (.int n) := by
  cases op with
  | add => rfl
  | sub => rfl
  | mul => rfl
  | div =>
    rcases h rfl with rfl | hwhole
    · rfl
    · simp only [applyBinary, Number.div?_decimal_eq_truncate_iff.mpr hwhole]

variable {config : Config} {resolve : Resolver} {t : Tray σ}

/-- Where every division is exact, the values, the groups and the calls are the same in both ways
to divide, and so are the errors. -/
theorem eval_decimal_eq_truncate {e : Expr}
    (h : e.DividesExactly (config.dividing .truncate) resolve t) :
    t.roll (e.eval (config.dividing .decimal) resolve) =
      t.roll (e.eval (config.dividing .truncate) resolve) := by
  induction e generalizing t with
  | literal n => rfl
  | reference r => rfl
  | dice count sides ms ihc ihs =>
    obtain ⟨hcount, hsides⟩ := dividesExactly_dice_iff.mp h
    rw [eval, eval, Tray.roll_bind, Tray.roll_bind, ihc hcount]
    rcases hn : t.roll (count.eval (config.dividing .truncate) resolve) with ⟨_ | ⟨n, gs⟩, t₁⟩
    · rfl
    · dsimp only
      rw [Tray.roll_bind, Tray.roll_bind, ihs (hsides n gs t₁ hn)]
      -- what is left rolls the pool, and no pool divides
      rfl
  | group e ih => exact ih (dividesExactly_group_iff.mp h)
  | unary op e ih =>
    rw [eval, eval, Tray.roll_bind, Tray.roll_bind, ih (dividesExactly_unary_iff.mp h)]
  | binary op l r ihl ihr =>
    obtain ⟨hleft, hright, hown⟩ := dividesExactly_binary_iff.mp h
    rw [eval, eval, Tray.roll_bind, Tray.roll_bind, ihl hleft]
    rcases hl : t.roll (l.eval (config.dividing .truncate) resolve) with ⟨_ | ⟨x, gs⟩, t₁⟩
    · rfl
    · dsimp only
      rw [Tray.roll_bind, Tray.roll_bind, ihr (hright x gs t₁ hl)]
      rcases hr : t₁.roll (r.eval (config.dividing .truncate) resolve) with ⟨_ | ⟨y, gs'⟩, t₂⟩
      · rfl
      · obtain ⟨m, rfl, -⟩ := eval_exact rfl hl
        obtain ⟨n, rfl, -⟩ := eval_exact rfl hr
        have happly : (applyBinary .decimal op (.int m) (.int n) : Rolling σ Number) =
            applyBinary .truncate op (.int m) (.int n) :=
          applyBinary_decimal_eq_truncate fun hdiv => (quotientWhole_iff hl hr).mp (hown hdiv)
        dsimp only [Config.dividing]
        rw [happly]

/-- Where every division that the evaluation comes to is by zero or exact, the two ways to divide
agree: in both the same calls are made, and the result is the same, with an integer total, or the
error is. -/
theorem roll_decimal_eq_truncate (config : Config) (resolve : Resolver) (e : Expr) (t : Tray σ)
    (h : e.DividesExactly (config.dividing .truncate) resolve t) :
    t.roll (e.roll (config.dividing .decimal) resolve) =
      t.roll (e.roll (config.dividing .truncate) resolve) ∧
    ∀ (result : RollResult) (t' : Tray σ),
      t.roll (e.roll (config.dividing .decimal) resolve) = (.ok result, t') →
      ∃ v : Int64, result.total = .int v := by
  have hsame : t.roll (e.roll (config.dividing .decimal) resolve) =
      t.roll (e.roll (config.dividing .truncate) resolve) := by
    rw [roll, roll, Tray.roll_bind, Tray.roll_bind, eval_decimal_eq_truncate h]
  refine ⟨hsame, fun result t' hresult => ?_⟩
  rw [hsame] at hresult
  obtain ⟨⟨x, groups⟩, t₁, heval, hpure⟩ := Tray.roll_bind_eq_ok_iff.mp hresult
  obtain ⟨rfl, -⟩ := Tray.roll_pure_eq_ok_iff.mp hpure
  obtain ⟨v, hx, -⟩ := eval_exact rfl heval
  exact ⟨v, hx⟩

/-- Exact divisions in the count and in the sides of dice, and one of the dice by a reference. -/
theorem roll_decimal_eq_truncate_dice : ∃ (e : Expr) (resolve : Resolver) (t t' : Tray Script)
    (result : RollResult),
    e = binary .div (dice (group (binary .div (literal 4) (literal 2)))
      (group (binary .div (literal 18) (literal 3))) []) (reference ⟨.named, "parts"⟩) ∧
    resolve ⟨.named, "parts"⟩ = some 5 ∧ t = .ofSource (Script.ofList [4, 6]) ∧
    e.DividesExactly ((default : Config).dividing .truncate) resolve t ∧
    t.roll (e.roll ((default : Config).dividing .truncate) resolve) = (.ok result, t') ∧
    t.roll (e.roll ((default : Config).dividing .decimal) resolve) = (.ok result, t') ∧
    result.total = .int 2 := by
  have hcount : (group (binary .div (literal 4) (literal 2))).DividesExactly
      ((default : Config).dividing .truncate) (fun _ => some 5)
      (.ofSource (Script.ofList [4, 6]) : Tray Script) := by
    refine dividesExactly_group_iff.mpr (dividesExactly_binary_iff.mpr
      ⟨dividesExactly_literal 4, fun _ _ _ _ => dividesExactly_literal 2, fun _ => ?_⟩)
    exact (quotientWhole_iff rfl rfl).mpr (.inr ⟨by decide, by decide⟩)
  have hsides : ∀ t : Tray Script, (group (binary .div (literal 18) (literal 3))).DividesExactly
      ((default : Config).dividing .truncate) (fun _ => some 5) t := by
    refine fun t => dividesExactly_group_iff.mpr (dividesExactly_binary_iff.mpr
      ⟨dividesExactly_literal 18, fun _ _ _ _ => dividesExactly_literal 3, fun _ => ?_⟩)
    exact (quotientWhole_iff rfl rfl).mpr (.inr ⟨by decide, by decide⟩)
  have hexact : (binary .div (dice (group (binary .div (literal 4) (literal 2)))
      (group (binary .div (literal 18) (literal 3))) [])
      (reference ⟨.named, "parts"⟩)).DividesExactly
      ((default : Config).dividing .truncate) (fun _ => some 5)
      (.ofSource (Script.ofList [4, 6]) : Tray Script) := by
    refine dividesExactly_binary_iff.mpr
      ⟨dividesExactly_dice_iff.mpr ⟨hcount, fun _ _ t₁ _ => hsides t₁⟩,
        fun _ _ _ _ => dividesExactly_reference _, fun _ => ?_⟩
    exact (quotientWhole_iff rfl rfl).mpr (.inr ⟨by decide, by decide⟩)
  obtain ⟨hsame, -⟩ := roll_decimal_eq_truncate default (fun _ => some 5) _ _ hexact
  exact ⟨_, _, _, _, _, rfl, rfl, rfl, hexact, rfl, hsame.trans rfl, rfl⟩

end Expr

end Tabletop
