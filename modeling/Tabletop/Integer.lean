/-!
# Notation integers

The numbers of the notation, the faces of dice and the totals are 64-bit signed integers
(`Int64`). A sum or a product is first taken over `Int` and then brought back:

* `checked n`: the 64-bit integer equal to `n`, or `none` if there is none (`checked_eq_some_iff`).
* `clamped n`: the 64-bit integer nearest to `n`.
-/

namespace Tabletop

/-- The 64-bit integer equal to `n`, if there is one. -/
def checked (n : Int) : Option Int64 :=
  if h : Int64.minValue.toInt ≤ n ∧ n ≤ Int64.maxValue.toInt then
    some (Int64.ofIntLE n h.1 h.2)
  else
    none

/-- The 64-bit integer nearest to `n`. -/
def clamped (n : Int) : Int64 :=
  Int64.ofIntClamp n

theorem checked_eq_some_iff {n : Int} {x : Int64} : checked n = some x ↔ x.toInt = n := by
  unfold checked
  split
  · next h =>
    rw [Option.some.injEq]
    constructor
    · rintro rfl; exact Int64.toInt_ofIntLE
    · rintro rfl; exact Int64.ofIntLE_toInt x
  · next h =>
    constructor
    · intro he; cases he
    · rintro rfl; exact absurd ⟨x.minValue_le_toInt, x.toInt_le⟩ h

@[simp] theorem checked_toInt (x : Int64) : checked x.toInt = some x :=
  checked_eq_some_iff.mpr rfl

theorem checked_eq_none_iff {n : Int} :
    checked n = none ↔ n < Int64.minValue.toInt ∨ Int64.maxValue.toInt < n := by
  unfold checked
  split
  · next h => simp only [reduceCtorEq, false_iff]; omega
  · next h => simp only [true_iff]; omega

/-- Clamping does nothing to an integer in range. -/
theorem clamped_of_checked {n : Int} {x : Int64} (h : checked n = some x) : clamped n = x := by
  rw [← checked_eq_some_iff.mp h]
  exact Int64.ofIntClamp_toInt x

/-- A natural number is cut off at the largest integer. -/
theorem toInt_clamped {n : Int} (h : 0 ≤ n) : (clamped n).toInt = min n Int64.maxValue.toInt := by
  have hmin : Int64.minValue.toInt ≤ n := Int.le_trans (by decide) h
  unfold clamped Int64.ofIntClamp
  rw [dif_pos hmin]
  split
  · next hmax => rw [Int64.toInt_ofIntLE, Int.min_eq_left hmax]
  · next hmax => rw [Int.min_eq_right (by omega)]

end Tabletop
