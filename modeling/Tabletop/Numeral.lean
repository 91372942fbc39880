import Tabletop.Integer

/-!
# Numerals

Reading integers from text. A numeral is a run of ASCII digits; a signed one may start with `+`
or `-`, an unsigned one with `+`. A text of any other form, and a number out of range, reads as
`none`. Numbers are read up to a bound, and reading stops where the bound is reached, so that a long
numeral costs no more than its length.

* `digits?_eq_some_iff`: what is read is the number that the digits stand for.
* `digits?_toDigits`: writing a natural number and reading it gives it back.
-/

namespace Tabletop.Numeral

/-- The number that a digit makes of the digits before it. -/
def digit? (bound : Nat) (n : Nat) (c : Char) : Option Nat :=
  let n := 10 * n + (c.toNat - '0'.toNat)
  if c.isDigit && n < bound then some n else none

/-- The number that a non-empty run of ASCII digits stands for, if it is below `bound`. -/
def digits? (bound : Nat) (cs : List Char) : Option Nat :=
  if cs.isEmpty then none else cs.foldlM (digit? bound) 0

/-- An integer with an optional sign, of a magnitude below `bound`. -/
def integer? (bound : Nat) : List Char → Option Int
  | '-' :: cs => (digits? bound cs).map fun n => -(n : Int)
  | '+' :: cs => (digits? bound cs).map Int.ofNat
  | cs => (digits? bound cs).map Int.ofNat

/-- A natural number with an optional `+`, below `bound`. -/
def natural? (bound : Nat) : List Char → Option Nat
  | '+' :: cs => digits? bound cs
  | cs => digits? bound cs

/-- A numeral of a notation integer. -/
def int64? (text : String) : Option Int64 :=
  (integer? UInt64.size text.toList).bind checked

/-- A numeral of an unsigned 64-bit integer. -/
def uint64? (text : String) : Option UInt64 :=
  (natural? UInt64.size text.toList).map UInt64.ofNat

/-! ## What is read -/

theorem le_ofDigitChars (cs : List Char) (n : Nat) : n ≤ Nat.ofDigitChars 10 cs n := by
  induction cs generalizing n with
  | nil => exact Nat.le_refl n
  | cons c cs ih =>
    rw [Nat.ofDigitChars_cons]
    exact Nat.le_trans (by omega) (ih _)

theorem foldlM_digit?_eq_some_iff {bound : Nat} {cs : List Char} {m n : Nat} (hm : m < bound) :
    cs.foldlM (digit? bound) m = some n ↔
      (∀ c ∈ cs, c.isDigit) ∧ Nat.ofDigitChars 10 cs m = n ∧ n < bound := by
  induction cs generalizing m with
  | nil =>
    simp only [List.foldlM_nil, Option.pure_def, Option.some.injEq, List.not_mem_nil,
      false_implies, implies_true, true_and]
    exact ⟨fun h => ⟨h, h ▸ hm⟩, fun h => h.1⟩
  | cons c cs ih =>
    rw [List.foldlM_cons, Nat.ofDigitChars_cons, List.forall_mem_cons]
    by_cases hd : c.isDigit = true ∧ 10 * m + (c.toNat - '0'.toNat) < bound
    · have hs : digit? bound m c = some (10 * m + (c.toNat - '0'.toNat)) := by
        simp only [digit?, Bool.and_eq_true, decide_eq_true_eq, if_pos hd]
      rw [hs, Option.bind_eq_bind, Option.bind_some, ih hd.2]
      simp [hd.1]
    · have hs : digit? bound m c = none := by
        simp only [digit?, Bool.and_eq_true, decide_eq_true_eq, if_neg hd]
      rw [hs, Option.bind_eq_bind, Option.bind_none]
      simp only [reduceCtorEq, false_iff]
      rintro ⟨⟨hc, -⟩, rfl, hn⟩
      exact hd ⟨hc, Nat.lt_of_le_of_lt (le_ofDigitChars cs _) hn⟩

/-- What is read is the number that the digits stand for, if it is below the bound. -/
theorem digits?_eq_some_iff {bound : Nat} {cs : List Char} {n : Nat} :
    digits? bound cs = some n ↔
      cs ≠ [] ∧ (∀ c ∈ cs, c.isDigit) ∧ Nat.ofDigitChars 10 cs 0 = n ∧ n < bound := by
  cases cs with
  | nil => simp [digits?]
  | cons c cs =>
    have he : digits? bound (c :: cs) = (c :: cs).foldlM (digit? bound) 0 := rfl
    by_cases hb : 0 < bound
    · rw [he, foldlM_digit?_eq_some_iff hb]
      simp
    · have h0 : bound = 0 := Nat.eq_zero_of_not_pos hb
      simp [digits?, digit?, h0]

theorem digits?_toDigits {bound n : Nat} (h : n < bound) :
    digits? bound (Nat.toDigits 10 n) = some n :=
  digits?_eq_some_iff.mpr ⟨by simp,
    fun _ hc => Nat.isDigit_of_mem_toDigits (by decide) (by decide) hc,
    Nat.ofDigitChars_ten_toDigits, h⟩

end Tabletop.Numeral
