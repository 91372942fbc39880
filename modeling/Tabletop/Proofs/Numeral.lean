import Tabletop.Numeral

/-!
# Written numbers

The text of a number that is not negative is a run of digits, and is read as the number.

* `int64?_nonneg`: no run of digits is read as a negative number.
* `int64?_toString`, `uint64?_toString`: a written number is read back.
-/

namespace Tabletop.Numeral

variable {bound : Nat} {cs : List Char}

theorem integer?_of_digits (hne : cs ≠ []) (hd : ∀ c ∈ cs, c.isDigit = true) :
    integer? bound cs = (digits? bound cs).map Int.ofNat := by
  obtain ⟨c, cs, rfl⟩ := List.exists_cons_of_ne_nil hne
  have hc := hd c List.mem_cons_self
  unfold integer?
  split
  · next h => cases h; cases hc
  · next h => cases h; cases hc
  · rfl

theorem natural?_of_digits (hne : cs ≠ []) (hd : ∀ c ∈ cs, c.isDigit = true) :
    natural? bound cs = digits? bound cs := by
  obtain ⟨c, cs, rfl⟩ := List.exists_cons_of_ne_nil hne
  have hc := hd c List.mem_cons_self
  unfold natural?
  split
  · next h => cases h; cases hc
  · rfl

/-- A run of digits is no negative number. -/
theorem int64?_nonneg {text : String} {n : Int64} (hne : text.toList ≠ [])
    (hd : ∀ c ∈ text.toList, c.isDigit = true) (h : int64? text = some n) : 0 ≤ n := by
  rw [int64?, integer?_of_digits hne hd, Option.bind_map, Option.bind_eq_some_iff] at h
  obtain ⟨m, -, h⟩ := h
  have hm : n.toInt = (m : Int) := checked_eq_some_iff.mp h
  rw [Int64.le_iff_toInt_le, hm]
  exact Int.natCast_nonneg m

/-! ## Numbers as texts -/

theorem toList_toString_int64 {n : Int64} {m : Nat} (h : n.toInt = m) :
    (toString n).toList = Nat.toDigits 10 m := by
  have hn : toString n = toString (m : Int) := by
    rw [← h]
    rfl
  rw [hn, ← Nat.toList_repr]
  rfl

theorem toList_toString_uint64 (n : UInt64) :
    (toString n).toList = Nat.toDigits 10 n.toNat := by
  rw [← Nat.toList_repr]
  rfl

theorem isDigit_of_mem_toDigits {n : Nat} : ∀ c ∈ Nat.toDigits 10 n, c.isDigit = true :=
  fun _ => Nat.isDigit_of_mem_toDigits (by decide) (by decide)

theorem exists_toNat_of_nonneg {n : Int64} (h : 0 ≤ n) : ∃ m : Nat, n.toInt = m :=
  Int.eq_ofNat_of_zero_le (Int64.le_iff_toInt_le.mp h)

theorem int64?_toString {n : Int64} (h : 0 ≤ n) : int64? (toString n) = some n := by
  obtain ⟨m, hm⟩ := exists_toNat_of_nonneg h
  have hlt : m < UInt64.size := by
    have hle := n.toInt_le
    have hmax : Int64.maxValue.toInt = 9223372036854775807 := rfl
    have hsize : UInt64.size = 18446744073709551616 := rfl
    omega
  rw [int64?, toList_toString_int64 hm, integer?_of_digits (by simp) isDigit_of_mem_toDigits,
    digits?_toDigits hlt]
  exact checked_eq_some_iff.mpr hm

theorem uint64?_toString (n : UInt64) : uint64? (toString n) = some n := by
  rw [uint64?, toList_toString_uint64, natural?_of_digits (by simp) isDigit_of_mem_toDigits,
    digits?_toDigits n.toNat_lt]
  simp

end Tabletop.Numeral
