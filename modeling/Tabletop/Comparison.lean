/-!
# Comparisons

A comparison such as `<2` or `>=5` is a condition on the face of a die. `accepts` tests one face,
and `acceptsEvery` tests all faces of a die at once, from the threshold alone
(`Comparison.acceptsEvery_iff`).
-/

namespace Tabletop

/-- The way a face is compared with a threshold. -/
inductive Relation where
  | lt
  | le
  | gt
  | ge
  | eq
deriving DecidableEq, Repr, Inhabited

namespace Relation

/-- The relation between two integers. -/
def holds : Relation → Int64 → Int64 → Bool
  | lt, x, y => x < y
  | le, x, y => x ≤ y
  | gt, x, y => y < x
  | ge, x, y => y ≤ x
  | eq, x, y => x == y

/-- How the relation is written. -/
def symbol : Relation → String
  | lt => "<"
  | le => "<="
  | gt => ">"
  | ge => ">="
  | eq => "="

/-- A relation between 64-bit integers is that between the integers they stand for. -/
theorem holds_iff (r : Relation) (x y : Int64) : r.holds x y = true ↔
    match r with
    | .lt => x.toInt < y.toInt
    | .le => x.toInt ≤ y.toInt
    | .gt => y.toInt < x.toInt
    | .ge => y.toInt ≤ x.toInt
    | .eq => x.toInt = y.toInt := by
  cases r <;> simp [holds, Int64.lt_iff_toInt_lt, Int64.le_iff_toInt_le, ← Int64.toInt_inj]

end Relation

/-- A condition on a face: the relation, and the threshold on its right. -/
structure Comparison where
  relation : Relation
  threshold : Int64
deriving DecidableEq, Repr, Inhabited

namespace Comparison

/-- The condition that a face is a given one. -/
def equalTo (threshold : Int64) : Comparison :=
  ⟨.eq, threshold⟩

/-- The face meets the condition. -/
def accepts (c : Comparison) (face : Int64) : Bool :=
  c.relation.holds face c.threshold

/-- Every face of a die with `sides` faces is accepted, and there is at least one. -/
def acceptsEvery (c : Comparison) (sides : Int64) : Bool :=
  1 ≤ sides &&
    match c.relation with
    | .lt => sides < c.threshold
    | .le => sides ≤ c.threshold
    | .gt => c.threshold < 1
    | .ge => c.threshold ≤ 1
    | .eq => sides == 1 && c.threshold == 1

/-- Testing the threshold is testing every face. -/
theorem acceptsEvery_iff {c : Comparison} {sides : Int64} :
    c.acceptsEvery sides = true ↔
      1 ≤ sides.toInt ∧
        ∀ face : Int64, 1 ≤ face.toInt → face.toInt ≤ sides.toInt → c.accepts face = true := by
  obtain ⟨r, t⟩ := c
  have h1 : (1 : Int64).toInt = 1 := rfl
  simp only [acceptsEvery, accepts, Relation.holds_iff, Bool.and_eq_true, decide_eq_true_eq,
    Int64.le_iff_toInt_le, h1]
  refine and_congr_right fun hs => ?_
  cases r
  case lt =>
    simp only [decide_eq_true_eq, Int64.lt_iff_toInt_lt]
    exact ⟨fun h f _ hf => by omega, fun h => h sides hs (by omega)⟩
  case le =>
    simp only [decide_eq_true_eq]
    exact ⟨fun h f _ hf => by omega, fun h => h sides hs (by omega)⟩
  case gt =>
    simp only [decide_eq_true_eq, Int64.lt_iff_toInt_lt, h1]
    exact ⟨fun h f _ hf => by omega, fun h => h 1 (by simp [h1]) (by omega)⟩
  case ge =>
    simp only [decide_eq_true_eq]
    exact ⟨fun h f _ hf => by omega, fun h => h 1 (by simp [h1]) (by omega)⟩
  case eq =>
    simp only [Bool.and_eq_true, beq_iff_eq, ← Int64.toInt_inj, h1]
    constructor
    · rintro ⟨h, h'⟩ f _ _
      omega
    · intro h
      have ha := h 1 (by simp [h1]) (by omega)
      have hb := h sides hs (by omega)
      omega

instance : ToString Comparison where
  toString c := c.relation.symbol ++ toString c.threshold

end Comparison

end Tabletop
