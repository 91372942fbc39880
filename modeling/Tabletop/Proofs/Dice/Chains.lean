import Mathlib.Algebra.Order.BigOperators.Group.List
import Mathlib.Algebra.Ring.Int.Defs
import Mathlib.Data.List.Forall2
import Tabletop.Dice.Redraw
import Tabletop.Proofs.Dice.Ensures

/-!
# Chains of draws

Rerolls and compounding explosions draw a chain of faces for each die that meets their condition,
one die after the other. What comes of it is decided by the faces that the source gives, and the
equivalences here say how. They hold on every tray; an answer out of range is the one other way to
fail.

* `CompleteChain again faces`: the faces are those of a chain that has come to its end.
* `chain_eq_ok_iff`, `chain_eq_error_iff`: when a chain ends, and when it is too long.
* `growingChain_eq_ok_iff`, `growingChain_eq_tooLong_iff`, `growingChain_eq_overflow_iff`: the same
  for a chain that is added up. Of too many faces and too large a sum, the one that the draws come
  to first is reported.
* `DrawnFor c R d faces`: the faces drawn for one die of a pool. `ComesTo`: how far the drawing
  gets.
* `Chaining.extend_eq_ok_iff`, `Chaining.extend_eq_error_iff`: chains for all dice of a pool that
  meet a condition.
-/

namespace Tabletop.Pool

open Rolling

/-! ## Complete chains -/

/-- Every face but the last one is to be followed by another. -/
def CompleteChain (again : Int64 → Bool) (faces : List Int64) : Prop :=
  ∃ init last, faces = init ++ [last] ∧ (∀ face ∈ init, again face = true) ∧ again last = false

variable {again : Int64 → Bool}

theorem not_completeChain_nil : ¬CompleteChain again [] := by
  rintro ⟨init, last, h, -⟩
  simp at h

theorem CompleteChain.ne_nil {faces : List Int64} (h : CompleteChain again faces) :
    faces ≠ [] := by
  rintro rfl
  exact not_completeChain_nil h

theorem completeChain_cons_iff {face : Int64} {faces : List Int64} :
    CompleteChain again (face :: faces) ↔
      if again face = true then CompleteChain again faces else faces = [] := by
  constructor
  · rintro ⟨init, last, h, hinit, hlast⟩
    cases init with
    | nil =>
      obtain ⟨rfl, rfl⟩ := List.cons.inj h
      simp [hlast]
    | cons x init =>
      obtain ⟨rfl, rfl⟩ := List.cons.inj h
      obtain ⟨hx, hinit⟩ := List.forall_mem_cons.mp hinit
      rw [if_pos hx]
      exact ⟨init, last, rfl, hinit, hlast⟩
  · intro h
    split at h
    · next hagain =>
      obtain ⟨init, last, rfl, hinit, hlast⟩ := h
      exact ⟨face :: init, last, rfl, List.forall_mem_cons.mpr ⟨hagain, hinit⟩, hlast⟩
    · next hstop =>
      subst h
      exact ⟨[], face, rfl, by simp, by simpa using hstop⟩

theorem completeChain_singleton {face : Int64} (h : again face = false) :
    CompleteChain again [face] :=
  ⟨[], face, rfl, by simp, h⟩

/-! ## Chains -/

section Run

variable {σ : Type} [Source σ] {t t' : Tray σ} {sides : Int64} {limit n : Nat}

theorem roll_draw_ne_tooLong (t t' : Tray σ) (sides : Int64) (limit : Nat) :
    t.roll (draw sides) ≠ (.error (.chainTooLong limit), t') := by
  intro h
  obtain ⟨value, -, -, he⟩ := Tray.roll_draw_eq_error_iff.mp h
  cases he

theorem roll_draw_ne_overflow (t t' : Tray σ) (sides : Int64) :
    t.roll (draw sides) ≠ (.error .overflow, t') := by
  intro h
  obtain ⟨value, -, -, he⟩ := Tray.roll_draw_eq_error_iff.mp h
  cases he

theorem chain_eq_ok_iff {faces : List Int64} :
    t.roll (chain again sides limit n) = (.ok faces, t') ↔
      CompleteChain again faces ∧ faces.length ≤ n ∧ t.Draws sides faces t' := by
  induction n generalizing t faces with
  | zero =>
    rw [chain, Tray.roll_throw]
    constructor
    · intro h
      cases h
    · rintro ⟨hchain, hlength, -⟩
      exact absurd (List.length_eq_zero_iff.mp (Nat.le_zero.mp hlength)) hchain.ne_nil
  | succ n ih =>
    rw [chain, Tray.roll_bind_eq_ok_iff]
    constructor
    · rintro ⟨face, t₁, hface, h⟩
      split at h
      · next hagain =>
        obtain ⟨faces, t₂, hfaces, hpure⟩ := Tray.roll_bind_eq_ok_iff.mp h
        obtain ⟨rfl, rfl⟩ := Tray.roll_pure_eq_ok_iff.mp hpure
        obtain ⟨hchain, hlength, hdraws⟩ := ih.mp hfaces
        have hcons : CompleteChain again (face :: faces) :=
          completeChain_cons_iff.mpr (by rwa [if_pos hagain])
        exact ⟨hcons, Nat.succ_le_succ hlength, Tray.draws_cons_iff.mpr ⟨t₁, hface, hdraws⟩⟩
      · next hstop =>
        obtain ⟨rfl, rfl⟩ := Tray.roll_pure_eq_ok_iff.mp h
        exact ⟨completeChain_singleton (by simpa using hstop), by simp, Tray.draws_of_draw hface⟩
    · rintro ⟨hchain, hlength, hdraws⟩
      obtain ⟨face, faces, rfl⟩ := List.exists_cons_of_ne_nil hchain.ne_nil
      obtain ⟨t₁, hface, hrest⟩ := Tray.draws_cons_iff.mp hdraws
      rw [completeChain_cons_iff] at hchain
      refine ⟨face, t₁, hface, ?_⟩
      split at hchain
      · next hagain =>
        have hfaces := ih.mpr ⟨hchain, Nat.le_of_succ_le_succ hlength, hrest⟩
        rw [if_pos hagain]
        exact Tray.roll_bind_eq_ok_iff.mpr ⟨faces, t', hfaces, rfl⟩
      · next hstop =>
        subst hchain
        rw [if_neg hstop, Tray.draws_nil_iff.mp hrest, Tray.roll_pure]

/-- A chain is too long if all the faces that there may be ask for another. -/
theorem chain_eq_error_iff :
    t.roll (chain again sides limit n) = (.error (.chainTooLong limit), t') ↔
      ∃ faces, t.Draws sides faces t' ∧ faces.length = n ∧ ∀ face ∈ faces, again face = true := by
  induction n generalizing t with
  | zero =>
    rw [chain, Tray.roll_throw, Prod.mk.injEq]
    constructor
    · rintro ⟨-, rfl⟩
      exact ⟨[], Tray.draws_nil t sides, rfl, by simp⟩
    · rintro ⟨faces, hdraws, hlength, -⟩
      rw [List.length_eq_zero_iff.mp hlength, Tray.draws_nil_iff] at hdraws
      exact ⟨rfl, hdraws.symm⟩
  | succ n ih =>
    rw [chain, Tray.roll_bind_eq_error_iff]
    constructor
    · rintro (hdraw | ⟨face, t₁, hface, h⟩)
      · exact absurd hdraw (roll_draw_ne_tooLong t t' sides limit)
      · split at h
        · next hagain =>
          rcases Tray.roll_bind_eq_error_iff.mp h with hchain | ⟨faces, t₂, -, hpure⟩
          · obtain ⟨faces, hdraws, hlength, hall⟩ := ih.mp hchain
            exact ⟨face :: faces, Tray.draws_cons_iff.mpr ⟨t₁, hface, hdraws⟩,
              by rw [List.length_cons, hlength], List.forall_mem_cons.mpr ⟨hagain, hall⟩⟩
          · cases hpure
        · cases h
    · rintro ⟨faces, hdraws, hlength, hall⟩
      obtain ⟨face, faces, rfl⟩ := List.exists_cons_of_length_eq_add_one hlength
      obtain ⟨t₁, hface, hrest⟩ := Tray.draws_cons_iff.mp hdraws
      obtain ⟨hagain, hall⟩ := List.forall_mem_cons.mp hall
      have hchain := ih.mpr ⟨faces, hrest, Nat.succ.inj hlength, hall⟩
      refine .inr ⟨face, t₁, hface, ?_⟩
      rw [if_pos hagain]
      exact Tray.roll_bind_eq_error_iff.mpr (.inl hchain)

/-! ## Growing chains -/

theorem sum_nonneg_of_one_le {faces : List Int64} (h : ∀ face ∈ faces, 1 ≤ face.toInt) :
    0 ≤ (faces.map (·.toInt)).sum := by
  refine List.sum_nonneg fun x hx => ?_
  obtain ⟨face, hface, rfl⟩ := List.mem_map.mp hx
  have := h face hface
  omega

/-- Faces count from one, so a sum that is in range is so on the way. -/
theorem exists_checked_add {total face : Int64} (hface : 1 ≤ face.toInt) {rest : Int}
    (hrest : 0 ≤ rest) (h : total.toInt + (face.toInt + rest) ≤ Int64.maxValue.toInt) :
    ∃ next, checked (total.toInt + face.toInt) = some next ∧
      next.toInt = total.toInt + face.toInt := by
  have hmin := total.minValue_le_toInt
  cases hnext : checked (total.toInt + face.toInt) with
  | some next => exact ⟨next, rfl, checked_eq_some_iff.mp hnext⟩
  | none =>
    have hout := checked_eq_none_iff.mp hnext
    omega

/-- A growing chain adds its first face, and goes on behind it or ends there. -/
theorem growingChain_succ_eq_ok_iff {total sum : Int64} {faces : List Int64} :
    t.roll (growingChain again sides limit (n + 1) total) = (.ok (faces, sum), t') ↔
      ∃ face t₁ next, t.roll (draw sides) = (.ok face, t₁) ∧
        checked (total.toInt + face.toInt) = some next ∧
          if again face then ∃ rest, faces = face :: rest ∧
            t₁.roll (growingChain again sides limit n next) = (.ok (rest, sum), t')
          else faces = [face] ∧ sum = next ∧ t' = t₁ := by
  rw [growingChain, Tray.roll_bind_eq_ok_iff]
  constructor
  · rintro ⟨face, t₁, hface, hgrow⟩
    obtain ⟨next, t₂, hor, hlast⟩ := Tray.roll_bind_eq_ok_iff.mp hgrow
    obtain ⟨hchecked, rfl⟩ := Tray.roll_orOverflow_eq_ok_iff.mp hor
    refine ⟨face, t₂, next, hface, hchecked, ?_⟩
    split at hlast
    · next hagain =>
      obtain ⟨⟨rest, sum⟩, t₃, hrest, hpure⟩ := Tray.roll_bind_eq_ok_iff.mp hlast
      obtain ⟨hr, rfl⟩ := Tray.roll_pure_eq_ok_iff.mp hpure
      cases hr
      rw [if_pos hagain]
      exact ⟨rest, rfl, hrest⟩
    · next hstop =>
      obtain ⟨hr, rfl⟩ := Tray.roll_pure_eq_ok_iff.mp hlast
      cases hr
      rw [if_neg hstop]
      exact ⟨rfl, rfl, rfl⟩
  · rintro ⟨face, t₁, next, hface, hchecked, h⟩
    refine ⟨face, t₁, hface, Tray.roll_bind_eq_ok_iff.mpr
      ⟨next, t₁, Tray.roll_orOverflow_eq_ok_iff.mpr ⟨hchecked, rfl⟩, ?_⟩⟩
    split at h
    · next hagain =>
      obtain ⟨rest, rfl, hrest⟩ := h
      rw [if_pos hagain]
      exact Tray.roll_bind_eq_ok_iff.mpr ⟨(rest, sum), t', hrest, rfl⟩
    · next hstop =>
      obtain ⟨rfl, rfl, rfl⟩ := h
      rw [if_neg hstop, Tray.roll_pure]

theorem growingChain_eq_ok_iff {total sum : Int64} {faces : List Int64} :
    t.roll (growingChain again sides limit n total) = (.ok (faces, sum), t') ↔
      CompleteChain again faces ∧ faces.length ≤ n ∧ t.Draws sides faces t' ∧
        sum.toInt = total.toInt + (faces.map (·.toInt)).sum := by
  induction n generalizing t total faces with
  | zero =>
    rw [growingChain, Tray.roll_throw]
    constructor
    · intro h
      cases h
    · rintro ⟨hchain, hlength, -⟩
      exact absurd (List.length_eq_zero_iff.mp (Nat.le_zero.mp hlength)) hchain.ne_nil
  | succ n ih =>
    rw [growingChain_succ_eq_ok_iff]
    constructor
    · rintro ⟨face, t₁, next, hface, hchecked, h⟩
      have hnext := checked_eq_some_iff.mp hchecked
      split at h
      · next hagain =>
        obtain ⟨rest, rfl, hrest⟩ := h
        obtain ⟨hchain, hlength, hdraws, hsum⟩ := ih.mp hrest
        have hcons : CompleteChain again (face :: rest) :=
          completeChain_cons_iff.mpr (by rwa [if_pos hagain])
        refine ⟨hcons, Nat.succ_le_succ hlength, Tray.draws_cons_iff.mpr ⟨t₁, hface, hdraws⟩, ?_⟩
        rw [List.map_cons, List.sum_cons]
        omega
      · next hstop =>
        obtain ⟨rfl, rfl, rfl⟩ := h
        exact ⟨completeChain_singleton (by simpa using hstop), by simp, Tray.draws_of_draw hface,
          by simpa using hnext⟩
    · rintro ⟨hchain, hlength, hdraws, hsum⟩
      obtain ⟨face, faces, rfl⟩ := List.exists_cons_of_ne_nil hchain.ne_nil
      obtain ⟨t₁, hface, hrest⟩ := Tray.draws_cons_iff.mp hdraws
      obtain ⟨hone, hones⟩ := List.forall_mem_cons.mp hdraws.one_le
      rw [List.map_cons, List.sum_cons] at hsum
      -- The last sum is in range, and all on the way are smaller.
      have hmax := sum.toInt_le
      obtain ⟨next, hchecked, hnext⟩ := exists_checked_add hone (sum_nonneg_of_one_le hones)
        (hsum ▸ hmax)
      rw [completeChain_cons_iff] at hchain
      refine ⟨face, t₁, next, hface, hchecked, ?_⟩
      split at hchain
      · next hagain =>
        rw [if_pos hagain]
        exact ⟨faces, rfl, ih.mpr ⟨hchain, Nat.le_of_succ_le_succ hlength, hrest, by omega⟩⟩
      · next hstop =>
        subst hchain
        rw [if_neg hstop]
        exact ⟨rfl, Int64.toInt_inj.mp (by simpa [hnext] using hsum),
          Tray.draws_nil_iff.mp hrest⟩

/-- A growing chain that does not fail for an answer out of range overflows at its first face, or
goes on behind that one and fails there. -/
theorem growingChain_succ_eq_error_iff {total : Int64} {e : EvalError}
    (he : ∀ t t' : Tray σ, t.roll (draw sides) ≠ (.error e, t')) :
    t.roll (growingChain again sides limit (n + 1) total) = (.error e, t') ↔
      ∃ face t₁, t.roll (draw sides) = (.ok face, t₁) ∧
        match checked (total.toInt + face.toInt) with
        | none => e = .overflow ∧ t' = t₁
        | some next => again face = true ∧
          t₁.roll (growingChain again sides limit n next) = (.error e, t') := by
  rw [growingChain, Tray.roll_bind_eq_error_iff, or_iff_right (he t t')]
  refine exists_congr fun face => exists_congr fun t₁ => and_congr_right fun _ => ?_
  cases checked (total.toInt + face.toInt) with
  | none =>
    rw [orOverflow, Tray.roll_bind_of_error (Tray.roll_throw t₁ .overflow), Prod.mk.injEq,
      Except.error.injEq, @eq_comm _ _ e, @eq_comm _ _ t']
  | some next =>
    rw [orOverflow, Tray.roll_bind_of_ok (Tray.roll_pure t₁ next)]
    by_cases hagain : again face = true
    · rw [if_pos hagain, Tray.roll_bind_eq_error_iff]
      constructor
      · rintro (hgrow | ⟨r, t₂, -, hpure⟩)
        · exact ⟨hagain, hgrow⟩
        · cases hpure
      · exact fun h => .inl h.2
    · rw [if_neg hagain, Tray.roll_pure]
      simp [hagain]

/-- A growing chain is too long if all the faces that there may be ask for another, and their sum
is in range. -/
theorem growingChain_eq_tooLong_iff {total : Int64} :
    t.roll (growingChain again sides limit n total) = (.error (.chainTooLong limit), t') ↔
      ∃ faces, t.Draws sides faces t' ∧ faces.length = n ∧ (∀ face ∈ faces, again face = true) ∧
        total.toInt + (faces.map (·.toInt)).sum ≤ Int64.maxValue.toInt := by
  induction n generalizing t total with
  | zero =>
    rw [growingChain, Tray.roll_throw, Prod.mk.injEq]
    constructor
    · rintro ⟨-, rfl⟩
      exact ⟨[], Tray.draws_nil t sides, rfl, by simp, by simpa using total.toInt_le⟩
    · rintro ⟨faces, hdraws, hlength, -⟩
      rw [List.length_eq_zero_iff.mp hlength, Tray.draws_nil_iff] at hdraws
      exact ⟨rfl, hdraws.symm⟩
  | succ n ih =>
    rw [growingChain_succ_eq_error_iff fun t t' => roll_draw_ne_tooLong t t' sides limit]
    constructor
    · rintro ⟨face, t₁, hface, h⟩
      cases hchecked : checked (total.toInt + face.toInt) with
      | none =>
        rw [hchecked] at h
        cases h.1
      | some next =>
        rw [hchecked] at h
        have hnext := checked_eq_some_iff.mp hchecked
        obtain ⟨faces, hdraws, hlength, hall, hsum⟩ := ih.mp h.2
        refine ⟨face :: faces, Tray.draws_cons_iff.mpr ⟨t₁, hface, hdraws⟩,
          by rw [List.length_cons, hlength], List.forall_mem_cons.mpr ⟨h.1, hall⟩, ?_⟩
        rw [List.map_cons, List.sum_cons]
        omega
    · rintro ⟨faces, hdraws, hlength, hall, hsum⟩
      obtain ⟨face, faces, rfl⟩ := List.exists_cons_of_length_eq_add_one hlength
      obtain ⟨t₁, hface, hrest⟩ := Tray.draws_cons_iff.mp hdraws
      obtain ⟨hagain, hall⟩ := List.forall_mem_cons.mp hall
      obtain ⟨hone, hones⟩ := List.forall_mem_cons.mp hdraws.one_le
      rw [List.map_cons, List.sum_cons] at hsum
      obtain ⟨next, hchecked, hnext⟩ :=
        exists_checked_add hone (sum_nonneg_of_one_le hones) hsum
      refine ⟨face, t₁, hface, ?_⟩
      rw [hchecked]
      exact ⟨hagain, ih.mpr ⟨faces, hrest, Nat.succ.inj hlength, hall, by omega⟩⟩

/-- A growing chain overflows at the face that takes its sum out of range, behind faces that all ask
for another. -/
theorem growingChain_eq_overflow_iff {total : Int64} :
    t.roll (growingChain again sides limit n total) = (.error .overflow, t') ↔
      ∃ init last, t.Draws sides (init ++ [last]) t' ∧ init.length < n ∧
        (∀ face ∈ init, again face = true) ∧
        total.toInt + (init.map (·.toInt)).sum ≤ Int64.maxValue.toInt ∧
        Int64.maxValue.toInt < total.toInt + (init.map (·.toInt)).sum + last.toInt := by
  induction n generalizing t total with
  | zero =>
    rw [growingChain, Tray.roll_throw]
    simp
  | succ n ih =>
    rw [growingChain_succ_eq_error_iff fun t t' => roll_draw_ne_overflow t t' sides]
    constructor
    · rintro ⟨face, t₁, hface, h⟩
      have hone : 1 ≤ face.toInt := (Tray.draws_of_draw hface).one_le face List.mem_cons_self
      cases hchecked : checked (total.toInt + face.toInt) with
      | none =>
        rw [hchecked] at h
        obtain ⟨-, rfl⟩ := h
        have hmin := total.minValue_le_toInt
        have hout := checked_eq_none_iff.mp hchecked
        refine ⟨[], face, Tray.draws_of_draw hface, Nat.succ_pos n, by simp,
          by simpa using total.toInt_le, ?_⟩
        rw [List.map_nil, List.sum_nil]
        omega
      | some next =>
        rw [hchecked] at h
        have hnext := checked_eq_some_iff.mp hchecked
        obtain ⟨init, last, hdraws, hlength, hall, hle, hlt⟩ := ih.mp h.2
        refine ⟨face :: init, last, Tray.draws_cons_iff.mpr ⟨t₁, hface, hdraws⟩,
          Nat.succ_lt_succ hlength, List.forall_mem_cons.mpr ⟨h.1, hall⟩, ?_, ?_⟩
        · rw [List.map_cons, List.sum_cons]
          omega
        · rw [List.map_cons, List.sum_cons]
          omega
    · rintro ⟨init, last, hdraws, hlength, hall, hle, hlt⟩
      cases init with
      | nil =>
        obtain ⟨t₁, hface, hrest⟩ := Tray.draws_cons_iff.mp hdraws
        rw [List.map_nil, List.sum_nil, Int.add_zero] at hlt
        refine ⟨last, t₁, hface, ?_⟩
        rw [checked_eq_none_iff.mpr (.inr hlt)]
        exact ⟨rfl, Tray.draws_nil_iff.mp hrest⟩
      | cons face init =>
        obtain ⟨t₁, hface, hrest⟩ := Tray.draws_cons_iff.mp hdraws
        obtain ⟨hagain, hall⟩ := List.forall_mem_cons.mp hall
        obtain ⟨hone, hones⟩ := List.forall_mem_cons.mp hdraws.one_le
        have hinit : ∀ x ∈ init, 1 ≤ x.toInt := (List.forall_mem_append.mp hones).1
        rw [List.map_cons, List.sum_cons] at hle hlt
        obtain ⟨next, hchecked, hnext⟩ :=
          exists_checked_add hone (sum_nonneg_of_one_le hinit) hle
        refine ⟨face, t₁, hface, ?_⟩
        rw [hchecked]
        exact ⟨hagain, ih.mpr ⟨init, last, hrest, Nat.lt_of_succ_lt_succ hlength, hall, by omega,
          by omega⟩⟩

/-! ## Chains for the dice of a pool -/

/-- The faces drawn for a die: they are as `R` says if the die meets the condition, and else there
are none. -/
def DrawnFor (c : Comparison) (R : Die → List Int64 → Prop) (d : Die) (faces : List Int64) : Prop :=
  if d.meets c = true then R d faces else faces = []

theorem drawnFor_of_meets {c : Comparison} {R : Die → List Int64 → Prop} {d : Die}
    {faces : List Int64} (hd : d.meets c = true) : DrawnFor c R d faces ↔ R d faces := by
  rw [DrawnFor, if_pos hd]

theorem drawnFor_of_not_meets {c : Comparison} {R : Die → List Int64 → Prop} {d : Die}
    {faces : List Int64} (hd : ¬d.meets c = true) : DrawnFor c R d faces ↔ faces = [] := by
  rw [DrawnFor, if_neg hd]

theorem status_of_meets {c : Comparison} {d : Die} (h : d.meets c = true) : d.status = .kept := by
  simp only [Die.meets, Die.isKept, Bool.and_eq_true, beq_iff_eq] at h
  exact h.1

theorem isKept_of_meets {c : Comparison} {d : Die} (h : d.meets c = true) : d.isKept = true := by
  simp [Die.isKept, status_of_meets h]

/-- Nothing is drawn for dice that do not meet the condition. -/
theorem exists_drawnFor_quiet (c : Comparison) (R : Die → List Int64 → Prop) {dice : List Die}
    (h : ∀ d ∈ dice, d.meets c = false) :
    ∃ chains, List.Forall₂ (DrawnFor c R) dice chains ∧ chains.flatten = [] := by
  refine ⟨dice.map fun _ => [], ?_, by simp⟩
  rw [List.forall₂_map_right_iff, List.forall₂_same]
  intro d hd
  exact (drawnFor_of_not_meets (by simp [h d hd])).mpr rfl

/-- A die of the pool stays in its place, and its chain says what has become of it. -/
theorem drawnFor_of_getElem? {c : Comparison} {R : Die → List Int64 → Prop} {dice : List Die}
    {chains : List (List Int64)} (h : List.Forall₂ (DrawnFor c R) dice chains) {i : Nat} {d : Die}
    {faces : List Int64} (hd : dice[i]? = some d) (hfaces : chains[i]? = some faces) :
    DrawnFor c R d faces := by
  obtain ⟨hi, rfl⟩ := List.getElem?_eq_some_iff.mp hd
  obtain ⟨hi', rfl⟩ := List.getElem?_eq_some_iff.mp hfaces
  exact h.get hi hi'

theorem getElem?_zipWith_append {a : Die → List Int64 → Die} {dice later : List Die}
    {chains : List (List Int64)} {i : Nat} {d : Die} {faces : List Int64}
    (hd : dice[i]? = some d) (hfaces : chains[i]? = some faces) :
    (List.zipWith a dice chains ++ later)[i]? = some (a d faces) := by
  have hold : (List.zipWith a dice chains)[i]? = some (a d faces) := by
    rw [List.getElem?_zipWith, hd, hfaces]
  rw [List.getElem?_append_left (List.getElem?_eq_some_iff.mp hold).1, hold]

/-- A die that does not meet the condition is left as it is, and nothing is drawn for it. -/
theorem getElem?_of_not_meets {c : Comparison} {R : Die → List Int64 → Prop}
    {a : Die → List Int64 → Die} (ha : ∀ d : Die, d.meets c = false → a d [] = d)
    {dice later : List Die} {chains : List (List Int64)}
    (h : List.Forall₂ (DrawnFor c R) dice chains) {i : Nat} {d : Die} {faces : List Int64}
    (hd : dice[i]? = some d) (hfaces : chains[i]? = some faces) (hn : d.meets c = false) :
    (List.zipWith a dice chains ++ later)[i]? = some d ∧ faces = [] := by
  obtain rfl := (drawnFor_of_not_meets (by simp [hn])).mp (drawnFor_of_getElem? h hd hfaces)
  exact ⟨(getElem?_zipWith_append hd hfaces).trans (congrArg some (ha d hn)), rfl⟩

/-- A die that meets the condition is changed by the faces of its chain. -/
theorem getElem?_of_meets {c : Comparison} {R : Die → List Int64 → Prop}
    {a : Die → List Int64 → Die} {dice later : List Die} {chains : List (List Int64)}
    (h : List.Forall₂ (DrawnFor c R) dice chains) {i : Nat} {d : Die} {faces : List Int64}
    (hd : dice[i]? = some d) (hfaces : chains[i]? = some faces) (hmeets : d.meets c = true) :
    (List.zipWith a dice chains ++ later)[i]? = some (a d faces) ∧ R d faces := by
  exact ⟨getElem?_zipWith_append hd hfaces,
    (drawnFor_of_meets hmeets).mp (drawnFor_of_getElem? h hd hfaces)⟩

/-- From `t` to `t'`, chains as `R` says are drawn for the first dice of the pool, and faces as `Q`
says for the die behind them, which meets the condition. -/
def ComesTo (c : Comparison) (R Q : Die → List Int64 → Prop) (p : Pool) (t t' : Tray σ) : Prop :=
  ∃ earlier d later chains faces, p.dice = earlier ++ d :: later ∧ d.meets c = true ∧
    List.Forall₂ (DrawnFor c R) earlier chains ∧ Q d faces ∧
    t.Draws p.sides (chains.flatten ++ faces) t'

/-- The faces that `f` draws for a die that meets the condition are those that `R` admits. They make
it the die `a` and bring the dice `b`. -/
structure Chaining (c : Comparison) (sides : Int64) (f : Die → Rolling σ (Die × List Die))
    (R : Die → List Int64 → Prop) (a : Die → List Int64 → Die) (b : List Int64 → List Die) :
    Prop where
  unchanged : ∀ d : Die, d.meets c = false → a d [] = d
  nothing : b [] = []
  drawn : ∀ (d : Die) (r : Die × List Die) (t t' : Tray σ), d.meets c = true →
    (t.roll (f d) = (.ok r, t') ↔
      ∃ faces, R d faces ∧ t.Draws sides faces t' ∧ r = (a d faces, b faces))

namespace Chaining

variable {c : Comparison} {f : Die → Rolling σ (Die × List Die)} {R : Die → List Int64 → Prop}
  {a : Die → List Int64 → Die} {b : List Int64 → List Die}

theorem step_eq_ok_iff (h : Chaining c sides f R a b) {d : Die} {r : Die × List Die} :
    t.roll (if d.meets c then f d else pure (d, [])) = (.ok r, t') ↔
      ∃ faces, DrawnFor c R d faces ∧ t.Draws sides faces t' ∧ r = (a d faces, b faces) := by
  by_cases hd : d.meets c = true
  · simp only [if_pos hd, drawnFor_of_meets hd]
    exact h.drawn d r t t' hd
  · have hnone : (a d [], b []) = (d, []) := by
      rw [h.unchanged d (by simpa using hd), h.nothing]
    simp only [if_neg hd, drawnFor_of_not_meets hd, Tray.roll_pure_eq_ok_iff]
    constructor
    · rintro ⟨rfl, rfl⟩
      exact ⟨[], rfl, Tray.draws_nil t' sides, hnone.symm⟩
    · rintro ⟨faces, rfl, hdraws, rfl⟩
      exact ⟨hnone, Tray.draws_nil_iff.mp hdraws⟩

theorem mapM_eq_ok_iff (h : Chaining c sides f R a b) {dice : List Die}
    {results : List (Die × List Die)} :
    t.roll (dice.mapM fun d => if d.meets c then f d else pure (d, [])) = (.ok results, t') ↔
      ∃ chains, List.Forall₂ (DrawnFor c R) dice chains ∧ t.Draws sides chains.flatten t' ∧
        results = List.zipWith (fun d faces => (a d faces, b faces)) dice chains := by
  induction dice generalizing t results with
  | nil =>
    rw [List.mapM_nil, Tray.roll_pure_eq_ok_iff]
    constructor
    · rintro ⟨rfl, rfl⟩
      exact ⟨[], .nil, Tray.draws_nil t' sides, rfl⟩
    · rintro ⟨chains, hall, hdraws, rfl⟩
      cases hall
      exact ⟨rfl, Tray.draws_nil_iff.mp hdraws⟩
  | cons d dice ih =>
    rw [List.mapM_cons, Tray.roll_bind_eq_ok_iff]
    constructor
    · rintro ⟨r, t₁, hr, hrest⟩
      obtain ⟨rs, t₂, hrs, hpure⟩ := Tray.roll_bind_eq_ok_iff.mp hrest
      obtain ⟨rfl, rfl⟩ := Tray.roll_pure_eq_ok_iff.mp hpure
      obtain ⟨faces, hfaces, hdraws, rfl⟩ := h.step_eq_ok_iff.mp hr
      obtain ⟨chains, hall, hdraws', rfl⟩ := ih.mp hrs
      exact ⟨faces :: chains, .cons hfaces hall, hdraws.append hdraws', rfl⟩
    · rintro ⟨chains, hall, hdraws, rfl⟩
      obtain ⟨faces, chains, hfaces, hrest, rfl⟩ := List.forall₂_cons_left_iff.mp hall
      obtain ⟨t₁, hfirst, hlater⟩ := Tray.draws_append_iff.mp hdraws
      have hd := h.step_eq_ok_iff.mpr ⟨faces, hfaces, hfirst, rfl⟩
      have hdice := ih.mpr ⟨chains, hrest, hlater, rfl⟩
      exact ⟨_, t₁, hd, Tray.roll_bind_eq_ok_iff.mpr ⟨_, t', hdice, rfl⟩⟩

/-- The first die whose chain fails is the last one that faces are drawn for. -/
theorem mapM_eq_error_iff (h : Chaining c sides f R a b) {e : EvalError}
    {Q : Die → List Int64 → Prop}
    (hfails : ∀ (d : Die) (t t' : Tray σ), d.meets c = true →
      (t.roll (f d) = (.error e, t') ↔ ∃ faces, Q d faces ∧ t.Draws sides faces t'))
    {dice : List Die} :
    t.roll (dice.mapM fun d => if d.meets c then f d else pure (d, [])) = (.error e, t') ↔
      ∃ earlier d later chains faces, dice = earlier ++ d :: later ∧ d.meets c = true ∧
        List.Forall₂ (DrawnFor c R) earlier chains ∧ Q d faces ∧
        t.Draws sides (chains.flatten ++ faces) t' := by
  induction dice generalizing t with
  | nil =>
    rw [List.mapM_nil, Tray.roll_pure]
    simp
  | cons d dice ih =>
    rw [List.mapM_cons, Tray.roll_bind_eq_error_iff]
    constructor
    · rintro (hd | ⟨r, t₁, hr, hrest⟩)
      · by_cases hmeets : d.meets c = true
        · rw [if_pos hmeets] at hd
          obtain ⟨faces, hQ, hdraws⟩ := (hfails d t t' hmeets).mp hd
          exact ⟨[], d, dice, [], faces, rfl, hmeets, .nil, hQ, hdraws⟩
        · rw [if_neg hmeets] at hd
          cases hd
      · rcases Tray.roll_bind_eq_error_iff.mp hrest with hdice | ⟨rs, t₂, -, hpure⟩
        · obtain ⟨faces, hfaces, hdraws, -⟩ := h.step_eq_ok_iff.mp hr
          obtain ⟨earlier, d', later, chains, last, rfl, hmeets, hall, hQ, hdraws'⟩ :=
            ih.mp hdice
          refine ⟨d :: earlier, d', later, faces :: chains, last, rfl, hmeets, .cons hfaces hall,
            hQ, ?_⟩
          rw [List.flatten_cons, List.append_assoc]
          exact hdraws.append hdraws'
        · cases hpure
    · rintro ⟨earlier, d', later, chains, last, hdice, hmeets, hall, hQ, hdraws⟩
      cases earlier with
      | nil =>
        obtain ⟨rfl, rfl⟩ := List.cons.inj hdice
        cases hall
        rw [if_pos hmeets]
        exact .inl ((hfails d t t' hmeets).mpr ⟨last, hQ, hdraws⟩)
      | cons x earlier =>
        obtain ⟨rfl, rfl⟩ := List.cons.inj hdice
        obtain ⟨faces, chains, hfaces, hrest, rfl⟩ := List.forall₂_cons_left_iff.mp hall
        rw [List.flatten_cons, List.append_assoc] at hdraws
        obtain ⟨t₁, hfirst, hlater⟩ := Tray.draws_append_iff.mp hdraws
        have hd := h.step_eq_ok_iff.mpr ⟨faces, hfaces, hfirst, rfl⟩
        have herror := ih.mpr ⟨earlier, d', later, chains, last, rfl, hmeets, hrest, hQ, hlater⟩
        exact .inr ⟨_, t₁, hd, Tray.roll_bind_eq_error_iff.mpr (.inl herror)⟩

/-- Chains are drawn for the dice that meet the condition, one after the other, and the dice that
they bring stand behind all others. -/
theorem extend_eq_ok_iff {p p' : Pool} (h : Chaining c p.sides f R a b) :
    t.roll (p.extend c f) = (.ok p', t') ↔
      ∃ chains, List.Forall₂ (DrawnFor c R) p.dice chains ∧ t.Draws p.sides chains.flatten t' ∧
        p' = { p with dice := List.zipWith a p.dice chains ++ chains.flatMap b } := by
  have hsplit : ∀ {dice : List Die} {chains : List (List Int64)},
      List.Forall₂ (DrawnFor c R) dice chains →
        (List.zipWith (fun d faces => (a d faces, b faces)) dice chains).flatMap (·.2) =
          chains.flatMap b := by
    intro dice chains hall
    induction hall with
    | nil => rfl
    | cons _ _ ih => rw [List.zipWith_cons_cons, List.flatMap_cons, List.flatMap_cons, ih]
  rw [extend, Tray.roll_bind_eq_ok_iff]
  constructor
  · rintro ⟨results, t₁, hresults, hpure⟩
    obtain ⟨rfl, rfl⟩ := Tray.roll_pure_eq_ok_iff.mp hpure
    obtain ⟨chains, hall, hdraws, rfl⟩ := h.mapM_eq_ok_iff.mp hresults
    exact ⟨chains, hall, hdraws, by rw [List.map_zipWith, hsplit hall]⟩
  · rintro ⟨chains, hall, hdraws, rfl⟩
    refine ⟨_, t', h.mapM_eq_ok_iff.mpr ⟨chains, hall, hdraws, rfl⟩, ?_⟩
    rw [List.map_zipWith, hsplit hall, Tray.roll_pure]

theorem extend_eq_error_iff {p : Pool} (h : Chaining c p.sides f R a b) {e : EvalError}
    {Q : Die → List Int64 → Prop}
    (hfails : ∀ (d : Die) (t t' : Tray σ), d.meets c = true →
      (t.roll (f d) = (.error e, t') ↔ ∃ faces, Q d faces ∧ t.Draws p.sides faces t')) :
    t.roll (p.extend c f) = (.error e, t') ↔ p.ComesTo c R Q t t' := by
  rw [ComesTo, ← h.mapM_eq_error_iff hfails, extend, Tray.roll_bind_eq_error_iff]
  constructor
  · rintro (herror | ⟨results, t₁, -, hpure⟩)
    · exact herror
    · cases hpure
  · exact .inl

end Chaining

end Run

end Tabletop.Pool
