import Tabletop.Proofs.Dice.Chains

/-!
# Generations of an explosion

An explosion goes by generations: every die of one generation that meets the condition brings one
die of the next.

* `Pool.generation c sides t dice j`: the generation `j` behind `dice`, read off the answers of the
  source alone.
* `Pool.generations_eq_ok_iff`, `Pool.generations_eq_tooLong_iff`: what the first generation of an
  explosion leads to.
* `Composes.generations`: what goes through `pure`, `>>=` and `draw` goes through an explosion.
* `Pool.generation_of_ok`, `Pool.generation_of_tooLong`: what an explosion that succeeds, and one
  that is too long, say of all generations.
-/

namespace Tabletop

/-! ## Marks -/

/-- The die, marked if it meets the condition. -/
def Die.marked (c : Comparison) (d : Die) : Die :=
  { d with exploded := d.exploded || d.meets c }

theorem Die.marked_of_meets {c : Comparison} {d : Die} (h : d.meets c = true) :
    d.marked c = { d with exploded := true } := by
  rw [marked, h, Bool.or_true]

theorem Die.marked_of_not_meets {c : Comparison} {d : Die} (h : d.meets c = false) :
    d.marked c = d := by
  rw [marked, h, Bool.or_false]

theorem Die.map_mark (c : Comparison) (dice : List Die) :
    dice.map (fun d => if d.meets c then { d with exploded := true } else d) =
      dice.map (Die.marked c) := by
  refine List.map_congr_left fun d _ => ?_
  split
  · next h => exact (marked_of_meets h).symm
  · next h => exact (marked_of_not_meets (by simpa using h)).symm

theorem Die.countP_meets_eq_zero_iff {c : Comparison} {dice : List Die} :
    dice.countP (Die.meets c) = 0 ↔ ∀ d ∈ dice, d.meets c = false := by
  simp [List.countP_eq_zero]

theorem Die.map_marked_quiet {c : Comparison} {dice : List Die}
    (h : dice.countP (Die.meets c) = 0) : dice.map (Die.marked c) = dice :=
  (List.map_congr_left fun d hd => marked_of_not_meets (countP_meets_eq_zero_iff.mp h d hd)).trans
    (List.map_id dice)

theorem Die.countP_map_marked (c : Comparison) (dice : List Die) :
    (dice.map (Die.marked c)).countP (Die.meets c) = dice.countP (Die.meets c) := by
  rw [List.countP_map]
  rfl

section Generation

variable {σ : Type} [Source σ]

/-! ## Draws -/

namespace Rolling

variable {t t' : Tray σ} {sides : Int64} {n : Nat}

/-- There are as many faces as were asked for. -/
theorem draws_of_drawFaces {faces : List Int64}
    (h : t.roll (drawFaces sides n) = (.ok faces, t')) :
    faces.length = n ∧ t.Draws sides faces t' := by
  induction n generalizing t faces with
  | zero =>
    obtain ⟨rfl, rfl⟩ := Tray.roll_pure_eq_ok_iff.mp h
    exact ⟨rfl, Tray.draws_nil _ _⟩
  | succ n ih =>
    obtain ⟨face, t₁, hface, h⟩ := Tray.roll_bind_eq_ok_iff.mp h
    obtain ⟨faces, t₂, hfaces, h⟩ := Tray.roll_bind_eq_ok_iff.mp h
    obtain ⟨rfl, rfl⟩ := Tray.roll_pure_eq_ok_iff.mp h
    obtain ⟨hlength, hdraws⟩ := ih hfaces
    exact ⟨by rw [List.length_cons, hlength], (Tray.draws_of_draw hface).append hdraws⟩

/-- Faces that the source gives one after the other are drawn for as many dice. -/
theorem drawFaces_of_draws {faces : List Int64} (h : t.Draws sides faces t') :
    t.roll (drawFaces sides faces.length) = (.ok faces, t') := by
  induction faces generalizing t with
  | nil => rw [Tray.draws_nil_iff.mp h, List.length_nil, drawFaces, Tray.roll_pure]
  | cons face faces ih =>
    obtain ⟨t₁, hface, hrest⟩ := Tray.draws_cons_iff.mp h
    exact Tray.roll_bind_eq_ok_iff.mpr
      ⟨face, t₁, hface, Tray.roll_bind_eq_ok_iff.mpr ⟨faces, t', ih hrest, rfl⟩⟩

theorem roll_drawFaces_ne_tooLong (t t' : Tray σ) (sides : Int64) (k limit : Nat) :
    t.roll (drawFaces sides k) ≠ (.error (.chainTooLong limit), t') := by
  intro h
  have hdraws : FailsWith (drawFaces sides k : Rolling σ (List Int64)) fun _ => False :=
    (FailsWith.composes _).drawFaces sides k
  obtain ⟨cs, -, hfails⟩ := hdraws t
  rw [h] at hfails
  obtain hfalse | ⟨c, -, -, hc⟩ := hfails _ rfl
  · exact hfalse
  · cases hc

end Rolling

namespace Pool

variable {c : Comparison} {sides : Int64} {limit n : Nat} {t t' : Tray σ} {dice ds : List Die}

/-! ## The first generation -/

theorem isEmpty_filter_meets : (dice.filter (Die.meets c)).isEmpty = true ↔
    dice.countP (Die.meets c) = 0 := by
  rw [List.isEmpty_iff, List.countP_eq_length_filter, List.length_eq_zero_iff]

theorem generations_quiet (h : dice.countP (Die.meets c) = 0) :
    (generations c sides limit n dice : Rolling σ (List Die)) = pure dice := by
  cases n <;> exact if_pos (isEmpty_filter_meets.mpr h)

theorem generations_zero (h : dice.countP (Die.meets c) ≠ 0) :
    (generations c sides limit 0 dice : Rolling σ (List Die)) = throw (.chainTooLong limit) :=
  if_neg (mt isEmpty_filter_meets.mp h)

/-- One generation and all later ones. -/
theorem generations_succ (h : dice.countP (Die.meets c) ≠ 0) :
    (generations c sides limit (n + 1) dice : Rolling σ (List Die)) = (do
      let faces ← Rolling.drawFaces sides (dice.countP (Die.meets c))
      let later ← generations c sides limit n (faces.map (.drawn sides .kept))
      pure (dice.map (Die.marked c) ++ later)) := by
  rw [← Die.map_mark, List.countP_eq_length_filter]
  exact if_neg (mt isEmpty_filter_meets.mp h)

/-- An explosion that succeeds has come to a generation of which no die meets the condition. -/
theorem generations_eq_ok_iff :
    t.roll (generations c sides limit n dice) = (.ok ds, t') ↔
      (dice.countP (Die.meets c) = 0 ∧ ds = dice ∧ t' = t) ∨
      (dice.countP (Die.meets c) ≠ 0 ∧ ∃ m faces later t₁, n = m + 1 ∧
        t.roll (Rolling.drawFaces sides (dice.countP (Die.meets c))) = (.ok faces, t₁) ∧
        t₁.roll (generations c sides limit m (faces.map (.drawn sides .kept))) =
          (.ok later, t') ∧
        ds = dice.map (Die.marked c) ++ later) := by
  by_cases hzero : dice.countP (Die.meets c) = 0
  · rw [generations_quiet hzero, Tray.roll_pure_eq_ok_iff]
    simp [hzero, eq_comm]
  · simp only [hzero, false_and, false_or, ne_eq, not_false_eq_true, true_and]
    cases n with
    | zero =>
      rw [generations_zero hzero, Tray.roll_throw]
      simp
    | succ m =>
      rw [generations_succ hzero, Tray.roll_bind_eq_ok_iff]
      constructor
      · rintro ⟨faces, t₁, hfaces, h⟩
        obtain ⟨later, t₂, hlater, hpure⟩ := Tray.roll_bind_eq_ok_iff.mp h
        obtain ⟨rfl, rfl⟩ := Tray.roll_pure_eq_ok_iff.mp hpure
        exact ⟨m, faces, later, t₁, rfl, hfaces, hlater, rfl⟩
      · rintro ⟨_, faces, later, t₁, ⟨⟩, hfaces, hlater, rfl⟩
        exact ⟨faces, t₁, hfaces, Tray.roll_bind_eq_ok_iff.mpr ⟨later, t', hlater, rfl⟩⟩

/-- An explosion that is too long has come to a die that meets the condition in the last generation
that there may be. -/
theorem generations_eq_tooLong_iff :
    t.roll (generations c sides limit n dice) = (.error (.chainTooLong limit), t') ↔
      dice.countP (Die.meets c) ≠ 0 ∧ ((n = 0 ∧ t' = t) ∨ ∃ m faces t₁, n = m + 1 ∧
        t.roll (Rolling.drawFaces sides (dice.countP (Die.meets c))) = (.ok faces, t₁) ∧
        t₁.roll (generations c sides limit m (faces.map (.drawn sides .kept))) =
          (.error (.chainTooLong limit), t')) := by
  by_cases hzero : dice.countP (Die.meets c) = 0
  · rw [generations_quiet hzero, Tray.roll_pure]
    simp [hzero]
  · simp only [hzero, ne_eq, not_false_eq_true, true_and]
    cases n with
    | zero =>
      rw [generations_zero hzero, Tray.roll_throw]
      simp [eq_comm]
    | succ m =>
      rw [generations_succ hzero, Tray.roll_bind_eq_error_iff,
        or_iff_right (Rolling.roll_drawFaces_ne_tooLong t t' sides _ limit)]
      constructor
      · rintro ⟨faces, t₁, hfaces, h⟩
        rcases Tray.roll_bind_eq_error_iff.mp h with hlater | ⟨later, t₂, -, hpure⟩
        · exact .inr ⟨m, faces, t₁, rfl, hfaces, hlater⟩
        · cases hpure
      · rintro (⟨⟨⟩, -⟩ | ⟨_, faces, t₁, ⟨⟩, hfaces, hlater⟩)
        exact ⟨faces, t₁, hfaces, Tray.roll_bind_eq_error_iff.mpr (.inl hlater)⟩

end Pool

/-- An explosion under limits of which the second is no lower. -/
theorem Composes.generations {τ : Type} [Source τ] {E : EvalError → Prop}
    {R : (α : Type) → Rolling σ α → Rolling τ α → Prop} (h : Composes E fun α x y _ => R α x y)
    (c : Comparison) (sides : Int64) {limit : Nat} (he : E (.chainTooLong limit)) (limit' : Nat)
    {n n' : Nat} (hn : n ≤ n') (dice : List Die) :
    R (List Die) (Pool.generations c sides limit n dice)
      (Pool.generations c sides limit' n' dice) := by
  induction n generalizing n' dice with
  | zero =>
    by_cases hzero : dice.countP (Die.meets c) = 0
    · rw [Pool.generations_quiet hzero, Pool.generations_quiet hzero]
      exact h.pure dice 0
    · rw [Pool.generations_zero hzero]
      exact h.throw he _ 0
  | succ n ih =>
    by_cases hzero : dice.countP (Die.meets c) = 0
    · rw [Pool.generations_quiet hzero, Pool.generations_quiet hzero]
      exact h.pure dice 0
    · obtain ⟨k, rfl⟩ : ∃ k, n' = k + 1 := ⟨n' - 1, by omega⟩
      rw [Pool.generations_succ hzero, Pool.generations_succ hzero]
      exact h.andThen (h.drawFaces _ _) fun faces => h.andThen (ih (by omega) _) fun later =>
        h.pure _ 0

theorem Pool.generations_failsWith (c : Comparison) (sides : Int64) (limit n : Nat)
    (dice : List Die) :
    FailsWith (generations c sides limit n dice : Rolling σ (List Die))
      (· = .chainTooLong limit) :=
  (FailsWith.composes (· = .chainTooLong limit)).generations c sides rfl limit (Nat.le_refl n) dice

theorem Pool.generations_failsOnly (c : Comparison) (sides : Int64) (limit n : Nat)
    (dice : List Die) :
    FailsOnly (generations c sides limit n dice : Rolling σ (List Die))
      (· = .chainTooLong limit) :=
  (generations_failsWith c sides limit n dice).failsOnly

/-! ## All generations -/

/-- The answers to the next `n` calls for a number from `1` to `sides`, and the tray behind them. -/
def Tray.answers (sides : Int64) : (n : Nat) → (t : Tray σ) → List Int64 × Tray σ
  | 0, t => ([], t)
  | n + 1, t =>
    let first := t.call 1 sides
    let later := first.2.answers sides n
    (first.1 :: later.1, later.2)

theorem Tray.Draws.answers_eq {t t' : Tray σ} {sides : Int64} {faces : List Int64}
    (h : t.Draws sides faces t') : t.answers sides faces.length = (faces, t') := by
  induction faces generalizing t with
  | nil =>
    rw [Tray.draws_nil_iff.mp h]
    rfl
  | cons face faces ih =>
    obtain ⟨t₁, hface, hrest⟩ := Tray.draws_cons_iff.mp h
    rw [List.length_cons, Tray.answers, (Tray.roll_draw_eq_ok_iff.mp hface).1, ih hrest]

namespace Pool

/-- The generation `j` behind `dice`, and the tray behind it: one die in order for each die of the
generation before that meets the condition, with the next answers as faces. -/
def generation (c : Comparison) (sides : Int64) (t : Tray σ) (dice : List Die) :
    Nat → List Die × Tray σ
  | 0 => (dice, t)
  | j + 1 =>
    let before := generation c sides t dice j
    let next := before.2.answers sides (before.1.countP (Die.meets c))
    (next.1.map (.drawn sides .kept), next.2)

/-- The dice are those of the generations up to the first empty one, in their order, and those that
meet the condition are marked. -/
def Gathers (c : Comparison) (gen : Nat → List Die) (dice : List Die) : Prop :=
  ∃ k, gen k = [] ∧ (∀ j < k, gen j ≠ []) ∧
    dice = ((List.range k).flatMap gen).map (Die.marked c)

theorem Gathers.quiet {c : Comparison} {gen : Nat → List Die} {dice : List Die}
    (h : dice.countP (Die.meets c) = 0) (hfirst : gen 0 = dice) (hnext : gen 1 = []) :
    Gathers c gen dice := by
  by_cases hnil : dice = []
  · exact ⟨0, hfirst.trans hnil, by simp, hnil⟩
  · refine ⟨1, hnext, fun j hj => ?_, ?_⟩
    · rwa [Nat.lt_one_iff.mp hj, hfirst]
    · simp [hfirst, Die.map_marked_quiet h]

theorem Gathers.cons {c : Comparison} {gen : Nat → List Die} {later : List Die}
    (hfirst : gen 0 ≠ []) (h : Gathers c (fun j => gen (j + 1)) later) :
    Gathers c gen ((gen 0).map (Die.marked c) ++ later) := by
  obtain ⟨k, hk, hne, rfl⟩ := h
  refine ⟨k + 1, hk, fun j hj => ?_, ?_⟩
  · cases j with
    | zero => exact hfirst
    | succ j => exact hne j (Nat.lt_of_succ_lt_succ hj)
  · rw [List.range_succ_eq_map, List.flatMap_cons, List.map_append, List.flatMap_map]

variable {c : Comparison} {sides : Int64} {limit n : Nat} {t t' : Tray σ} {dice ds : List Die}

/-- The generations of the first generation are those of `dice` but for `dice`. -/
theorem generation_succ (c : Comparison) (sides : Int64) (t : Tray σ) (dice : List Die) (j : Nat) :
    generation c sides t dice (j + 1) =
      let next := t.answers sides (dice.countP (Die.meets c))
      generation c sides next.2 (next.1.map (.drawn sides .kept)) j := by
  induction j with
  | zero => rfl
  | succ j ih => rw [generation, ih]; rfl

/-- Behind dice that do not meet the condition there are none. -/
theorem generation_quiet (h : dice.countP (Die.meets c) = 0) (j : Nat) :
    generation c sides t dice (j + 1) = ([], t) := by
  induction j with
  | zero => rw [generation, generation, h]; rfl
  | succ j ih => rw [generation, ih]; rfl

/-- The dice of an explosion are those of its generations, and no die of the last one that there
may be meets the condition. -/
theorem generation_of_ok (h : t.roll (generations c sides limit n dice) = (.ok ds, t')) :
    (generation c sides t dice n).1.countP (Die.meets c) = 0 ∧
      Gathers c (fun j => (generation c sides t dice j).1) ds := by
  induction n generalizing t dice ds with
  | zero =>
    obtain ⟨hzero, rfl, -⟩ | ⟨-, _, _, _, _, ⟨⟩, -⟩ := generations_eq_ok_iff.mp h
    exact ⟨hzero, .quiet hzero rfl (congrArg Prod.fst (generation_quiet hzero 0))⟩
  | succ n ih =>
    obtain ⟨hzero, rfl, -⟩ | ⟨hpos, _, faces, later, t₁, ⟨⟩, hfaces, hlater, rfl⟩ :=
      generations_eq_ok_iff.mp h
    · refine ⟨?_, .quiet hzero rfl (congrArg Prod.fst (generation_quiet hzero 0))⟩
      rw [generation_quiet hzero]
      rfl
    · obtain ⟨hlength, hdraws⟩ := Rolling.draws_of_drawFaces hfaces
      obtain ⟨hlast, hgathers⟩ := ih hlater
      have hshift (j : Nat) : generation c sides t dice (j + 1) =
          generation c sides t₁ (faces.map (.drawn sides .kept)) j := by
        rw [generation_succ, ← hlength, hdraws.answers_eq]
      have hne : dice ≠ [] := by
        rintro rfl
        exact hpos rfl
      refine ⟨by rwa [hshift], .cons hne ?_⟩
      simpa only [hshift] using hgathers

/-- Behind an explosion that is too long there is a die that meets the condition in the last
generation that there may be. -/
theorem generation_of_tooLong
    (h : t.roll (generations c sides limit n dice) = (.error (.chainTooLong limit), t')) :
    (generation c sides t dice n).1.countP (Die.meets c) ≠ 0 := by
  induction n generalizing t dice with
  | zero => exact (generations_eq_tooLong_iff.mp h).1
  | succ n ih =>
    obtain ⟨-, ⟨⟨⟩, -⟩ | ⟨_, faces, t₁, ⟨⟩, hfaces, hlater⟩⟩ := generations_eq_tooLong_iff.mp h
    obtain ⟨hlength, hdraws⟩ := Rolling.draws_of_drawFaces hfaces
    rw [generation_succ, ← hlength, hdraws.answers_eq]
    exact ih hlater

/-- Every die drawn is brought by one that meets the condition, and every such die brings one. -/
theorem length_of_generations (h : t.roll (generations c sides limit n dice) = (.ok ds, t')) :
    ds.length = dice.length + ds.countP (Die.meets c) := by
  induction n generalizing t dice ds with
  | zero =>
    obtain ⟨hzero, rfl, -⟩ | ⟨-, _, _, _, _, ⟨⟩, -⟩ := generations_eq_ok_iff.mp h
    rw [hzero, Nat.add_zero]
  | succ n ih =>
    obtain ⟨hzero, rfl, -⟩ | ⟨-, _, faces, later, t₁, ⟨⟩, hfaces, hlater, rfl⟩ :=
      generations_eq_ok_iff.mp h
    · rw [hzero, Nat.add_zero]
    · have hlength := ih hlater
      rw [List.length_map, (Rolling.draws_of_drawFaces hfaces).1] at hlength
      rw [List.length_append, List.length_map, hlength, List.countP_append,
        Die.countP_map_marked]

end Pool

end Generation

end Tabletop
