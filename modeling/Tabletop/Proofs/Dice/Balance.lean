import Mathlib.Algebra.Order.BigOperators.Group.List
import Tabletop.Proofs.Dice.Ranking
import Tabletop.Proofs.Dice.Trace

/-!
# What modifiers do to the accounts

A modifier moves faces and dice about, but what has been drawn stays accounted for: the faces of the
dice that are not added onto another one add up to the values drawn, and every die drawn is in play,
rerolled or exploded by the modifier that drew it.

* `Pool.amount`: the entry of a list of dice in one of four accounts.
* `Pool.Balances`: what one modifier does to the accounts.
* `Pool.modify_balances`: every modifier does so.
-/

namespace Tabletop

/-- What dice are accounted for. -/
inductive Account where
  /-- The faces, but for dice that are added onto another one. -/
  | points
  /-- Dice that are kept or dropped. -/
  | inPlay
  | rerolled
  | exploded
deriving DecidableEq

/-- The entry of a die in an account. -/
def Die.share : Account → Die → Int
  | .points, d => if d.status = .exploded then 0 else d.face.toInt
  | .inPlay, d => if d.status = .kept ∨ d.status = .dropped then 1 else 0
  | .rerolled, d => if d.status = .rerolled then 1 else 0
  | .exploded, d => if d.status = .exploded then 1 else 0

namespace Modifier

/-- The account of the dice that the modifier draws. -/
def account? : Modifier → Option Account
  | .redraw .reroll _ | .redraw .rerollOnce _ => some .rerolled
  | .redraw .explode _ => some .inPlay
  | .redraw .compound _ => some .exploded
  | .select _ _ | .countSuccesses _ => none

/-- What the calls made for the modifier add to an account. -/
def gain (m : Modifier) (cs : List Call) : Account → Int
  | .points => (cs.map (·.value.toInt)).sum
  | a => if m.account? = some a then cs.length else 0

/-- The condition of a success count. -/
def success? : Modifier → Option Comparison
  | .countSuccesses c => some c
  | .select _ _ | .redraw _ _ => none

@[simp] theorem gain_nil (m : Modifier) (a : Account) : m.gain [] a = 0 := by
  cases a <;> simp [gain]

theorem gain_append (m : Modifier) (cs ds : List Call) (a : Account) :
    m.gain (cs ++ ds) a = m.gain cs a + m.gain ds a := by
  cases a with
  | points => simp [gain]
  | inPlay | rerolled | exploded =>
    simp only [gain]
    split <;> simp

end Modifier

namespace Pool

/-! ## Accounts -/

/-- The entry of dice in an account. -/
def amount (a : Account) (dice : List Die) : Int :=
  (dice.map (Die.share a)).sum

variable {a : Account}

@[simp] theorem amount_nil : amount a [] = 0 := rfl

@[simp] theorem amount_cons (d : Die) (dice : List Die) :
    amount a (d :: dice) = d.share a + amount a dice := by
  simp [amount]

@[simp] theorem amount_append (dice dice' : List Die) :
    amount a (dice ++ dice') = amount a dice + amount a dice' := by
  simp [amount]

/-- The faces of all dice but the exploded ones, over the unbounded integers. -/
theorem amount_points (dice : List Die) : amount .points dice =
    ((dice.filter (·.status != .exploded)).map (·.face.toInt)).sum := by
  induction dice with
  | nil => rfl
  | cons d dice ih =>
    rw [amount_cons, ih]
    by_cases h : d.status = .exploded <;> simp [Die.share, h]

/-- An account that has one entry for each die of some kind. -/
theorem amount_eq_countP {counted : Die → Bool}
    (h : ∀ d : Die, d.share a = if counted d then 1 else 0) (dice : List Die) :
    amount a dice = dice.countP counted := by
  induction dice with
  | nil => rfl
  | cons d dice ih =>
    rw [amount_cons, ih, h, List.countP_cons]
    split <;> simp
    omega

theorem amount_inPlay (dice : List Die) : amount .inPlay dice =
    (dice.countP (·.status == .kept) + dice.countP (·.status == .dropped) : Nat) := by
  have hshare (d : Die) : d.share .inPlay =
      if (d.status == .kept || d.status == .dropped) = true then 1 else 0 := by
    simp [Die.share]
  rw [amount_eq_countP hshare]
  induction dice with
  | nil => rfl
  | cons d dice ih =>
    simp only [List.countP_cons]
    cases d.status <;> simp <;> omega

theorem amount_rerolled (dice : List Die) :
    amount .rerolled dice = dice.countP (·.status == .rerolled) :=
  amount_eq_countP (by simp [Die.share]) dice

theorem amount_exploded (dice : List Die) :
    amount .exploded dice = dice.countP (·.status == .exploded) :=
  amount_eq_countP (by simp [Die.share]) dice

/-! ## Dice drawn by a modifier -/

/-- The dice of a generation stay in play. -/
theorem amount_generation (a : Account) (c : Option Comparison) (sides : Int64)
    (faces : List Int64) : amount a (faces.map (Die.drawn sides .kept)) =
      (Modifier.redraw .explode c).gain (faces.map (Call.mk 1 sides)) a := by
  induction faces with
  | nil => cases a <;> rfl
  | cons face faces ih =>
    rw [List.map_cons, amount_cons, ih]
    cases a <;> simp [Die.share, Die.drawn, Modifier.gain, Modifier.account?]
    omega

/-- Of the dice of a chain of replacements one is in play, and the others are rerolled. -/
theorem amount_replacements (a : Account) (sides : Int64) {faces : List Int64} (h : faces ≠ []) :
    amount a (replacements sides faces) =
      match a with
      | .points => (faces.map (·.toInt)).sum
      | .inPlay => 1
      | .rerolled => faces.length - 1
      | .exploded => 0 := by
  fun_induction replacements sides faces with
  | case1 => exact absurd rfl h
  | case2 face => cases a <;> simp [Die.share, Die.drawn]
  | case3 face faces hne ih =>
    have hfaces : faces ≠ [] := fun h => hne (by simp [h])
    rw [amount_cons, ih hfaces]
    cases a <;> simp [Die.share, Die.drawn]

/-- A die that is rerolled leaves play, and the last one of its chain takes its place. -/
theorem amount_reroll (a : Account) {m : Modifier} (hm : m.account? = some .rerolled) {d : Die}
    (hd : d.status = .kept) (sides : Int64) {faces : List Int64} (h : faces ≠ []) :
    ({ d with status := .rerolled } : Die).share a + amount a (replacements sides faces) =
      d.share a + m.gain (faces.map (Call.mk 1 sides)) a := by
  rw [amount_replacements a sides h]
  cases a <;> simp [Die.share, hd, Modifier.gain, hm, Function.comp_def]

/-- Dice that are added onto another one count as exploded, and as nothing else. -/
theorem amount_absorbed (a : Account) (sides : Int64) (faces : List Int64) :
    amount a (faces.map (Die.drawn sides .exploded)) =
      if a = .exploded then (faces.length : Int) else 0 := by
  induction faces with
  | nil => simp
  | cons face faces ih =>
    rw [List.map_cons, amount_cons, ih]
    cases a <;> simp [Die.share, Die.drawn]
    omega

/-- A die that is compounded onto has taken over the faces of its chain. -/
theorem amount_compound (a : Account) (c : Option Comparison) {d : Die} (hd : d.status = .kept)
    {total : Int64} (sides : Int64) {faces : List Int64}
    (h : total.toInt = d.face.toInt + (faces.map (·.toInt)).sum) :
    ({ d with face := total, exploded := true } : Die).share a +
        amount a (faces.map (Die.drawn sides .exploded)) =
      d.share a + (Modifier.redraw .compound c).gain (faces.map (Call.mk 1 sides)) a := by
  rw [amount_absorbed]
  cases a <;> simp [Die.share, hd, Modifier.gain, Modifier.account?, Function.comp_def, h]

/-! ## Keeping and dropping -/

/-- A selection takes kept dice out and leaves them in play. -/
theorem amount_select (a : Account) (s : Selection) (n : Nat) (p : Pool) :
    amount a (p.select s n).dice = amount a p.dice := by
  have hshares : (p.select s n).dice.map (Die.share a) = p.dice.map (Die.share a) := by
    apply List.ext_getElem?
    intro i
    rw [List.getElem?_map, List.getElem?_map, getElem?_select]
    rcases hd : p.dice[i]? with _ | d
    · rfl
    · by_cases hi : i ∈ s.leaves n (ranked s.highest p.dice)
      · obtain ⟨d', hd', hkept⟩ := mem_ranked_iff.mp ((s.leaves_sublist n _).subset hi)
        obtain rfl : d = d' := Option.some.inj (hd.symm.trans hd')
        have hstatus : d.status = .kept := by simpa [Die.isKept] using hkept
        cases a <;> simp [hi, Die.share, Die.drop, hstatus]
      · simp [hi]
  rw [amount, hshares, amount]

/-! ## Modifiers -/

section Run

variable {σ : Type} [Source σ] {t t' : Tray σ} {config : Config} {p p' : Pool}

/-- From `p` to `p'` the modifier `m` has entered in every account what the calls made for it
add. -/
structure Balances (p : Pool) (m : Modifier) (cs : List Call) (p' : Pool) : Prop where
  amount : ∀ a, amount a p'.dice = Pool.amount a p.dice + m.gain cs a
  one_le : (∀ d ∈ p.dice, 1 ≤ d.face.toInt) → ∀ d ∈ p'.dice, 1 ≤ d.face.toInt
  success : p'.success = m.success?.or p.success

theorem amount_extended {m : Modifier} {dice : List Die} {results : List (Die × List Die)}
    (h : List.Forall₂ (fun d (r : Die × List Die) =>
      r.1.share a + amount a r.2 = d.share a + m.gain (r.2.map Die.call) a) dice results) :
    amount a (results.map (·.1) ++ results.flatMap (·.2)) =
      amount a dice + m.gain (results.flatMap fun r => r.2.map Die.call) a := by
  induction h with
  | nil => simp
  | cons hr _ ih =>
    rw [amount_append] at ih ⊢
    simp only [List.map_cons, List.flatMap_cons, amount_cons, amount_append, Modifier.gain_append]
    omega

/-- A modifier that changes dice one by one keeps the accounts if it does so for each die. -/
theorem extend_balances {m : Modifier} {c : Comparison} {f : Die → Rolling σ (Die × List Die)}
    (hm : m.success? = none)
    (hf : ∀ d r (t t' : Tray σ), d.meets c = true → t.roll (f d) = (.ok r, t') →
      ((∀ a, r.1.share a + amount a r.2 = d.share a + m.gain (r.2.map Die.call) a) ∧
        (1 ≤ d.face.toInt → ∀ d' ∈ r.1 :: r.2, 1 ≤ d'.face.toInt)) ∧
      t.Adds (r.2.map Die.call) t')
    (h : t.roll (p.extend c f) = (.ok p', t')) : ∃ cs, t.Adds cs t' ∧ p.Balances m cs p' := by
  obtain ⟨results, hall, hadds, rfl⟩ := results_of_extend (fun _ => ⟨by simp, by simp⟩) hf h
  refine ⟨_, hadds, fun a => amount_extended (hall.imp fun _ _ h => h.1 a), fun hone d hd => ?_,
    by rw [hm]; rfl⟩
  have hones : ∀ r ∈ results, ∀ d' ∈ r.1 :: r.2, 1 ≤ d'.face.toInt := by
    intro r hr
    obtain ⟨d, hd, -, hface⟩ := List.Forall₂.exists_of_mem_right hall r hr
    exact hface (hone d hd)
  simp only [List.mem_append, List.mem_map, List.mem_flatMap] at hd
  rcases hd with ⟨r, hr, rfl⟩ | ⟨r, hr, hd⟩
  · exact hones r hr _ List.mem_cons_self
  · exact hones r hr d (List.mem_cons_of_mem _ hd)

theorem one_le_of_mem_drawn {sides : Int64} {s : Status} {faces : List Int64}
    (h : ∀ face ∈ faces, 1 ≤ face.toInt) :
    ∀ d ∈ faces.map (Die.drawn sides s), 1 ≤ d.face.toInt := by
  simpa [Die.drawn] using h

theorem one_le_of_mem_replacements {sides : Int64} {faces : List Int64}
    (h : ∀ face ∈ faces, 1 ≤ face.toInt) :
    ∀ d ∈ replacements sides faces, 1 ≤ d.face.toInt := by
  have hcalls : ∀ d ∈ replacements sides faces, ∃ face ∈ faces, face = d.face := by
    intro d hd
    have hmem : d.call ∈ faces.map (Call.mk 1 sides) :=
      map_call_replacements sides faces ▸ List.mem_map_of_mem hd
    obtain ⟨face, hface, hcall⟩ := List.mem_map.mp hmem
    exact ⟨face, hface, congrArg Call.value hcall⟩
  intro d hd
  obtain ⟨face, hface, rfl⟩ := hcalls d hd
  exact h _ hface

theorem reroll_balances {m : Modifier} (hm : m.account? = some .rerolled)
    (hs : m.success? = none) {c : Comparison} {once : Bool} {limit : Nat}
    (h : t.roll (p.reroll c once limit) = (.ok p', t')) :
    ∃ cs, t.Adds cs t' ∧ p.Balances m cs p' := by
  refine extend_balances hs (fun d r t t' hd h => ?_) h
  obtain ⟨faces, t₁, hfaces, hpure⟩ := Tray.roll_bind_eq_ok_iff.mp h
  obtain ⟨rfl, rfl⟩ := Tray.roll_pure_eq_ok_iff.mp hpure
  obtain ⟨hchain, -, hdraws⟩ := chain_eq_ok_iff.mp hfaces
  rw [map_call_replacements]
  exact ⟨⟨fun a => amount_reroll a hm (status_of_meets hd) _ hchain.ne_nil,
    fun hone => List.forall_mem_cons.mpr ⟨hone, one_le_of_mem_replacements hdraws.one_le⟩⟩,
    hdraws.adds⟩

theorem compound_balances {c₀ : Option Comparison} {c : Comparison} {limit : Nat}
    (h : t.roll (p.compound c limit) = (.ok p', t')) :
    ∃ cs, t.Adds cs t' ∧ p.Balances (.redraw .compound c₀) cs p' := by
  refine extend_balances rfl (fun d r t t' hd h => ?_) h
  obtain ⟨⟨faces, total⟩, t₁, hfaces, hpure⟩ := Tray.roll_bind_eq_ok_iff.mp h
  obtain ⟨rfl, rfl⟩ := Tray.roll_pure_eq_ok_iff.mp hpure
  obtain ⟨-, -, hdraws, htotal⟩ := growingChain_eq_ok_iff.mp hfaces
  dsimp only at htotal hdraws ⊢
  have hsum : 0 ≤ (faces.map (·.toInt)).sum := sum_nonneg_of_one_le hdraws.one_le
  rw [Die.map_call_drawn]
  refine ⟨⟨fun a => amount_compound a c₀ (status_of_meets hd) _ htotal, fun hone => ?_⟩,
    hdraws.adds⟩
  refine List.forall_mem_cons.mpr ⟨?_, one_le_of_mem_drawn hdraws.one_le⟩
  show 1 ≤ total.toInt
  omega

theorem share_unmarked (a : Account) (d : Die) : d.unmarked.share a = d.share a := by
  cases a <;> rfl

theorem amount_unmarked (a : Account) (dice : List Die) :
    amount a (dice.map Die.unmarked) = amount a dice := by
  simp [amount, Function.comp_def, share_unmarked]

theorem explode_balances {c₀ : Option Comparison} {c : Comparison} {limit : Nat}
    (h : t.roll (p.explode c limit) = (.ok p', t')) :
    ∃ cs, t.Adds cs t' ∧ p.Balances (.redraw .explode c₀) cs p' := by
  obtain ⟨dice, t₁, hdice, hpure⟩ := Tray.roll_bind_eq_ok_iff.mp h
  obtain ⟨rfl, rfl⟩ := Tray.roll_pure_eq_ok_iff.mp hpure
  obtain ⟨faces, hdraws, hunmarked⟩ := unmarked_of_generations hdice
  refine ⟨_, hdraws.adds, fun a => ?_, fun hone d hd => ?_, rfl⟩
  · rw [← amount_unmarked, hunmarked, amount_append, amount_unmarked, amount_generation a c₀]
  · have hmem : d.unmarked ∈ p.dice.map Die.unmarked ++ faces.map (Die.drawn p.sides .kept) :=
      hunmarked ▸ List.mem_map_of_mem hd
    rcases List.mem_append.mp hmem with hold | hnew
    · obtain ⟨d', hd', hface⟩ := List.mem_map.mp hold
      have hface' : d'.unmarked.face = d.unmarked.face := by rw [hface]
      have hone' : 1 ≤ d'.unmarked.face.toInt := hone d' hd'
      rw [hface'] at hone'
      exact hone'
    · have hone' : 1 ≤ d.unmarked.face.toInt := one_le_of_mem_drawn hdraws.one_le _ hnew
      exact hone'

theorem one_le_of_mem_select {s : Selection} {n : Nat} {p : Pool}
    (h : ∀ d ∈ p.dice, 1 ≤ d.face.toInt) : ∀ d ∈ (p.select s n).dice, 1 ≤ d.face.toInt := by
  intro d hd
  obtain ⟨i, hi⟩ := List.getElem?_of_mem hd
  rw [getElem?_select, Option.map_eq_some_iff] at hi
  obtain ⟨d', hd', rfl⟩ := hi
  have hface := h d' (List.mem_of_getElem? hd')
  split
  · exact hface
  · exact hface

theorem select_balances (s : Selection) (n : UInt64) (p : Pool) :
    p.Balances (.select s n) [] (p.select s n.toNat) := by
  refine ⟨fun a => ?_, one_le_of_mem_select, rfl⟩
  rw [amount_select, Modifier.gain_nil, Int.add_zero]

/-- A modifier enters in the accounts what the calls made for it add. -/
theorem modify_balances {m : Modifier} (h : t.roll (p.modify config m) = (.ok p', t')) :
    ∃ cs, t.Adds cs t' ∧ p.Balances m cs p' := by
  cases m with
  | select s n =>
    obtain ⟨rfl, rfl⟩ := Tray.roll_pure_eq_ok_iff.mp h
    exact ⟨[], Tray.adds_nil_iff.mpr rfl, select_balances s n p⟩
  | countSuccesses c =>
    obtain ⟨rfl, rfl⟩ := Tray.roll_pure_eq_ok_iff.mp h
    exact ⟨[], Tray.adds_nil_iff.mpr rfl, by simp, fun hone => hone, rfl⟩
  | redraw r c =>
    cases r with
    | reroll => exact reroll_balances rfl rfl h
    | rerollOnce => exact reroll_balances rfl rfl h
    | explode => exact explode_balances h
    | compound => exact compound_balances h

end Run

end Pool

end Tabletop
