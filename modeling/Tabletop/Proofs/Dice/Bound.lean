import Mathlib
import Tabletop.Proofs.Dice.Replay

/-!
# How much is rolled

A dice term draws no more dice than its count and its modifiers allow, also if it fails on the way.

* `Pool.modify_callsAtMost`: a modifier that draws makes at most one chain for each die.
* `Pool.modify_grows`: the dice that a modifier adds are its calls.
* `Pool.foldlM_modify_bound`: each modifier that draws multiplies the number of dice by at most one
  more than the length of a chain.
* `Expr.dice_calls_bounded`: the bound for a dice term.
-/

namespace Tabletop

variable {σ : Type} [Source σ]

/-- The modifier draws dice: it is a reroll or an explosion. -/
def Modifier.isRedraw : Modifier → Bool
  | redraw .. => true
  | select .. | countSuccesses _ => false

namespace Pool

open Rolling

/-- Each face is one call, and all are drawn if there is no error. -/
theorem drawFaces_calls (sides : Int64) (n : Nat) :
    Ensures (drawFaces sides n : Rolling σ (List Int64)) fun cs r =>
      cs.length ≤ n ∧ ∀ faces, r = .ok faces → cs.length = n ∧ faces.length = n := by
  have hdrawn : CallsAtMost (drawFaces sides n : Rolling σ (List Int64)) n :=
    CallsAtMost.composes.drawFaces sides n
  refine hdrawn.and_ok fun t faces t' h => ?_
  obtain ⟨hlength, hdraws⟩ := Rolling.draws_of_drawFaces h
  exact ⟨_, hdraws.adds, by rw [List.length_map, hlength], hlength⟩

/-! ## Modifiers -/

/-- A generation has one die for each die of the one before that explodes, so none has more dice
than the first. -/
theorem generations_callsAtMost (c : Comparison) (sides : Int64) (limit n : Nat)
    (dice : List Die) :
    CallsAtMost (generations c sides limit n dice : Rolling σ (List Die)) (dice.length * n) := by
  induction n generalizing dice with
  | zero =>
    by_cases hzero : dice.countP (Die.meets c) = 0
    · rw [generations_quiet hzero]
      exact .pure _ _
    · rw [generations_zero hzero]
      exact .throw _ _
  | succ n ih =>
    by_cases hzero : dice.countP (Die.meets c) = 0
    · rw [generations_quiet hzero]
      exact .pure _ _
    · rw [generations_succ hzero]
      have htriggers : dice.countP (Die.meets c) ≤ dice.length := List.countP_le_length
      generalize dice.countP (Die.meets c) = triggers at htriggers ⊢
      have htotal : triggers + triggers * n ≤ dice.length * (n + 1) := by
        rw [Nat.add_comm, ← Nat.mul_succ]
        exact Nat.mul_le_mul_right _ htriggers
      refine (drawFaces_calls sides triggers).bind (fun cs faces ⟨hcs, hdrawn⟩ => ?_)
        fun cs e ⟨hcs, _⟩ => ?_
      · have hlater := (ih (faces.map (.drawn sides .kept))).bind (n := 0) fun later =>
          .pure (dice.map (Die.marked c) ++ later) 0
        refine Ensures.mono hlater fun ds r hds => ?_
        rw [List.length_map, (hdrawn faces rfl).2] at hds
        rw [List.length_append]
        omega
      · exact Nat.le_trans hcs (by omega)

/-- A modifier that draws makes at most one chain for each die. -/
theorem modify_callsAtMost (config : Config) (p : Pool) (m : Modifier) :
    CallsAtMost (p.modify config m : Rolling σ Pool)
      (p.dice.length * if m.isRedraw then config.maxChain else 0) := by
  cases m with
  | select s n => exact .pure _ _
  | countSuccesses c => exact .pure _ _
  | redraw r c =>
    cases r with
    | reroll => exact CallsAtMost.composes.reroll _ false trivial (Nat.le_refl _) p
    | rerollOnce => exact CallsAtMost.composes.reroll _ true trivial (Nat.le_refl _) p
    | explode => exact (generations_callsAtMost _ _ _ _ _).bind (n := 0) fun _ => .pure _ 0
    | compound => exact CallsAtMost.composes.compound _ trivial trivial (Nat.le_refl _) p

theorem Extends.length_dice {p p' : Pool} {changed : Die → Prop} {cs : List Call}
    (h : p.Extends changed cs p') : p'.dice.length = p.dice.length + cs.length := by
  obtain ⟨old, hdice, hall⟩ := h.dice
  have hlength := congrArg List.length hdice
  rw [List.length_map, List.length_append, List.length_map] at hlength
  rw [hall.length_eq, hlength]

/-- The dice of the pool and the calls of a modifier are no more than the growth of one chain for
each die, and the pool has grown by just the calls if there is no error. -/
theorem modify_grows (config : Config) (p : Pool) (m : Modifier) :
    Ensures (p.modify config m : Rolling σ Pool) fun cs r =>
      p.dice.length + cs.length ≤
        p.dice.length * (1 + config.maxChain) ^ (if m.isRedraw then 1 else 0) ∧
      ∀ p', r = .ok p' → p'.dice.length = p.dice.length + cs.length := by
  have hgrown := (modify_callsAtMost (σ := σ) config p m).and_ok
    (S := fun cs p' => p'.dice.length = p.dice.length + cs.length)
    fun t p' t' h => by
      obtain ⟨cs, hcs, hextends⟩ := modify_extends h
      exact ⟨cs, hcs, hextends.length_dice⟩
  refine hgrown.mono fun cs r ⟨hcs, hlength⟩ => ⟨?_, hlength⟩
  split at hcs
  · rw [if_pos ‹_›, Nat.pow_one, Nat.mul_add, Nat.mul_one]
    exact Nat.add_le_add_left hcs _
  · rw [if_neg ‹_›, Nat.pow_zero, Nat.mul_one]
    exact Nat.add_le_add_left hcs _

/-- Each modifier that draws multiplies the dice by at most one more than the length of a chain. -/
theorem foldlM_modify_bound (config : Config) (ms : List Modifier) (p : Pool) :
    Ensures (ms.foldlM (modify config) p : Rolling σ Pool) fun cs _ =>
      p.dice.length + cs.length ≤
        p.dice.length * (1 + config.maxChain) ^ ms.countP Modifier.isRedraw := by
  induction ms generalizing p with
  | nil => exact .pure (by simp)
  | cons m ms ih =>
    rw [List.foldlM_cons, List.countP_cons, Nat.add_comm (ms.countP _), Nat.pow_add,
      ← Nat.mul_assoc]
    refine (modify_grows config p m).bind (fun cs p' ⟨hcs, hlength⟩ => ?_) fun cs e ⟨hcs, _⟩ => ?_
    · refine Ensures.mono (ih p') fun ds r hds => ?_
      rw [hlength p' rfl] at hds
      rw [List.length_append, ← Nat.add_assoc]
      exact Nat.le_trans hds (Nat.mul_le_mul_right _ hcs)
    · exact Nat.le_trans hcs (Nat.le_mul_of_pos_right _ (Nat.pow_pos (by omega)))

/-! ## Dice terms -/

/-- The most calls that a dice term of so many dice makes. -/
def callLimit (config : Config) (count : Number) (ms : List Modifier) : Nat :=
  match count.toInt? with
  | some n =>
    if config.maxDice < n.toInt.toNat then 0
    else n.toInt.toNat * (1 + config.maxChain) ^ ms.countP Modifier.isRedraw
  | none => 0

theorem callLimit_of_check {config : Config} {count sides : Number} {ms : List Modifier} {n : Nat}
    {s : Int64} (h : check config count sides ms = .ok (n, s)) :
    callLimit config count ms = n * (1 + config.maxChain) ^ ms.countP Modifier.isRedraw := by
  obtain ⟨k, hspec, rfl, hmax, -⟩ := check_eq_ok_iff.mp h
  rw [callLimit, (spec_eq_ok_iff.mp hspec).1]
  exact if_neg (by omega)

/-- A dice term is checked before its first die is drawn, and draws within its limit. -/
theorem roll_callsAtMost (config : Config) (count sides : Number) (ms : List Modifier) :
    CallsAtMost (Pool.roll config count sides ms : Rolling σ Pool) (callLimit config count ms) := by
  refine Ensures.bind
    (Ensures.liftM (Q := fun cs r => cs = [] ∧ r = check config count sides ms) ⟨rfl, rfl⟩) ?_
    fun cs e ⟨hcs, _⟩ => hcs ▸ Nat.zero_le _
  rintro cs ⟨n, s⟩ ⟨rfl, hcheck⟩
  rw [callLimit_of_check hcheck.symm]
  have hpow : 0 < (1 + config.maxChain) ^ ms.countP Modifier.isRedraw :=
    Nat.pow_pos (Nat.add_comm _ _ ▸ Nat.succ_pos _)
  refine (drawFaces_calls s n).bind (fun cs faces ⟨_, hdrawn⟩ => ?_)
    fun cs e ⟨hcs, _⟩ => Nat.le_trans hcs (Nat.le_mul_of_pos_right _ hpow)
  obtain ⟨hcs, hfaces⟩ := hdrawn faces rfl
  refine (foldlM_modify_bound config ms (ofFaces s faces)).mono fun ds r hds => ?_
  rw [show (ofFaces s faces).dice.length = n by rw [ofFaces, List.length_map, hfaces]] at hds
  rw [List.nil_append, List.length_append, hcs]
  exact hds

end Pool

/-! ## Expressions -/

/-- What a dice term draws for itself, when its count is `x`, is bounded by the count, the limit of
a chain and the number of modifiers that draw; nothing is drawn for too many dice. This holds of
every run of the term, however it ends. -/
theorem Expr.dice_calls_bounded {config : Config} {resolve : Resolver} {count sides : Expr}
    {ms : List Modifier} {t t₁ : Tray σ} {x : Number} {groups : List DiceGroup}
    (hcount : t.roll (count.eval config resolve) = (.ok (x, groups), t₁)) :
    ∃ cs, (t₁.roll (sides.eval config resolve)).2.Adds cs
        (t.roll ((dice count sides ms).eval config resolve)).2 ∧
      (∀ n, x.toInt? = some n →
        cs.length ≤ n.toInt.toNat * (1 + config.maxChain) ^ ms.countP Modifier.isRedraw ∧
        (config.maxDice < n.toInt.toNat → cs = [])) ∧
      (x.toInt? = none → cs = []) := by
  obtain ⟨cs, hcs, hlength⟩ : ∃ cs, (t₁.roll (sides.eval config resolve)).2.Adds cs
      (t.roll ((dice count sides ms).eval config resolve)).2 ∧
      cs.length ≤ Pool.callLimit config x ms := by
    rw [Expr.eval, Tray.roll_bind_of_ok hcount, Tray.roll_bind]
    rcases t₁.roll (sides.eval config resolve) with ⟨e | ⟨s, groups'⟩, t₂⟩
    · exact ⟨[], Tray.adds_nil_iff.mpr rfl, Nat.zero_le _⟩
    · have hgroup : ∀ p : Pool, CallsAtMost (do
          let group ← p.group (dice count sides ms).text
          pure (.int group.value, groups ++ groups' ++ [group]) :
            Rolling σ (Number × List DiceGroup)) 0 := fun p =>
        (CallsAtMost.composes.group trivial p _ 0).bind (n := 0) fun _ => .pure _ 0
      exact (Pool.roll_callsAtMost config x s ms).bind hgroup t₂
  refine ⟨cs, hcs, fun n hn => ?_, fun hnone => ?_⟩
  · rw [Pool.callLimit, hn] at hlength
    dsimp only at hlength
    split at hlength
    · have hnil := List.length_eq_zero_iff.mp (Nat.le_zero.mp hlength)
      exact ⟨hnil ▸ Nat.zero_le _, fun _ => hnil⟩
    · exact ⟨hlength, fun hmax => absurd hmax ‹_›⟩
  · rw [Pool.callLimit, hnone] at hlength
    exact List.length_eq_zero_iff.mp (Nat.le_zero.mp hlength)

/-- Two dice that explode on every six, with chains of one draw: the chains reach the limit behind
four draws, and the term fails. -/
theorem Expr.dice_calls_bounded_exploding :
    let config : Config := ⟨100, 1, .truncate⟩
    let run := (Tray.ofSource (Script.constant 6)).roll
      ((dice (literal 2) (literal 6) [.redraw .explode none]).eval config fun _ => none)
    run.1 = .error (.chainTooLong 1) ∧ run.2.calls.size = 2 * (1 + 1) ^ 1 ∧
      ∃ cs, (Tray.ofSource (Script.constant 6)).Adds cs run.2 ∧ cs.length ≤ 2 * (1 + 1) ^ 1 := by
  refine ⟨by cbv, by cbv, ?_⟩
  obtain ⟨cs, hcs, hbound, -⟩ := @dice_calls_bounded Script _ ⟨100, 1, .truncate⟩ (fun _ => none)
    (literal 2) (literal 6) [.redraw .explode none] (Tray.ofSource (Script.constant 6)) _ _ _ rfl
  exact ⟨cs, hcs, (hbound 2 rfl).1⟩

end Tabletop
