import Mathlib.Algebra.Order.Group.Int
import Tabletop.Proofs.Dice.Compounding
import Tabletop.Proofs.Dice.Conservation
import Tabletop.Proofs.Dice.Exploding

/-!
# Explosions of one die

Where no more than one die can explode, it does not matter whether the faces that it brings are dice
of their own or are added onto it: both make the same draws and come to the same value.

* `Pool.LoneChain c limit dice faces`: the faces that are drawn for such dice.
* `Pool.explode_sum_iff`, `Pool.compound_sum_iff`: what the dice are worth then, by these faces.
* `Pool.valueBehind`: a modifier, and the value of the dice behind it.
* `Expr.explode_agrees_compound`: the two agree, for pools and for terms of one die.
-/

namespace Tabletop

namespace Pool

/-- The faces drawn for dice of which at most one meets the condition: one chain of at most `limit`
faces if there is one that does. -/
def LoneChain (c : Comparison) (limit : Nat) (dice : List Die) (faces : List Int64) : Prop :=
  if dice.countP (Die.meets c) = 0 then faces = []
  else CompleteChain c.accepts faces ∧ faces.length ≤ limit

section Dice

variable {c : Comparison} {limit n : Nat} {sides : Int64} {dice : List Die} {faces : List Int64}

/-- The chain behind a die drawn is the rest of the chain that begins with it. -/
theorem loneChain_drawn_iff {face : Int64} :
    LoneChain c n [.drawn sides .kept face] faces ↔
      CompleteChain c.accepts (face :: faces) ∧ (face :: faces).length ≤ n + 1 := by
  have hmeets : (Die.drawn sides .kept face).meets c = c.accepts face := by
    simp [Die.meets, Die.isKept, Die.drawn]
  rw [LoneChain, List.countP_singleton, hmeets, completeChain_cons_iff, List.length_cons,
    Nat.add_le_add_iff_right]
  by_cases haccepts : c.accepts face = true
  · simp [haccepts]
  · simp only [haccepts, Bool.false_eq_true, if_false, if_true]
    constructor
    · rintro rfl
      exact ⟨rfl, Nat.zero_le n⟩
    · exact And.left

/-- Exploded or not, dice are worth their faces. -/
theorem keptSum_marked (c : Comparison) (dice : List Die) :
    keptSum (dice.map (Die.marked c)) = keptSum dice := by
  rw [keptSum, List.filter_map, List.map_map]
  rfl

/-- The chains that are added onto dice of which at most one meets the condition are one chain. -/
theorem loneChain_of_drawnFor {chains : List (List Int64)}
    (h : List.Forall₂ (DrawnFor c (AddsOnto c limit)) dice chains)
    (hlone : dice.countP (Die.meets c) ≤ 1) : LoneChain c limit dice chains.flatten := by
  induction h with
  | nil => rfl
  | @cons d faces dice chains hfaces hrest ih =>
    by_cases hd : d.meets c = true
    · rw [drawnFor_of_meets hd] at hfaces
      rw [List.countP_cons_of_pos hd] at hlone
      have hzero : dice.countP (Die.meets c) = 0 := by omega
      have hnil := ih (by omega)
      rw [LoneChain, if_pos hzero] at hnil
      rw [LoneChain, List.countP_cons_of_pos hd, if_neg (Nat.succ_ne_zero _), List.flatten_cons,
        hnil, List.append_nil]
      exact ⟨hfaces.1, hfaces.2.1⟩
    · rw [drawnFor_of_not_meets hd] at hfaces
      rw [List.countP_cons_of_neg hd] at hlone
      rw [LoneChain, List.countP_cons_of_neg hd, hfaces, List.flatten_cons, List.nil_append]
      exact ih hlone

/-- One chain can be added onto the die that meets the condition, if there is room for it. -/
theorem exists_drawnFor_of_loneChain (hchain : LoneChain c limit dice faces)
    (hlone : dice.countP (Die.meets c) ≤ 1)
    (hroom : ∀ d ∈ dice, d.isKept = true →
      ∃ total : Int64, total.toInt = d.face.toInt + (faces.map (·.toInt)).sum) :
    ∃ chains, List.Forall₂ (DrawnFor c (AddsOnto c limit)) dice chains ∧
      chains.flatten = faces := by
  induction dice with
  | nil => exact ⟨[], .nil, hchain.symm⟩
  | cons d dice ih =>
    obtain ⟨hdie, hroom⟩ := List.forall_mem_cons.mp hroom
    by_cases hd : d.meets c = true
    · rw [List.countP_cons_of_pos hd] at hlone
      rw [LoneChain, List.countP_cons_of_pos hd, if_neg (Nat.succ_ne_zero _)] at hchain
      have hquiet : dice.countP (Die.meets c) = 0 := by omega
      obtain ⟨chains, hall, hnil⟩ := exists_drawnFor_quiet c (AddsOnto c limit)
        (Die.countP_meets_eq_zero_iff.mp hquiet)
      have hfaces : DrawnFor c (AddsOnto c limit) d faces :=
        (drawnFor_of_meets hd).mpr ⟨hchain.1, hchain.2, hdie (isKept_of_meets hd)⟩
      exact ⟨faces :: chains, .cons hfaces hall, by rw [List.flatten_cons, hnil, List.append_nil]⟩
    · rw [List.countP_cons_of_neg hd] at hlone
      rw [LoneChain, List.countP_cons_of_neg hd] at hchain
      obtain ⟨chains, hall, hflat⟩ := ih hchain hlone hroom
      exact ⟨[] :: chains, .cons ((drawnFor_of_not_meets hd).mpr rfl) hall, hflat⟩

/-- What is added onto dice adds to what they are worth. -/
theorem keptSum_compounded {chains : List (List Int64)}
    (h : List.Forall₂ (DrawnFor c (AddsOnto c limit)) dice chains) :
    keptSum (List.zipWith (addedOnto c) dice chains ++
        chains.flatMap (List.map (Die.drawn sides .exploded))) =
      keptSum dice + (chains.flatten.map (·.toInt)).sum := by
  have hold : keptSum (List.zipWith (addedOnto c) dice chains) =
      keptSum dice + (chains.flatten.map (·.toInt)).sum := by
    induction h with
    | nil => rfl
    | @cons d faces dice chains hfaces hrest ih =>
      rw [List.zipWith_cons_cons, keptSum_cons, keptSum_cons, isKept_addedOnto, ih,
        List.flatten_cons, List.map_append, List.sum_append]
      by_cases hd : d.meets c = true
      · rw [drawnFor_of_meets hd] at hfaces
        obtain ⟨-, -, total, htotal⟩ := hfaces
        have hkept := isKept_of_meets hd
        rw [addedOnto_of_meets hd htotal, if_pos hkept, if_pos hkept, htotal]
        omega
      · rw [drawnFor_of_not_meets hd] at hfaces
        rw [hfaces, addedOnto_of_not_meets d (by simpa using hd), List.map_nil, List.sum_nil]
        omega
  have hnew : keptSum (chains.flatMap (List.map (Die.drawn sides .exploded))) = 0 := by
    rw [keptSum, List.filter_eq_nil_iff.mpr (not_isKept_of_mem_absorbed sides chains)]
    rfl
  rw [keptSum_append, hold, hnew, Int.add_zero]

/-- If the dice with further faces have a value, there is room for the faces on each of them. -/
theorem exists_total {v : Int64} (hfaces : ∀ face ∈ faces, 1 ≤ face.toInt)
    (hone : ∀ d ∈ dice, 1 ≤ d.face.toInt)
    (hv : v.toInt = keptSum dice + (faces.map (·.toInt)).sum) {d : Die} (hd : d ∈ dice)
    (hkept : d.isKept = true) :
    ∃ total : Int64, total.toInt = d.face.toInt + (faces.map (·.toInt)).sum := by
  have hsum := sum_nonneg_of_one_le hfaces
  have hdie := hone d hd
  have hle : d.face.toInt ≤ keptSum dice := by
    refine List.single_le_sum (fun x hx => ?_) _
      (List.mem_map_of_mem (List.mem_filter.mpr ⟨hd, hkept⟩))
    obtain ⟨d', hd', rfl⟩ := List.mem_map.mp hx
    have := hone d' (List.mem_filter.mp hd').1
    omega
  have hmin : Int64.minValue.toInt ≤ 0 := by decide
  have hmax := v.toInt_le
  exact ⟨.ofIntLE _ (by omega) (by omega), Int64.toInt_ofIntLE⟩

end Dice

section Run

variable {σ : Type} [Source σ] {c : Comparison} {sides : Int64} {limit n : Nat} {t t' : Tray σ}
  {dice ds : List Die} {p p' : Pool} {v : Int64}

theorem drawFaces_one_eq_ok_iff {faces : List Int64} :
    t.roll (Rolling.drawFaces sides 1) = (.ok faces, t') ↔
      ∃ face, faces = [face] ∧ t.roll (Rolling.draw sides) = (.ok face, t') := by
  rw [Rolling.drawFaces, Tray.roll_bind_eq_ok_iff]
  constructor
  · rintro ⟨face, t₁, hface, hpure⟩
    obtain ⟨rfl, rfl⟩ := Tray.roll_pure_eq_ok_iff.mp hpure
    exact ⟨face, rfl, hface⟩
  · rintro ⟨face, rfl, hface⟩
    exact ⟨face, t', hface, rfl⟩

/-- Behind dice that do not meet the condition nothing is drawn. -/
theorem generations_quiet_iff (hzero : dice.countP (Die.meets c) = 0) :
    t.roll (generations c sides limit n dice) = (.ok ds, t') ↔
      ∃ faces, LoneChain c n dice faces ∧ t.Draws sides faces t' ∧
        ds = (dice ++ faces.map (Die.drawn sides .kept)).map (Die.marked c) := by
  simp only [LoneChain, if_pos hzero]
  rw [generations_quiet hzero, Tray.roll_pure_eq_ok_iff]
  constructor
  · rintro ⟨rfl, rfl⟩
    exact ⟨[], rfl, Tray.draws_nil t' sides, by simp [Die.map_marked_quiet hzero]⟩
  · rintro ⟨faces, rfl, hdraws, rfl⟩
    exact ⟨by simp [Die.map_marked_quiet hzero], Tray.draws_nil_iff.mp hdraws⟩

/-- The generations behind one die that meets the condition are the faces of one chain. -/
theorem generations_lone_iff (hlone : dice.countP (Die.meets c) ≤ 1) :
    t.roll (generations c sides limit n dice) = (.ok ds, t') ↔
      ∃ faces, LoneChain c n dice faces ∧ t.Draws sides faces t' ∧
        ds = (dice ++ faces.map (Die.drawn sides .kept)).map (Die.marked c) := by
  -- A generation has at most one die here, so the chain loses its first face at each of them.
  induction n generalizing t dice ds with
  | zero =>
    by_cases hzero : dice.countP (Die.meets c) = 0
    · exact generations_quiet_iff hzero
    · rw [generations_zero hzero, Tray.roll_throw]
      constructor
      · rintro ⟨⟩
      · rintro ⟨faces, hchain, -⟩
        rw [LoneChain, if_neg hzero] at hchain
        exact absurd (List.length_eq_zero_iff.mp (Nat.le_zero.mp hchain.2)) hchain.1.ne_nil
  | succ n ih =>
    by_cases hzero : dice.countP (Die.meets c) = 0
    · exact generations_quiet_iff hzero
    · have hone : dice.countP (Die.meets c) = 1 := by omega
      have hnext (face : Int64) : [Die.drawn sides .kept face].countP (Die.meets c) ≤ 1 :=
        List.countP_le_length
      simp only [LoneChain, if_neg hzero]
      rw [generations_eq_ok_iff, hone]
      constructor
      · rintro (⟨⟨⟩, -⟩ | ⟨-, _, faces, later, t₁, ⟨⟩, hfaces, hlater, rfl⟩)
        obtain ⟨face, rfl, hface⟩ := drawFaces_one_eq_ok_iff.mp hfaces
        obtain ⟨faces, hchain, hdraws, rfl⟩ := (ih (hnext face)).mp hlater
        exact ⟨face :: faces, loneChain_drawn_iff.mp hchain,
          Tray.draws_cons_iff.mpr ⟨t₁, hface, hdraws⟩, by simp⟩
      · rintro ⟨faces, hchain, hdraws, rfl⟩
        obtain ⟨face, faces, rfl⟩ := List.exists_cons_of_ne_nil hchain.1.ne_nil
        obtain ⟨t₁, hface, hrest⟩ := Tray.draws_cons_iff.mp hdraws
        have hlater := (ih (hnext face)).mpr
          ⟨faces, loneChain_drawn_iff.mpr hchain, hrest, rfl⟩
        exact .inr ⟨Nat.one_ne_zero, n, [face], _, t₁, rfl,
          drawFaces_one_eq_ok_iff.mpr ⟨face, rfl, hface⟩, hlater, by simp⟩

/-- An explosion of one die makes the dice worth all faces drawn beside their own. -/
theorem explode_sum_iff (hlone : p.dice.countP (Die.meets c) ≤ 1) :
    (∃ p', t.roll (p.explode c limit) = (.ok p', t') ∧ v.toInt = keptSum p'.dice) ↔
      ∃ faces, LoneChain c limit p.dice faces ∧ t.Draws p.sides faces t' ∧
        v.toInt = keptSum p.dice + (faces.map (·.toInt)).sum := by
  have hsum (faces : List Int64) :
      keptSum ((p.dice ++ faces.map (Die.drawn p.sides .kept)).map (Die.marked c)) =
        keptSum p.dice + (faces.map (·.toInt)).sum := by
    rw [keptSum_marked, keptSum_append, keptSum_drawn]
  constructor
  · rintro ⟨p', hrun, hv⟩
    obtain ⟨ds, hds, rfl⟩ := explode_eq_ok_iff.mp hrun
    obtain ⟨faces, hchain, hdraws, rfl⟩ := (generations_lone_iff hlone).mp hds
    exact ⟨faces, hchain, hdraws, hv.trans (hsum faces)⟩
  · rintro ⟨faces, hchain, hdraws, hv⟩
    have hds : t.roll (generations c p.sides limit limit p.dice) = (.ok _, t') :=
      (generations_lone_iff hlone).mpr ⟨faces, hchain, hdraws, rfl⟩
    exact ⟨_, explode_eq_ok_iff.mpr ⟨_, hds, rfl⟩, hv.trans (hsum faces).symm⟩

/-- Compounding one die comes to the same. -/
theorem compound_sum_iff (hone : ∀ d ∈ p.dice, 1 ≤ d.face.toInt)
    (hlone : p.dice.countP (Die.meets c) ≤ 1) :
    (∃ p', t.roll (p.compound c limit) = (.ok p', t') ∧ v.toInt = keptSum p'.dice) ↔
      ∃ faces, LoneChain c limit p.dice faces ∧ t.Draws p.sides faces t' ∧
        v.toInt = keptSum p.dice + (faces.map (·.toInt)).sum := by
  constructor
  · rintro ⟨p', hrun, hv⟩
    obtain ⟨chains, hall, hdraws, rfl⟩ := compound_eq_ok_iff.mp hrun
    exact ⟨chains.flatten, loneChain_of_drawnFor hall hlone, hdraws,
      hv.trans (keptSum_compounded hall)⟩
  · rintro ⟨faces, hchain, hdraws, hv⟩
    -- The value bounds all kept faces together, so no sum on one die overflows before it does.
    have hroom (d : Die) (hd : d ∈ p.dice) (hkept : d.isKept = true) :=
      exists_total hdraws.one_le hone hv hd hkept
    obtain ⟨chains, hall, rfl⟩ := exists_drawnFor_of_loneChain hchain hlone hroom
    exact ⟨_, compound_eq_ok_iff.mpr ⟨chains, hall, hdraws, rfl⟩,
      hv.trans (keptSum_compounded hall).symm⟩

/-! ## Values -/

/-- A modifier, and the value of the dice behind it. -/
def valueBehind (config : Config) (p : Pool) (m : Modifier) : Rolling σ Int64 := do
  let p' ← p.modify config m
  Rolling.orOverflow p'.value?

theorem valueBehind_eq_ok_iff {config : Config} {m : Modifier} :
    t.roll (p.valueBehind config m) = (.ok v, t') ↔
      ∃ p', t.roll (p.modify config m) = (.ok p', t') ∧ p'.value? = some v := by
  rw [valueBehind, Tray.roll_bind_eq_ok_iff]
  constructor
  · rintro ⟨p', t₁, hrun, hvalue⟩
    obtain ⟨hv, rfl⟩ := Tray.roll_orOverflow_eq_ok_iff.mp hvalue
    exact ⟨p', hrun, hv⟩
  · rintro ⟨p', hrun, hv⟩
    exact ⟨p', t', hrun, Tray.roll_orOverflow_eq_ok_iff.mpr ⟨hv, rfl⟩⟩

/-- Without a success count, the value is what the kept dice are worth. -/
theorem valueBehind_eq_sum_iff {config : Config} {m : Modifier} (hm : m.success? = none)
    (hsuccess : p.success = none) (hone : ∀ d ∈ p.dice, 1 ≤ d.face.toInt) :
    t.roll (p.valueBehind config m) = (.ok v, t') ↔
      ∃ p', t.roll (p.modify config m) = (.ok p', t') ∧ v.toInt = keptSum p'.dice := by
  rw [valueBehind_eq_ok_iff]
  refine exists_congr fun p' => and_congr_right fun hrun => ?_
  obtain ⟨cs, -, hbalances⟩ := modify_balances hrun
  have hnone : p'.success = none := by rw [hbalances.success, hm, hsuccess, Option.or_none]
  rw [value?_of_success_eq_none hnone (hbalances.one_le hone), checked_eq_some_iff]

theorem valueBehind_explode_iff (config : Config) (condition : Option Comparison)
    (hsuccess : p.success = none) (hone : ∀ d ∈ p.dice, 1 ≤ d.face.toInt)
    (hlone : p.dice.countP (Die.meets (condition.getD (.equalTo p.sides))) ≤ 1) :
    t.roll (p.valueBehind config (.redraw .explode condition)) = (.ok v, t') ↔
      t.roll (p.valueBehind config (.redraw .compound condition)) = (.ok v, t') := by
  rw [valueBehind_eq_sum_iff rfl hsuccess hone, valueBehind_eq_sum_iff rfl hsuccess hone]
  exact (explode_sum_iff hlone).trans (compound_sum_iff hone hlone).symm

/-- No more than one of the dice can explode if there is just one. -/
theorem valueBehind_explode_single_iff (config : Config) (condition : Option Comparison)
    {faces : List Int64} (hlength : faces.length = 1) (hfaces : ∀ face ∈ faces, 1 ≤ face.toInt) :
    t.roll ((ofFaces sides faces).valueBehind config (.redraw .explode condition)) =
        (.ok v, t') ↔
      t.roll ((ofFaces sides faces).valueBehind config (.redraw .compound condition)) =
        (.ok v, t') := by
  have hsingle : (ofFaces sides faces).dice.length = 1 := (List.length_map _).trans hlength
  exact valueBehind_explode_iff config condition rfl (one_le_of_mem_drawn hfaces)
    (hsingle ▸ List.countP_le_length)

end Run

end Pool

namespace Expr

variable {σ : Type} [Source σ] {t t' : Tray σ} {config : Config} {resolve : Resolver}
  {count sides : Expr} {x : Number}

/-- A dice term with one modifier is drawn and valued behind it. -/
theorem roll_total_iff {m : Modifier} :
    (∃ r, t.roll ((dice count sides [m]).roll config resolve) = (.ok r, t') ∧ r.total = x) ↔
      ∃ n gs t₁ s gs' t₂ k z faces t₃ v, t.roll (count.eval config resolve) = (.ok (n, gs), t₁) ∧
        t₁.roll (sides.eval config resolve) = (.ok (s, gs'), t₂) ∧
        Pool.check config n s [m] = .ok (k, z) ∧
        t₂.roll (Rolling.drawFaces z k) = (.ok faces, t₃) ∧
        t₃.roll ((Pool.ofFaces z faces).valueBehind config m) = (.ok v, t') ∧ x = .int v := by
  have hfold (p : Pool) : [m].foldlM (Pool.modify config) p =
      (p.modify config m : Rolling σ Pool) := by
    rw [List.foldlM_cons]
    exact bind_pure _
  constructor
  · rintro ⟨r, hr, rfl⟩
    obtain ⟨⟨y, groups⟩, t₁, heval, hpure⟩ := Tray.roll_bind_eq_ok_iff.mp hr
    obtain ⟨rfl, rfl⟩ := Tray.roll_pure_eq_ok_iff.mp hpure
    obtain ⟨gs, gs', t₁, run, hms, -, hcount, hsides, rfl, hy, -⟩ := exists_run_of_dice heval
    obtain ⟨p, t₂, hpool, hgroup⟩ := Tray.roll_bind_eq_ok_iff.mp run.rolled
    obtain ⟨hstop, v, hv, hg⟩ := Pool.roll_group_eq_ok_iff.mp hgroup
    rw [hms] at hpool
    obtain ⟨k, z, faces, t₃, hcheck, hfaces, hm⟩ := Pool.roll_eq_ok_iff.mp hpool
    rw [hfold, ← hstop] at hm
    exact ⟨_, gs, t₁, _, gs', _, k, z, faces, t₃, v, hcount, hsides, hcheck, hfaces,
      Pool.valueBehind_eq_ok_iff.mpr ⟨p, hm, hv⟩, by rw [hy, hg]⟩
  · rintro ⟨n, gs, t₁, s, gs', t₂, k, z, faces, t₃, v, hcount, hsides, hcheck, hfaces, hv, rfl⟩
    obtain ⟨p, hp, hv⟩ := Pool.valueBehind_eq_ok_iff.mp hv
    rw [← hfold] at hp
    have heval := roll_dice hcount hsides
      (Pool.roll_eq_ok_iff.mpr ⟨k, z, faces, t₃, hcheck, hfaces, hp⟩)
    rw [hv] at heval
    exact ⟨_, Tray.roll_bind_eq_ok_iff.mpr ⟨_, t', heval, rfl⟩, rfl⟩

/-- If no more than one die of a pool meets the condition, all its faces count from one and it has
no success count, then exploding that die and compounding onto it come to the same value or to none,
with the same calls to the source. So do a term of one die that explodes and the one that compounds,
whatever its sides and the condition. -/
theorem explode_agrees_compound (config : Config) (condition : Option Comparison) :
    (∀ p : Pool, p.success = none → (∀ d ∈ p.dice, 1 ≤ d.face.toInt) →
      p.dice.countP (Die.meets (condition.getD (.equalTo p.sides))) ≤ 1 →
      ∀ (t t' : Tray σ) (v : Int64),
        t.roll (p.valueBehind config (.redraw .explode condition)) = (.ok v, t') ↔
          t.roll (p.valueBehind config (.redraw .compound condition)) = (.ok v, t')) ∧
    ∀ (resolve : Resolver) (sides : Expr) (t t' : Tray σ) (x : Number),
      (∃ r, t.roll ((dice (literal 1) sides [.redraw .explode condition]).roll config resolve) =
          (.ok r, t') ∧ r.total = x) ↔
        ∃ r, t.roll ((dice (literal 1) sides [.redraw .compound condition]).roll config resolve) =
          (.ok r, t') ∧ r.total = x := by
  refine ⟨fun p hsuccess hone hlone t t' v =>
    Pool.valueBehind_explode_iff config condition hsuccess hone hlone, ?_⟩
  intro resolve sides t t' x
  have hfaces_one {n s : Number} {gs : List DiceGroup} {t₁ t₂ t₃ : Tray σ} {k : Nat} {z : Int64}
      {faces : List Int64} {ms : List Modifier}
      (hcount : t.roll ((literal 1).eval config resolve) = (.ok (n, gs), t₁))
      (hcheck : Pool.check config n s ms = .ok (k, z))
      (hfaces : t₂.roll (Rolling.drawFaces z k) = (.ok faces, t₃)) :
      faces.length = 1 ∧ ∀ face ∈ faces, 1 ≤ face.toInt := by
    cases hcount
    obtain ⟨hlength, hdraws⟩ := Rolling.draws_of_drawFaces hfaces
    obtain ⟨one, hspec, rfl, -⟩ := Pool.check_eq_ok_iff.mp hcheck
    obtain rfl : 1 = one := Option.some.inj (Pool.spec_eq_ok_iff.mp hspec).1
    exact ⟨hlength, hdraws.one_le⟩
  rw [roll_total_iff, roll_total_iff]
  constructor
  · rintro ⟨n, gs, t₁, s, gs', t₂, k, z, faces, t₃, v, hcount, hsides, hcheck, hfaces, hv, hx⟩
    obtain ⟨hlength, hone⟩ := hfaces_one hcount hcheck hfaces
    exact ⟨n, gs, t₁, s, gs', t₂, k, z, faces, t₃, v, hcount, hsides, hcheck, hfaces,
      (Pool.valueBehind_explode_single_iff config condition hlength hone).mp hv, hx⟩
  · rintro ⟨n, gs, t₁, s, gs', t₂, k, z, faces, t₃, v, hcount, hsides, hcheck, hfaces, hv, hx⟩
    obtain ⟨hlength, hone⟩ := hfaces_one hcount hcheck hfaces
    exact ⟨n, gs, t₁, s, gs', t₂, k, z, faces, t₃, v, hcount, hsides, hcheck, hfaces,
      (Pool.valueBehind_explode_single_iff config condition hlength hone).mpr hv, hx⟩

/-- Of a six and a two just the six can explode. It brings another six and that a three, as dice of
their own or onto the first. -/
theorem explode_agrees_compound_six : ∃ (p : Pool) (t t' : Tray Script),
    p = .ofFaces 6 [6, 2] ∧ t = Tray.ofSource (Script.ofList [6, 3]) ∧
    p.success = none ∧ (∀ d ∈ p.dice, 1 ≤ d.face.toInt) ∧
    p.dice.countP (Die.meets (.equalTo 6)) ≤ 1 ∧
    t.roll (p.valueBehind default (.redraw .explode none)) = (.ok 17, t') ∧
    t.roll (p.valueBehind default (.redraw .compound none)) = (.ok 17, t') ∧
    t'.calls = #[⟨1, 6, 6⟩, ⟨1, 6, 3⟩] := by
  have hexplode : (Tray.ofSource (Script.ofList [6, 3])).roll
      ((Pool.ofFaces 6 [6, 2]).valueBehind default (.redraw .explode none)) =
      (.ok 17, ⟨⟨#[6, 3], 2⟩, #[⟨1, 6, 6⟩, ⟨1, 6, 3⟩]⟩) := by rfl
  obtain ⟨hagree, -⟩ := explode_agrees_compound (σ := Script) default none
  exact ⟨_, _, _, rfl, rfl, rfl, by decide, by decide, hexplode,
    (hagree (.ofFaces 6 [6, 2]) rfl (by decide) (by decide) _ _ _).mp hexplode, rfl⟩

end Expr

end Tabletop
