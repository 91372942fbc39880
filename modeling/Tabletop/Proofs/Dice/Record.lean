import Mathlib.Data.List.Induction
import Tabletop.Dice.Roll
import Tabletop.Proofs.Dice.Generations

/-!
# The dice as a record

Every die of a pool is a call to the source, and the pool has them in the order of the calls. Its
face is the answer, unless a compounding explosion has added onto it.

* `Die.call`: the call that draws the die as it is.
* `Pool.unmarked_of_generations`: the faces that are drawn for an explosion.
* `Pool.Extends p changed cs p'`: `p'` has the dice of `p` in their places, and behind them those
  drawn by the calls `cs`; only dice that are `changed` may show another face.
* `Pool.modify_extends`: what one modifier does.
* `Pool.Records`: the dice of a pool are the calls made for it.
* `Pool.records_of_roll`: what a whole dice term does.
-/

namespace Tabletop

variable {σ : Type} [Source σ] {t t' : Tray σ}

/-- The call that draws the die as it is. -/
def Die.call (d : Die) : Call := ⟨1, d.sides, d.face⟩

theorem Die.call_inj {d e : Die} : d.call = e.call ↔ d.sides = e.sides ∧ d.face = e.face := by
  simp [call]

/-- The die without its mark. -/
def Die.unmarked (d : Die) : Die := { d with exploded := false }

theorem Die.map_call_unmarked (dice : List Die) :
    (dice.map Die.unmarked).map Die.call = dice.map Die.call := by
  rw [List.map_map]
  rfl

theorem Die.map_call_drawn (sides : Int64) (status : Status) (faces : List Int64) :
    (faces.map (Die.drawn sides status)).map Die.call = faces.map (Call.mk 1 sides) := by
  rw [List.map_map]
  rfl

/-! ## Draws -/

namespace Rolling

/-- A computation for each element in turn adds the calls of each. -/
theorem adds_of_mapM {α β : Type} {f : α → Rolling σ β} {R : α → β → Prop} {g : β → List Call}
    (hf : ∀ a b (t t' : Tray σ), t.roll (f a) = (.ok b, t') → R a b ∧ t.Adds (g b) t')
    {as : List α} {bs : List β} (h : t.roll (as.mapM f) = (.ok bs, t')) :
    List.Forall₂ R as bs ∧ t.Adds (bs.flatMap g) t' := by
  induction as generalizing t bs with
  | nil =>
    obtain ⟨rfl, rfl⟩ := Tray.roll_pure_eq_ok_iff.mp h
    exact ⟨.nil, Tray.adds_nil_iff.mpr rfl⟩
  | cons a as ih =>
    rw [List.mapM_cons] at h
    obtain ⟨b, t₁, hb, h⟩ := Tray.roll_bind_eq_ok_iff.mp h
    obtain ⟨bs, t₂, hbs, h⟩ := Tray.roll_bind_eq_ok_iff.mp h
    obtain ⟨rfl, rfl⟩ := Tray.roll_pure_eq_ok_iff.mp h
    obtain ⟨hr, hadds⟩ := hf a b t t₁ hb
    obtain ⟨hrs, hadds'⟩ := ih hbs
    exact ⟨.cons hr hrs, Tray.adds_append_iff.mpr ⟨t₁, hadds, hadds'⟩⟩

end Rolling

namespace Pool

/-! ## Modifiers -/

/-- `p'` has the dice of `p` in their places, and behind them those drawn by the calls `cs`. Only
dice that are `changed` may show another face. -/
structure Extends (p : Pool) (changed : Die → Prop) (cs : List Call) (p' : Pool) : Prop where
  sides : p'.sides = p.sides
  calls : ∀ c ∈ cs, c.low = 1 ∧ c.high = p.sides
  dice : ∃ old, p'.dice.map Die.call = old.map Die.call ++ cs ∧
    List.Forall₂ (fun d d' => d'.sides = d.sides ∧ (¬changed d → d'.face = d.face)) p.dice old

/-- A pool whose dice are at most marked has drawn nothing. -/
theorem extends_of_map_call {p p' : Pool} {changed : Die → Prop} {cs : List Call}
    (hs : p'.sides = p.sides) (hcs : ∀ c ∈ cs, c.low = 1 ∧ c.high = p.sides)
    (h : p'.dice.map Die.call = p.dice.map Die.call ++ cs) : p.Extends changed cs p' :=
  ⟨hs, hcs, p.dice, h, List.forall₂_same.mpr fun _ _ => ⟨rfl, fun _ => rfl⟩⟩

theorem map_call_dropAt (places : List Nat) (dice : List Die) :
    (dropAt places dice).map Die.call = dice.map Die.call := by
  apply List.ext_getElem?
  intro i
  rw [List.getElem?_map, List.getElem?_map, getElem?_dropAt]
  rcases dice[i]? with _ | d
  · rfl
  · simp only [Option.map_some]
    split <;> rfl

theorem map_call_replacements (sides : Int64) (faces : List Int64) :
    (replacements sides faces).map Die.call = faces.map (Call.mk 1 sides) := by
  fun_induction replacements sides faces with
  | case1 => rfl
  | case2 face => rfl
  | case3 face faces hne ih => simp [ih, Die.call, Die.drawn]

theorem calls_of_map_mk {sides : Int64} {faces : List Int64} :
    ∀ c ∈ faces.map (Call.mk 1 sides), c.low = 1 ∧ c.high = sides := by
  simp

theorem List.Forall₂.exists_of_mem_right {α β : Type} {R : α → β → Prop} {as : List α} {bs : List β}
    (h : List.Forall₂ R as bs) : ∀ b ∈ bs, ∃ a ∈ as, R a b := by
  induction h with
  | nil => simp
  | cons hab _ ih =>
    refine List.forall_mem_cons.mpr ⟨⟨_, List.mem_cons_self, hab⟩, fun b hb => ?_⟩
    obtain ⟨a, ha, hab⟩ := ih b hb
    exact ⟨a, List.mem_cons_of_mem _ ha, hab⟩

/-- Where dice are changed one by one, each of them in relation `R` to what becomes of it: the
results stand in the places of the dice, and the dice that they bring are drawn in order. -/
theorem results_of_extend {c : Comparison} {f : Die → Rolling σ (Die × List Die)} {p p' : Pool}
    {R : Die → Die × List Die → Prop} (hkeep : ∀ d, R d (d, []))
    (hf : ∀ d r (t t' : Tray σ), d.meets c = true → t.roll (f d) = (.ok r, t') →
      R d r ∧ t.Adds (r.2.map Die.call) t')
    (h : t.roll (p.extend c f) = (.ok p', t')) :
    ∃ results, List.Forall₂ R p.dice results ∧
      t.Adds (results.flatMap fun r => r.2.map Die.call) t' ∧
      p' = { p with dice := results.map (·.1) ++ results.flatMap (·.2) } := by
  obtain ⟨results, t₁, hresults, hpure⟩ := Tray.roll_bind_eq_ok_iff.mp h
  obtain ⟨rfl, rfl⟩ := Tray.roll_pure_eq_ok_iff.mp hpure
  have hstep : ∀ d r (t t' : Tray σ),
      t.roll (if d.meets c = true then f d else pure (d, [])) = (.ok r, t') →
      R d r ∧ t.Adds (r.2.map Die.call) t' := by
    intro d r t t' h
    split at h
    · next hd => exact hf d r t t' hd h
    · obtain ⟨rfl, rfl⟩ := Tray.roll_pure_eq_ok_iff.mp h
      exact ⟨hkeep d, Tray.adds_nil_iff.mpr rfl⟩
  obtain ⟨hall, hadds⟩ := Rolling.adds_of_mapM hstep hresults
  exact ⟨results, hall, hadds, rfl⟩

/-- The dice that meet the condition may be changed, and bring the dice that are put behind. -/
theorem extend_extends {c : Comparison} {f : Die → Rolling σ (Die × List Die)} {p p' : Pool}
    {changed : Die → Prop}
    (hf : ∀ d r (t t' : Tray σ), d.meets c = true → t.roll (f d) = (.ok r, t') →
      (r.1.sides = d.sides ∧ (¬changed d → r.1.face = d.face) ∧
        ∃ faces : List Int64, r.2.map Die.call = faces.map (Call.mk 1 p.sides)) ∧
      t.Adds (r.2.map Die.call) t')
    (h : t.roll (p.extend c f) = (.ok p', t')) :
    ∃ cs, t.Adds cs t' ∧ p.Extends changed cs p' := by
  obtain ⟨results, hall, hadds, rfl⟩ :=
    results_of_extend (fun _ => ⟨rfl, fun _ => rfl, [], rfl⟩) hf h
  refine ⟨_, hadds, rfl, ?_, results.map (·.1), by simp [List.map_flatMap],
    List.forall₂_map_right_iff.mpr (hall.imp fun _ _ h => ⟨h.1, h.2.1⟩)⟩
  intro c hc
  obtain ⟨r, hr, hc⟩ := List.mem_flatMap.mp hc
  obtain ⟨d, -, -, -, faces, hcalls⟩ := List.Forall₂.exists_of_mem_right hall r hr
  rw [hcalls] at hc
  exact calls_of_map_mk c hc

/-- The dice of all generations are drawn in order, and those that explode are no more than
marked. -/
theorem unmarked_of_generations {c : Comparison} {sides : Int64} {limit n : Nat}
    {dice ds : List Die} (h : t.roll (generations c sides limit n dice) = (.ok ds, t')) :
    ∃ faces : List Int64, t.Draws sides faces t' ∧
      ds.map Die.unmarked = dice.map Die.unmarked ++ faces.map (Die.drawn sides .kept) := by
  induction n generalizing t dice ds with
  | zero =>
    obtain ⟨-, rfl, rfl⟩ | ⟨-, _, _, _, _, ⟨⟩, -⟩ := generations_eq_ok_iff.mp h
    exact ⟨[], Tray.draws_nil _ _, by simp⟩
  | succ n ih =>
    obtain ⟨-, rfl, rfl⟩ | ⟨-, _, faces, later, t₁, ⟨⟩, hfaces, hlater, rfl⟩ :=
      generations_eq_ok_iff.mp h
    · exact ⟨[], Tray.draws_nil _ _, by simp⟩
    · obtain ⟨faces', hdraws', hunmarked⟩ := ih hlater
      obtain ⟨-, hdraws⟩ := Rolling.draws_of_drawFaces hfaces
      have hdrawn : (faces.map (Die.drawn sides .kept)).map Die.unmarked =
          faces.map (Die.drawn sides .kept) := by
        rw [List.map_map]
        rfl
      refine ⟨faces ++ faces', hdraws.append hdraws', ?_⟩
      rw [List.map_append, hunmarked, hdrawn, List.map_append, List.map_map]
      rfl

end Pool

/-- The modifier adds faces onto the die. -/
def Modifier.CompoundsOnto (sides : Int64) (d : Die) : Modifier → Prop
  | .redraw .compound c => d.meets (c.getD (Redraw.compound.defaultCondition sides)) = true
  | _ => False

namespace Pool

variable {p p' : Pool}

theorem reroll_extends {c : Comparison} {once : Bool} {limit : Nat} (changed : Die → Prop)
    (h : t.roll (p.reroll c once limit) = (.ok p', t')) :
    ∃ cs, t.Adds cs t' ∧ p.Extends changed cs p' := by
  refine extend_extends (fun d r t t' _ h => ?_) h
  obtain ⟨faces, t₁, hfaces, hpure⟩ := Tray.roll_bind_eq_ok_iff.mp h
  obtain ⟨rfl, rfl⟩ := Tray.roll_pure_eq_ok_iff.mp hpure
  rw [map_call_replacements]
  exact ⟨⟨rfl, fun _ => rfl, faces, rfl⟩, (chain_eq_ok_iff.mp hfaces).2.2.adds⟩

theorem compound_extends {c : Comparison} {limit : Nat}
    (h : t.roll (p.compound c limit) = (.ok p', t')) :
    ∃ cs, t.Adds cs t' ∧ p.Extends (fun d => d.meets c = true) cs p' := by
  refine extend_extends (fun d r t t' hd h => ?_) h
  obtain ⟨⟨faces, total⟩, t₁, hfaces, hpure⟩ := Tray.roll_bind_eq_ok_iff.mp h
  obtain ⟨rfl, rfl⟩ := Tray.roll_pure_eq_ok_iff.mp hpure
  rw [Die.map_call_drawn]
  exact ⟨⟨rfl, fun hn => absurd hd hn, faces, rfl⟩, (growingChain_eq_ok_iff.mp hfaces).2.2.1.adds⟩

theorem explode_extends {c : Comparison} {limit : Nat} (changed : Die → Prop)
    (h : t.roll (p.explode c limit) = (.ok p', t')) :
    ∃ cs, t.Adds cs t' ∧ p.Extends changed cs p' := by
  obtain ⟨dice, t₁, hdice, hpure⟩ := Tray.roll_bind_eq_ok_iff.mp h
  obtain ⟨rfl, rfl⟩ := Tray.roll_pure_eq_ok_iff.mp hpure
  obtain ⟨faces, hdraws, hunmarked⟩ := unmarked_of_generations hdice
  have hcalls : dice.map Die.call = p.dice.map Die.call ++ faces.map (Call.mk 1 p.sides) := by
    rw [← Die.map_call_unmarked, hunmarked, List.map_append, Die.map_call_unmarked,
      Die.map_call_drawn]
  exact ⟨_, hdraws.adds, extends_of_map_call rfl calls_of_map_mk hcalls⟩

/-- A modifier draws the dice that it puts behind the others, and changes those alone that it
compounds onto. -/
theorem modify_extends {config : Config} {m : Modifier}
    (h : t.roll (p.modify config m) = (.ok p', t')) :
    ∃ cs, t.Adds cs t' ∧ p.Extends (fun d => m.CompoundsOnto p.sides d) cs p' := by
  cases m with
  | select s n =>
    obtain ⟨rfl, rfl⟩ := Tray.roll_pure_eq_ok_iff.mp h
    exact ⟨[], Tray.adds_nil_iff.mpr rfl, extends_of_map_call rfl (by simp)
      (by rw [List.append_nil]; exact map_call_dropAt _ _)⟩
  | countSuccesses c =>
    obtain ⟨rfl, rfl⟩ := Tray.roll_pure_eq_ok_iff.mp h
    exact ⟨[], Tray.adds_nil_iff.mpr rfl, extends_of_map_call rfl (by simp) (by simp)⟩
  | redraw r c =>
    cases r with
    | reroll => exact reroll_extends _ h
    | rerollOnce => exact reroll_extends _ h
    | explode => exact explode_extends _ h
    | compound => exact compound_extends h

/-! ## Dice terms -/

/-- The dice of the pool are the calls `cs`, in order. Only dice at places that are `changed` may
show another face than the answer. -/
structure Records (p : Pool) (changed : Nat → Prop) (cs : List Call) : Prop where
  length : p.dice.length = cs.length
  entry : ∀ i d c, p.dice[i]? = some d → cs[i]? = some c →
    c.low = 1 ∧ c.high = d.sides ∧ d.sides = p.sides ∧ (¬changed i → d.face = c.value)

theorem Records.mono {changed changed' : Nat → Prop} {cs : List Call} (h : p.Records changed cs)
    (hc : ∀ i, changed i → changed' i) : p.Records changed' cs := by
  refine ⟨h.length, fun i d c hd hcall => ?_⟩
  obtain ⟨hlow, hhigh, hsides, hface⟩ := h.entry i d c hd hcall
  exact ⟨hlow, hhigh, hsides, fun hn => hface fun hi => hn (hc i hi)⟩

/-- One modifier more is recorded behind the others. -/
theorem Records.extend {changed : Nat → Prop} {onto : Die → Prop} {cs ds : List Call}
    (h : p.Records changed cs) (h' : p.Extends onto ds p') :
    p'.Records (fun i => changed i ∨ ∃ d, p.dice[i]? = some d ∧ onto d) (cs ++ ds) := by
  obtain ⟨hsides, hcalls, old, hdice, hold⟩ := h'
  have hlength := h.length
  have hold_length := hold.length_eq
  constructor
  · have hlen := congrArg List.length hdice
    simp only [List.length_map, List.length_append] at hlen ⊢
    omega
  · intro i d c hd hc
    have hcall : (old.map Die.call ++ ds)[i]? = some d.call := by
      rw [← hdice, List.getElem?_map, hd]
      rfl
    rcases Nat.lt_or_ge i p.dice.length with hi | hi
    · -- A die that was there is the die of the same call.
      have hi' : i < old.length := hold_length ▸ hi
      rw [List.getElem?_append_left (hlength ▸ hi)] at hc
      rw [List.getElem?_append_left (by simpa using hi'), List.getElem?_map,
        List.getElem?_eq_getElem hi', Option.map_some, Option.some.injEq] at hcall
      obtain ⟨hside, hface⟩ := Die.call_inj.mp hcall
      obtain ⟨hs, hsame⟩ : old[i].sides = p.dice[i].sides ∧
          (¬onto p.dice[i] → old[i].face = p.dice[i].face) := hold.get hi hi'
      obtain ⟨hlow, hhigh, hpool, hvalue⟩ := h.entry i _ c (List.getElem?_eq_getElem hi) hc
      refine ⟨hlow, ?_, ?_, fun hn => ?_⟩
      · rw [hhigh, ← hs, hside]
      · rw [hsides, ← hpool, ← hs, hside]
      · rw [not_or] at hn
        rw [← hface, hsame fun ho => hn.2 ⟨_, List.getElem?_eq_getElem hi, ho⟩]
        exact hvalue hn.1
    · -- A die that is new is the die of its own call.
      rw [List.getElem?_append_right (by omega)] at hc
      rw [List.getElem?_append_right (by simp; omega), List.length_map, ← hold_length, hlength,
        hc, Option.some.injEq] at hcall
      subst hcall
      obtain ⟨-, hhigh⟩ := hcalls _ (List.mem_of_getElem? hc)
      exact ⟨rfl, rfl, hhigh.trans hsides.symm, fun _ => rfl⟩

variable {config : Config} {count sides : Number} {ms : List Modifier}

theorem records_ofFaces (s : Int64) (faces : List Int64) (changed : Nat → Prop) :
    (ofFaces s faces).Records changed (faces.map (Call.mk 1 s)) := by
  refine ⟨by simp [ofFaces], fun i d c hd hc => ?_⟩
  simp only [ofFaces, List.getElem?_map] at hd hc
  rcases hface : faces[i]? with _ | face
  · rw [hface] at hd
    cases hd
  · rw [hface] at hd hc
    cases hd
    cases hc
    exact ⟨rfl, rfl, rfl, fun _ => rfl⟩

theorem spec_eq_ok_iff {k s : Int64} : spec count sides = .ok (k, s) ↔
    count.toInt? = some k ∧ sides.toInt? = some s ∧ 0 ≤ k ∧ 1 ≤ s := by
  unfold spec
  cases count.toInt? with
  | none => simp
  | some n =>
    cases sides.toInt? with
    | none => simp
    | some z =>
      simp only [Option.some.injEq]
      split
      · next hin =>
        constructor
        · rintro ⟨⟩
          exact ⟨rfl, rfl, hin⟩
        · rintro ⟨rfl, rfl, -⟩
          rfl
      · next hout =>
        constructor
        · rintro ⟨⟩
        · rintro ⟨rfl, rfl, hin⟩
          exact absurd hin hout

theorem check_eq_ok_iff {n : Nat} {s : Int64} : check config count sides ms = .ok (n, s) ↔
    ∃ k, spec count sides = .ok (k, s) ∧ k.toInt.toNat = n ∧ n ≤ config.maxDice ∧
      ms.findSome? (·.endless? s) = none := by
  unfold check
  rcases spec count sides with e | ⟨k, s'⟩
  · constructor
    · intro h
      cases h
    · rintro ⟨k, h, -⟩
      cases h
  · change (if config.maxDice < k.toInt.toNat then _ else _) = _ ↔ _
    split
    · next hmax =>
      constructor
      · intro h
        cases h
      · rintro ⟨k', h, rfl, hle, -⟩
        cases h
        omega
    · next hmax =>
      constructor
      · intro h
        split at h
        · cases h
        · next hendless =>
          cases h
          exact ⟨k, rfl, rfl, by omega, hendless⟩
      · rintro ⟨k', h, rfl, -, hendless⟩
        cases h
        rw [hendless]

/-- A dice term is checked, drawn and modified. -/
theorem roll_eq_ok_iff : t.roll (roll config count sides ms) = (.ok p, t') ↔
    ∃ n s faces t₁, check config count sides ms = .ok (n, s) ∧
      t.roll (Rolling.drawFaces s n) = (.ok faces, t₁) ∧
      t₁.roll (ms.foldlM (modify config) (ofFaces s faces)) = (.ok p, t') := by
  constructor
  · intro h
    obtain ⟨⟨n, s⟩, t₁, hlift, hroll⟩ := Tray.roll_bind_eq_ok_iff.mp h
    obtain ⟨hcheck, rfl⟩ := Tray.roll_liftM_eq_iff.mp hlift
    obtain ⟨faces, t₂, hfaces, hfold⟩ := Tray.roll_bind_eq_ok_iff.mp hroll
    exact ⟨n, s, faces, t₂, hcheck, hfaces, hfold⟩
  · rintro ⟨n, s, faces, t₁, hcheck, hfaces, hfold⟩
    exact Tray.roll_bind_eq_ok_iff.mpr ⟨(n, s), t, Tray.roll_liftM_eq_iff.mpr ⟨hcheck, rfl⟩,
      Tray.roll_bind_eq_ok_iff.mpr ⟨faces, t₁, hfaces, hfold⟩⟩

omit [Source σ] in
/-- A dice term is finished without a draw, unless its value overflows. -/
theorem roll_group_eq_ok_iff {text : String} {g : DiceGroup} :
    t.roll (p.group text) = (.ok g, t') ↔
      t' = t ∧ ∃ v, p.value? = some v ∧ g = ⟨text, p.sides, p.dice, v, p.success.isSome⟩ := by
  constructor
  · intro h
    obtain ⟨v, t₁, hvalue, hpure⟩ := Tray.roll_bind_eq_ok_iff.mp h
    obtain ⟨hv, rfl⟩ := Tray.roll_orOverflow_eq_ok_iff.mp hvalue
    obtain ⟨rfl, rfl⟩ := Tray.roll_pure_eq_ok_iff.mp hpure
    exact ⟨rfl, v, hv, rfl⟩
  · rintro ⟨rfl, v, hv, rfl⟩
    exact Tray.roll_bind_eq_ok_iff.mpr ⟨v, t', Tray.roll_orOverflow_eq_ok_iff.mpr ⟨hv, rfl⟩, rfl⟩

/-- The last modifier is applied to what the others make. -/
theorem roll_concat {m : Modifier}
    (h : t.roll (roll config count sides (ms ++ [m])) = (.ok p', t')) :
    ∃ p t₁, t.roll (roll config count sides ms) = (.ok p, t₁) ∧
      t₁.roll (p.modify config m) = (.ok p', t') := by
  obtain ⟨n, s, faces, t₁, hcheck, hfaces, hfold⟩ := roll_eq_ok_iff.mp h
  rw [List.foldlM_append] at hfold
  obtain ⟨p, t₂, hp, hm⟩ := Tray.roll_bind_eq_ok_iff.mp hfold
  obtain ⟨k, hspec, hk, hmax, hendless⟩ := check_eq_ok_iff.mp hcheck
  rw [List.findSome?_append, Option.or_eq_none_iff] at hendless
  have hcheck' := check_eq_ok_iff.mpr ⟨k, hspec, hk, hmax, hendless.1⟩
  refine ⟨p, t₂, roll_eq_ok_iff.mpr ⟨n, s, faces, t₁, hcheck', hfaces, hp⟩, ?_⟩
  rw [List.foldlM_cons] at hm
  obtain ⟨p₁, t₃, hmodify, hnil⟩ := Tray.roll_bind_eq_ok_iff.mp hm
  obtain ⟨rfl, rfl⟩ := Tray.roll_pure_eq_ok_iff.mp hnil
  exact hmodify

/-- A modifier of the dice term that is rolled from `t` compounds onto the die at place `i`: the
modifiers before it have made a pool in which the die meets its condition. -/
def Compounded (config : Config) (t : Tray σ) (count sides : Number) (ms : List Modifier)
    (i : Nat) : Prop :=
  ∃ earlier m later p t₁ d, ms = earlier ++ m :: later ∧
    t.roll (roll config count sides earlier) = (.ok p, t₁) ∧ p.dice[i]? = some d ∧
      m.CompoundsOnto p.sides d

theorem Compounded.append {i : Nat} (h : Compounded config t count sides ms i)
    (ms' : List Modifier) : Compounded config t count sides (ms ++ ms') i := by
  obtain ⟨earlier, m, later, p, t₁, d, rfl, hrun⟩ := h
  exact ⟨earlier, m, later ++ ms', p, t₁, d, by simp, hrun⟩

/-- The dice of a dice term are the calls made for it, in order, and show the answers, but for those
that a modifier has compounded onto. -/
theorem records_of_roll (h : t.roll (roll config count sides ms) = (.ok p, t')) :
    1 ≤ p.sides ∧ ∃ cs, t.Adds cs t' ∧ p.Records (Compounded config t count sides ms) cs := by
  induction ms using List.reverseRecOn generalizing p t' with
  | nil =>
    obtain ⟨n, s, faces, t₁, hcheck, hfaces, hfold⟩ := roll_eq_ok_iff.mp h
    obtain ⟨rfl, rfl⟩ := Tray.roll_pure_eq_ok_iff.mp hfold
    obtain ⟨k, hspec, -⟩ := check_eq_ok_iff.mp hcheck
    obtain ⟨-, hdraws⟩ := Rolling.draws_of_drawFaces hfaces
    exact ⟨(spec_eq_ok_iff.mp hspec).2.2.2, _, hdraws.adds, records_ofFaces _ _ _⟩
  | append_singleton ms m ih =>
    obtain ⟨p₁, t₁, hp, hm⟩ := roll_concat h
    obtain ⟨hpos, cs, hcs, hrecords⟩ := ih hp
    obtain ⟨ds, hds, hextends⟩ := modify_extends hm
    refine ⟨hextends.sides ▸ hpos, cs ++ ds, Tray.adds_append_iff.mpr ⟨t₁, hcs, hds⟩, ?_⟩
    refine (hrecords.extend hextends).mono fun i hi => ?_
    rcases hi with hi | ⟨d, hd, honto⟩
    · exact hi.append [m]
    · exact ⟨ms, m, [], p₁, t₁, d, rfl, hp, hd, honto⟩

end Pool

end Tabletop
