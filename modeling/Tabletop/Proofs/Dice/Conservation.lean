import Tabletop.Proofs.Dice.Balance

/-!
# Nothing is lost or counted twice

However the modifiers of a dice term are combined, its dice account for all that has been drawn for
it, and its value for the dice that are kept.

* `Pool.Steps`: modifiers one after the other, each with the calls made for it.
* `Pool.sum?_eq_checked`: a sum of faces overflows just if the whole sum does.
* `Pool.Conserves`: what the dice of a dice term have to do with its draws.
* `Expr.dice_conserves`: every dice term conserves its draws, and has the value of its kept dice
  unless they add up to too much.
-/

namespace Tabletop

/-- The modifier is a redraw of the kind `r`. -/
def Modifier.performs (r : Redraw) : Modifier → Bool
  | .redraw s _ => s == r
  | .select _ _ | .countSuccesses _ => false

namespace Pool

/-- How many draws the redraws of the kind `r` have made, of modifiers with the calls made for
them. -/
def drawnBy (r : Redraw) (steps : List (Modifier × List Call)) : Nat :=
  ((steps.filter (·.1.performs r)).flatMap Prod.snd).length

theorem drawnBy_cons (r : Redraw) (m : Modifier) (cs : List Call)
    (steps : List (Modifier × List Call)) :
    drawnBy r ((m, cs) :: steps) = (if m.performs r then cs.length else 0) + drawnBy r steps := by
  unfold drawnBy
  by_cases h : m.performs r = true <;> simp [h]

/-- What modifiers add to an account: the values that they have drawn, or the number of draws of
those that draw for it. -/
theorem sum_gain (steps : List (Modifier × List Call)) (a : Account) :
    (steps.map fun s => s.1.gain s.2 a).sum =
      match a with
      | .points => ((steps.flatMap Prod.snd).map (·.value.toInt)).sum
      | .inPlay => drawnBy .explode steps
      | .rerolled => (drawnBy .reroll steps + drawnBy .rerollOnce steps : Nat)
      | .exploded => drawnBy .compound steps := by
  induction steps with
  | nil => cases a <;> rfl
  | cons step steps ih =>
    obtain ⟨m, cs⟩ := step
    rw [List.map_cons, List.sum_cons, ih]
    cases a with
    | points => simp [Modifier.gain]
    | inPlay | rerolled | exploded =>
      simp only [drawnBy_cons, Modifier.gain]
      rcases m with _ | ⟨_ | _ | _ | _, _⟩ | _ <;>
        simp [Modifier.account?, Modifier.performs] <;> omega

section Run

variable {σ : Type} [Source σ] {t t' : Tray σ} {config : Config} {p p' : Pool}

/-! ## Modifiers one after the other -/

/-- The modifiers are applied one after the other, each of them with the calls made for it. -/
def Steps (config : Config) :
    Tray σ → Pool → List (Modifier × List Call) → Pool → Tray σ → Prop
  | t, p, [], p', t' => p' = p ∧ t' = t
  | t, p, (m, cs) :: steps, p', t' => ∃ p₁ t₁,
    t.roll (p.modify config m) = (.ok p₁, t₁) ∧ t.Adds cs t₁ ∧ Steps config t₁ p₁ steps p' t'

theorem exists_steps {ms : List Modifier}
    (h : t.roll (ms.foldlM (modify config) p) = (.ok p', t')) :
    ∃ steps, steps.map Prod.fst = ms ∧ Steps config t p steps p' t' := by
  induction ms generalizing t p with
  | nil => exact ⟨[], rfl, Tray.roll_pure_eq_ok_iff.mp h⟩
  | cons m ms ih =>
    rw [List.foldlM_cons] at h
    obtain ⟨p₁, t₁, hm, hrest⟩ := Tray.roll_bind_eq_ok_iff.mp h
    obtain ⟨cs, hcs, -⟩ := modify_balances hm
    obtain ⟨steps, rfl, hsteps⟩ := ih hrest
    exact ⟨(m, cs) :: steps, rfl, p₁, t₁, hm, hcs, hsteps⟩

/-- The condition of the last success count. -/
def lastSuccess? (ms : List Modifier) : Option Comparison :=
  (ms.filterMap Modifier.success?).getLast?

theorem lastSuccess?_cons (m : Modifier) (ms : List Modifier) :
    lastSuccess? (m :: ms) = (lastSuccess? ms).or m.success? := by
  unfold lastSuccess?
  cases h : m.success? with
  | none => simp [h]
  | some c =>
    rw [List.filterMap_cons_some h, List.getLast?_cons]
    cases (ms.filterMap Modifier.success?).getLast? <;> rfl

theorem lastSuccess?_eq_none_iff {ms : List Modifier} :
    lastSuccess? ms = none ↔ ∀ c, Modifier.countSuccesses c ∉ ms := by
  rw [lastSuccess?, List.getLast?_eq_none_iff, List.filterMap_eq_nil_iff]
  constructor
  · intro h c hc
    cases h _ hc
  · intro h m hm
    cases m with
    | countSuccesses c => exact absurd hm (h c)
    | select _ _ | redraw _ _ => rfl

variable {steps : List (Modifier × List Call)}

namespace Steps

theorem adds (h : Steps config t p steps p' t') : t.Adds (steps.flatMap Prod.snd) t' := by
  induction steps generalizing t p with
  | nil => exact Tray.adds_nil_iff.mpr h.2
  | cons step steps ih =>
    obtain ⟨p₁, t₁, -, hcs, hsteps⟩ := h
    exact Tray.adds_append_iff.mpr ⟨t₁, hcs, ih hsteps⟩

/-- Every account has what the steps add to it, one after the other. -/
theorem amount (h : Steps config t p steps p' t') (a : Account) :
    amount a p'.dice = Pool.amount a p.dice + (steps.map fun s => s.1.gain s.2 a).sum := by
  induction steps generalizing t p with
  | nil =>
    rw [h.1]
    simp
  | cons step steps ih =>
    obtain ⟨p₁, t₁, hm, hcs, hsteps⟩ := h
    obtain ⟨cs, hcs', hbalances⟩ := modify_balances hm
    rw [ih hsteps, hbalances.amount, ← hcs.unique hcs', List.map_cons, List.sum_cons]
    omega

theorem one_le (h : Steps config t p steps p' t') (hone : ∀ d ∈ p.dice, 1 ≤ d.face.toInt) :
    ∀ d ∈ p'.dice, 1 ≤ d.face.toInt := by
  induction steps generalizing t p with
  | nil =>
    rw [h.1]
    exact hone
  | cons step steps ih =>
    obtain ⟨p₁, t₁, hm, -, hsteps⟩ := h
    obtain ⟨cs, -, hbalances⟩ := modify_balances hm
    exact ih hsteps (hbalances.one_le hone)

theorem success (h : Steps config t p steps p' t') :
    p'.success = (lastSuccess? (steps.map Prod.fst)).or p.success := by
  induction steps generalizing t p with
  | nil => rw [h.1]; rfl
  | cons step steps ih =>
    obtain ⟨p₁, t₁, hm, -, hsteps⟩ := h
    obtain ⟨cs, -, hbalances⟩ := modify_balances hm
    rw [ih hsteps, hbalances.success, List.map_cons, lastSuccess?_cons, Option.or_assoc]

end Steps

/-! ## Values -/

/-- The faces of the kept dice, over the unbounded integers. -/
def keptSum (dice : List Die) : Int :=
  ((dice.filter Die.isKept).map (·.face.toInt)).sum

omit [Source σ]

/-- Faces count from one, so no sum on the way is greater than the last one. -/
theorem foldlM_checked {faces : List Int64} (h : ∀ face ∈ faces, 1 ≤ face.toInt)
    (total : Int64) :
    faces.foldlM (fun total face => checked (total.toInt + face.toInt)) total =
      checked (total.toInt + (faces.map (·.toInt)).sum) := by
  induction faces generalizing total with
  | nil => simp
  | cons face faces ih =>
    obtain ⟨hface, hfaces⟩ := List.forall_mem_cons.mp h
    have hrest := sum_nonneg_of_one_le hfaces
    rw [List.foldlM_cons, List.map_cons, List.sum_cons]
    cases hnext : checked (total.toInt + face.toInt) with
    | none =>
      have hmin := total.minValue_le_toInt
      have hout := checked_eq_none_iff.mp hnext
      have hsum : checked (total.toInt + (face.toInt + (faces.map (·.toInt)).sum)) = none :=
        checked_eq_none_iff.mpr (by omega)
      rw [hsum]
      rfl
    | some next =>
      have hnext := checked_eq_some_iff.mp hnext
      rw [← Int.add_assoc, ← hnext]
      exact ih hfaces next

theorem sum?_eq_checked {faces : List Int64} (h : ∀ face ∈ faces, 1 ≤ face.toInt) :
    sum? faces = checked (faces.map (·.toInt)).sum := by
  have hsum := foldlM_checked h 0
  rwa [show (0 : Int64).toInt = 0 from rfl, Int.zero_add] at hsum

/-- Without a success count, the value is the sum of the kept faces if that is in range. -/
theorem value?_of_success_eq_none (hs : p.success = none) (hone : ∀ d ∈ p.dice, 1 ≤ d.face.toInt) :
    p.value? = checked (keptSum p.dice) := by
  have hkept : ∀ face ∈ (p.dice.filter Die.isKept).map Die.face, 1 ≤ face.toInt := by
    intro face hface
    obtain ⟨d, hd, rfl⟩ := List.mem_map.mp hface
    exact hone d (List.mem_filter.mp hd).1
  rw [value?, hs]
  show sum? ((p.dice.filter Die.isKept).map Die.face) = _
  rw [sum?_eq_checked hkept, List.map_map]
  rfl

theorem keptSum_nonneg {dice : List Die} (hone : ∀ d ∈ dice, 1 ≤ d.face.toInt) :
    0 ≤ keptSum dice := by
  refine List.sum_nonneg fun x hx => ?_
  obtain ⟨d, hd, rfl⟩ := List.mem_map.mp hx
  have := hone d (List.mem_filter.mp hd).1
  omega

theorem keptSum_append (dice dice' : List Die) :
    keptSum (dice ++ dice') = keptSum dice + keptSum dice' := by
  simp [keptSum]

theorem keptSum_cons (d : Die) (dice : List Die) :
    keptSum (d :: dice) = (if d.isKept then d.face.toInt else 0) + keptSum dice := by
  unfold keptSum
  by_cases hd : d.isKept = true <;> simp [hd]

theorem keptSum_drawn (sides : Int64) (faces : List Int64) :
    keptSum (faces.map (Die.drawn sides .kept)) = (faces.map (·.toInt)).sum := by
  induction faces with
  | nil => rfl
  | cons face faces ih =>
    rw [List.map_cons, keptSum_cons, ih]
    rfl

/-- A dice term has no value just if it is to add up kept faces, and they add up to too much. -/
theorem value?_eq_none_iff (hone : ∀ d ∈ p.dice, 1 ≤ d.face.toInt) :
    p.value? = none ↔ p.success = none ∧ Int64.maxValue.toInt < keptSum p.dice := by
  cases hs : p.success with
  | none =>
    have hpos := keptSum_nonneg hone
    have hmin : Int64.minValue.toInt < 0 := by decide
    rw [value?_of_success_eq_none hs hone, checked_eq_none_iff]
    simp only [true_and]
    omega
  | some c => simp [value?, hs]

/-! ## Conservation -/

/-- The dice of a dice term account for what has been drawn for it: `first` for the dice that it
asks for, and then the calls of each of its modifiers. -/
structure Conserves (dice : List Die) (first : List Call) (steps : List (Modifier × List Call)) :
    Prop where
  /-- The faces of the dice that are not added onto another one add up to the values drawn. -/
  points : ((dice.filter (·.status != .exploded)).map (·.face.toInt)).sum =
    ((first ++ steps.flatMap Prod.snd).map (·.value.toInt)).sum
  inPlay : dice.countP (·.status == .kept) + dice.countP (·.status == .dropped) =
    first.length + drawnBy .explode steps
  rerolled : dice.countP (·.status == .rerolled) = drawnBy .reroll steps + drawnBy .rerollOnce steps
  exploded : dice.countP (·.status == .exploded) = drawnBy .compound steps

variable [Source σ]

theorem Steps.conserves {s : Int64} {faces : List Int64}
    (h : Steps config t (ofFaces s faces) steps p t') :
    Conserves p.dice (faces.map (Call.mk 1 s)) steps := by
  have hamount : ∀ a, Pool.amount a p.dice =
      (Modifier.redraw .explode none).gain (faces.map (Call.mk 1 s)) a +
        (steps.map fun s => s.1.gain s.2 a).sum := by
    intro a
    rw [h.amount, ofFaces, amount_generation]
  have hpoints := hamount .points
  have hinPlay := hamount .inPlay
  have hrerolled := hamount .rerolled
  have hexploded := hamount .exploded
  rw [sum_gain] at hpoints hinPlay hrerolled hexploded
  rw [amount_points] at hpoints
  rw [amount_inPlay] at hinPlay
  rw [amount_rerolled] at hrerolled
  rw [amount_exploded] at hexploded
  simp only [Modifier.gain, Modifier.account?, reduceCtorEq, if_true, if_false,
    Option.some.injEq] at hpoints hinPlay hrerolled hexploded
  constructor
  · rw [List.map_append, List.sum_append]
    exact hpoints
  · omega
  · omega
  · omega

/-- A dice term is drawn, and then its modifiers are applied. -/
theorem steps_of_roll {count sides : Number} {ms : List Modifier}
    (h : t.roll (roll config count sides ms) = (.ok p, t')) :
    ∃ (k s : Int64) (faces : List Int64) (t₁ : Tray σ) (steps : List (Modifier × List Call)),
      spec count sides = .ok (k, s) ∧ faces.length = k.toInt.toNat ∧
      t.roll (Rolling.drawFaces s k.toInt.toNat) = (.ok faces, t₁) ∧
      steps.map Prod.fst = ms ∧ Steps config t₁ (ofFaces s faces) steps p t' ∧
      (∀ d ∈ p.dice, 1 ≤ d.face.toInt) ∧ p.success = lastSuccess? ms := by
  obtain ⟨n, s, faces, t₁, hcheck, hfaces, hfold⟩ := roll_eq_ok_iff.mp h
  obtain ⟨k, hspec, rfl, -⟩ := check_eq_ok_iff.mp hcheck
  obtain ⟨steps, rfl, hsteps⟩ := exists_steps hfold
  obtain ⟨hlength, hdraws⟩ := Rolling.draws_of_drawFaces hfaces
  refine ⟨k, s, faces, t₁, steps, hspec, hlength, hfaces, rfl, hsteps,
    hsteps.one_le (one_le_of_mem_drawn hdraws.one_le), ?_⟩
  rw [hsteps.success]
  exact Option.or_none

end Run

end Pool

variable {σ : Type} [Source σ] {config : Config}

namespace TermRun

/-- The calls of the run are `first` for the dice that it asks for, as many as its count says, and
then those made for its modifiers, one after the other. -/
def Splits (r : TermRun σ config) (first : List Call) (steps : List (Modifier × List Call)) :
    Prop :=
  r.calls = first ++ steps.flatMap Prod.snd ∧ steps.map Prod.fst = r.modifiers ∧
    ∃ (k s : Int64) (faces : List Int64) (t : Tray σ) (p : Pool),
      Pool.spec r.count r.sides = .ok (k, s) ∧ first.length = k.toInt.toNat ∧
      r.start.roll (Rolling.drawFaces s k.toInt.toNat) = (.ok faces, t) ∧
      first = faces.map (Call.mk 1 s) ∧
      Pool.Steps config t (.ofFaces s faces) steps p r.stop ∧ r.group.dice = p.dice

/-- The value of the run: the kept faces added up, or how many of them meet the condition of the
last success count. As a 64-bit integer that is exact for all dice that there can be. -/
structure Valued (r : TermRun σ config) : Prop where
  sum : (∀ c, .countSuccesses c ∉ r.modifiers) →
    r.group.value.toInt = Pool.keptSum r.group.dice
  count : ∀ c, Pool.lastSuccess? r.modifiers = some c →
    r.group.value = Int64.ofNat (r.group.dice.countP (Die.meets c)) ∧
      (r.group.dice.length < 2 ^ 63 →
        r.group.value.toInt = r.group.dice.countP (Die.meets c))

theorem conserves (r : TermRun σ config) :
    r.Valued ∧ ∃ first steps, r.Splits first steps ∧
      Pool.Conserves r.group.dice first steps := by
  obtain ⟨p, t₁, hp, hgroup⟩ := Tray.roll_bind_eq_ok_iff.mp r.rolled
  obtain ⟨hstop, v, hv, hg⟩ := Pool.roll_group_eq_ok_iff.mp hgroup
  obtain ⟨k, s, faces, t, steps, hspec, hlength, hfaces, hms, hsteps, hone, hsuccess⟩ :=
    Pool.steps_of_roll hp
  rw [← hstop] at hsteps
  have hdice : r.group.dice = p.dice := by rw [hg]
  have hvalue : r.group.value = v := by rw [hg]
  refine ⟨⟨fun hnone => ?_, fun c hc => ?_⟩, faces.map (Call.mk 1 s), steps, ?_, ?_⟩
  · rw [← Pool.lastSuccess?_eq_none_iff] at hnone
    rw [Pool.value?_of_success_eq_none (hsuccess.trans hnone) hone] at hv
    rw [hvalue, hdice]
    exact checked_eq_some_iff.mp hv
  · rw [Pool.value?, hsuccess, hc] at hv
    rw [hvalue, hdice]
    have hv := (Option.some.inj hv).symm
    refine ⟨hv, fun hlt => ?_⟩
    have hle := List.countP_le_length (p := Die.meets c) (l := p.dice)
    rw [hv, Int64.toInt_ofNat_of_lt (by omega)]
  · have hcalls : r.calls = faces.map (Call.mk 1 s) ++ steps.flatMap Prod.snd :=
      r.adds.unique (Tray.adds_append_iff.mpr
        ⟨t, (Rolling.draws_of_drawFaces hfaces).2.adds, hsteps.adds⟩)
    exact ⟨hcalls, hms, k, s, faces, t, p, hspec, by rw [List.length_map, hlength], hfaces, rfl,
      hsteps, hdice⟩
  · rw [hdice]
    exact hsteps.conserves

end TermRun

namespace Expr

variable {resolve : Resolver} {count sides : Expr} {ms : List Modifier} {t t₁ t₂ t₃ : Tray σ}
  {n s : Number} {gs gs' : List DiceGroup} {p : Pool}

/-- Behind its draws and its modifiers a dice term is finished, and fails for its value alone. -/
theorem roll_dice (hcount : t.roll (count.eval config resolve) = (.ok (n, gs), t₁))
    (hsides : t₁.roll (sides.eval config resolve) = (.ok (s, gs'), t₂))
    (hpool : t₂.roll (Pool.roll config n s ms) = (.ok p, t₃)) :
    t.roll ((dice count sides ms).eval config resolve) =
      match p.value? with
      | some v => (.ok (.int v, gs ++ gs' ++
          [⟨(dice count sides ms).text, p.sides, p.dice, v, p.success.isSome⟩]), t₃)
      | none => (.error .overflow, t₃) := by
  rw [eval, Tray.roll_bind_of_ok hcount]
  dsimp only
  rw [Tray.roll_bind_of_ok hsides]
  dsimp only
  rw [Tray.roll_bind_of_ok hpool]
  cases hv : p.value? with
  | some v =>
    have hgroup : t₃.roll (p.group (dice count sides ms).text) =
        (.ok ⟨(dice count sides ms).text, p.sides, p.dice, v, p.success.isSome⟩, t₃) :=
      Pool.roll_group_eq_ok_iff.mpr ⟨rfl, v, hv, rfl⟩
    rw [Tray.roll_bind_of_ok hgroup]
    rfl
  | none =>
    have hgroup : t₃.roll (p.group (dice count sides ms).text) = (.error .overflow, t₃) := by
      rw [Pool.group, hv]
      rfl
    rw [Tray.roll_bind_of_error hgroup]

/-- A dice term that is evaluated is a run, behind the evaluation of its count and its sides, whose
dice account for all that has been drawn for it, and whose value is that of its kept dice. Once its
draws and its modifiers have been made, it fails just if it has no success count and its kept faces
add up to more than a 64-bit integer. -/
theorem dice_conserves (config : Config) (resolve : Resolver) (count sides : Expr)
    (ms : List Modifier) (t : Tray σ) :
    (∀ (x : Number) (groups : List DiceGroup) (t' : Tray σ),
      t.roll ((dice count sides ms).eval config resolve) = (.ok (x, groups), t') →
      ∃ (gs gs' : List DiceGroup) (t₁ : Tray σ) (r : TermRun σ config) (first : List Call)
        (steps : List (Modifier × List Call)),
        r.modifiers = ms ∧ t.roll (count.eval config resolve) = (.ok (r.count, gs), t₁) ∧
        t₁.roll (sides.eval config resolve) = (.ok (r.sides, gs'), r.start) ∧ r.stop = t' ∧
        x = .int r.group.value ∧ groups = gs ++ gs' ++ [r.group] ∧
        r.Splits first steps ∧ Pool.Conserves r.group.dice first steps ∧ r.Valued) ∧
    (∀ (n s : Number) (gs gs' : List DiceGroup) (p : Pool) (t₁ t₂ t₃ : Tray σ),
      t.roll (count.eval config resolve) = (.ok (n, gs), t₁) →
      t₁.roll (sides.eval config resolve) = (.ok (s, gs'), t₂) →
      t₂.roll (Pool.roll config n s ms) = (.ok p, t₃) →
      ((∀ c, .countSuccesses c ∉ ms) ∧ Int64.maxValue.toInt < Pool.keptSum p.dice →
        t.roll ((dice count sides ms).eval config resolve) = (.error .overflow, t₃)) ∧
      (¬((∀ c, .countSuccesses c ∉ ms) ∧ Int64.maxValue.toInt < Pool.keptSum p.dice) →
        ∃ x groups,
          t.roll ((dice count sides ms).eval config resolve) = (.ok (x, groups), t₃))) := by
  constructor
  · intro x groups t' h
    obtain ⟨gs, gs', t₁, r, hms, -, hcount, hsides, hstop, hx, hgroups⟩ := exists_run_of_dice h
    obtain ⟨hvalued, first, steps, hsplits, hconserves⟩ := r.conserves
    exact ⟨gs, gs', t₁, r, first, steps, hms, hcount, hsides, hstop, hx, hgroups, hsplits,
      hconserves, hvalued⟩
  · intro n s gs gs' p t₁ t₂ t₃ hcount hsides hpool
    obtain ⟨-, -, -, -, -, -, -, -, -, -, hone, hsuccess⟩ := Pool.steps_of_roll hpool
    rw [← Pool.lastSuccess?_eq_none_iff, ← hsuccess, ← Pool.value?_eq_none_iff hone,
      roll_dice hcount hsides hpool]
    constructor
    · intro hv
      rw [hv]
    · intro hv
      obtain ⟨v, hv⟩ := Option.ne_none_iff_exists'.mp hv
      rw [hv]
      exact ⟨_, _, rfl⟩

/-- A six takes over the five drawn for it, and a one is replaced by a four. The largest face and a
one add up to too much. -/
theorem dice_conserves_absorbed : ∃ (e huge : Expr) (g : DiceGroup) (r : TermRun Script default)
    (first : List Call) (steps : List (Modifier × List Call)) (t t' t'' : Tray Script),
    e = dice (literal 2) (literal 6)
      [.redraw .compound none, .redraw .reroll (some ⟨.eq, 1⟩)] ∧
    (Tray.ofSource (Script.ofList [6, 1, 5, 4])).roll (e.eval default .empty) =
      (.ok (.int 15, [g]), t') ∧
    g.dice.map Die.status = [.kept, .rerolled, .exploded, .kept] ∧
    r.group = g ∧ r.Splits first steps ∧ Pool.Conserves g.dice first steps ∧
    huge = dice (literal 2) (literal Int64.maxValue) [] ∧
    t.roll (huge.eval default .empty) = (.error .overflow, t'') := by
  have heval : (Tray.ofSource (Script.ofList [6, 1, 5, 4])).roll
      ((dice (literal 2) (literal 6)
        [.redraw .compound none, .redraw .reroll (some ⟨.eq, 1⟩)]).eval default .empty) =
      (.ok (.int 15, [⟨"2d6!!r=1", 6, [⟨11, 6, .kept, true⟩, .drawn 6 .rerolled 1,
          .drawn 6 .exploded 5, .drawn 6 .kept 4], 15, false⟩]),
        ⟨⟨#[6, 1, 5, 4], 4⟩, #[⟨1, 6, 6⟩, ⟨1, 6, 1⟩, ⟨1, 6, 5⟩, ⟨1, 6, 4⟩]⟩) := by
    rfl
  have hpool : (Tray.ofSource (Script.ofList [Int64.maxValue, 1])).roll
      (Pool.roll default (.int 2) (.int Int64.maxValue) []) =
      (.ok ⟨Int64.maxValue, [.drawn Int64.maxValue .kept Int64.maxValue,
          .drawn Int64.maxValue .kept 1], none⟩,
        ⟨⟨#[Int64.maxValue, 1], 2⟩,
          #[⟨1, Int64.maxValue, Int64.maxValue⟩, ⟨1, Int64.maxValue, 1⟩]⟩) := by
    rfl
  obtain ⟨hvalue, -⟩ := dice_conserves (σ := Script) default .empty (literal 2) (literal 6)
    [.redraw .compound none, .redraw .reroll (some ⟨.eq, 1⟩)]
    (.ofSource (Script.ofList [6, 1, 5, 4]))
  obtain ⟨_, _, _, r, first, steps, -, -, -, -, -, hgroups, hsplits, hconserves, -⟩ :=
    hvalue _ _ _ heval
  obtain ⟨-, hfails⟩ := dice_conserves (σ := Script) default .empty (literal 2)
    (literal Int64.maxValue) [] (.ofSource (Script.ofList [Int64.maxValue, 1]))
  obtain ⟨hoverflow, -⟩ := hfails _ _ _ _ _ _ _ _ rfl rfl hpool
  have hgroup : r.group = ⟨"2d6!!r=1", 6, [⟨11, 6, .kept, true⟩, .drawn 6 .rerolled 1,
      .drawn 6 .exploded 5, .drawn 6 .kept 4], 15, false⟩ := by
    simpa using (congrArg List.getLast? hgroups).symm
  exact ⟨_, _, _, r, first, steps, _, _, _, rfl, heval, rfl, hgroup, hsplits,
    hgroup ▸ hconserves, rfl, hoverflow ⟨by simp, by decide⟩⟩

end Expr

end Tabletop
