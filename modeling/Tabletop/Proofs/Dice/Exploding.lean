import Mathlib.Algebra.Ring.Nat
import Tabletop.Proofs.Dice.Record

/-!
# Exploding

A die that explodes brings another one, which may explode in its turn. How long this can go on is
limited.

* `Pool.scan`: an explosion by one pass over the dice, with a table of how deep each of them is.
  `Pool.scan_eq_explode`: it comes to the same, and looks up no place that is not there.
* `Pool.Explodes c gen p p'`: `p'` is `p` exploded, with the generations `gen`.
* `Pool.explode_by_generations`: what every explosion does, and when it fails.
-/

namespace Tabletop.Pool

variable {σ : Type} [Source σ] {c : Comparison} {sides : Int64} {limit n : Nat} {t t' : Tray σ}
  {dice ds : List Die}

/-! ## One pass over the dice -/

/-- How many more draws the dice from the place `i` on may lead to, if each of them leads to one
after the other. -/
def reserve (limit i : Nat) (depths : List Nat) : Nat :=
  ((depths.drop i).map (limit - ·)).sum

theorem reserve_succ_le (limit i : Nat) (depths : List Nat) :
    reserve limit (i + 1) depths ≤ reserve limit i depths := by
  unfold reserve
  by_cases hi : i < depths.length
  · rw [List.drop_eq_getElem_cons hi, List.map_cons, List.sum_cons]
    exact Nat.le_add_left _ _
  · rw [List.drop_eq_nil_of_le (by omega), List.drop_eq_nil_of_le (by omega)]

/-- A draw is taken from the reserve. -/
theorem reserve_append {limit i n : Nat} {depths : List Nat} (hi : depths[i]? = some n)
    (hn : n < limit) :
    reserve limit (i + 1) (depths ++ [n + 1]) + 1 = reserve limit i depths := by
  obtain ⟨hlt, hget⟩ := List.getElem?_eq_some_iff.mp hi
  unfold reserve
  rw [List.drop_append_of_le_length hlt, List.drop_eq_getElem_cons hlt, List.map_append,
    List.sum_append, List.map_singleton, List.sum_singleton, List.map_cons, List.sum_cons, hget]
  show (List.map _ (List.drop (i + 1) depths)).sum + _ + 1 = _
  omega

/-- The dice from the place `i` on explode one after the other, and every die drawn is put behind
all others. The table says how many explosions have led to each die. There is no result if a place
is looked up that is not there. -/
def scan (c : Comparison) (sides : Int64) (limit i : Nat) (dice : List Die) (depths : List Nat) :
    Rolling σ (Option (List Die)) :=
  if _ : i < dice.length then
    match dice[i]? with
    | none => pure none
    | some d =>
      if d.meets c then
        match hn : depths[i]? with
        | none => pure none
        | some n =>
          if hlimit : limit < n + 1 then
            throw (.chainTooLong limit)
          else do
            let face ← Rolling.draw sides
            scan c sides limit (i + 1)
              (dice.set i { d with exploded := true } ++ [.drawn sides .kept face])
              (depths ++ [n + 1])
      else
        scan c sides limit (i + 1) dice depths
  else
    pure (some dice)
termination_by (dice.length - i) + reserve limit i depths
decreasing_by
  · have hreserve := reserve_append hn (Nat.le_of_not_lt hlimit)
    rw [List.length_append, List.length_set, List.length_singleton]
    omega
  · have hreserve := reserve_succ_le limit i depths
    omega

section Scan

variable {k : Nat} {d : Die} {done rest next : List Die} {before depths : List Nat}

/-- The pass ends behind the last die. -/
theorem scan_end (c : Comparison) (sides : Int64) (limit : Nat) (dice : List Die)
    (depths : List Nat) :
    (scan c sides limit dice.length dice depths : Rolling σ (Option (List Die))) =
      pure (some dice) := by
  rw [scan, dif_neg (Nat.lt_irrefl _)]

theorem scan_step (h : before.length = done.length) :
    (scan c sides limit done.length (done ++ d :: rest) (before ++ k :: depths) :
      Rolling σ (Option (List Die))) =
      if d.meets c then
        if limit ≤ k then throw (.chainTooLong limit)
        else do
          let face ← Rolling.draw sides
          scan c sides limit (done ++ [d.marked c]).length
            (done ++ [d.marked c] ++ (rest ++ [.drawn sides .kept face]))
            (before ++ [k] ++ (depths ++ [k + 1]))
      else
        scan c sides limit (done ++ [d.marked c]).length (done ++ [d.marked c] ++ rest)
          (before ++ [k] ++ depths) := by
  have hlt : done.length < (done ++ d :: rest).length := by simp
  have hdie : (done ++ d :: rest)[done.length]? = some d := by simp
  have hdepth : (before ++ k :: depths)[done.length]? = some k := by simp [← h]
  rw [scan, dif_pos hlt]
  simp only [hdie]
  by_cases hd : d.meets c = true
  · rw [if_pos hd, if_pos hd, Die.marked_of_meets hd]
    split
    · next hn => cases hdepth.symm.trans hn
    · next n hn =>
      obtain rfl : k = n := Option.some.inj (hdepth.symm.trans hn)
      by_cases hlimit : limit ≤ k
      · rw [dif_pos (Nat.lt_succ_of_le hlimit), if_pos hlimit]
      · rw [dif_neg (by omega), if_neg hlimit]
        simp
  · rw [if_neg hd, if_neg hd, Die.marked_of_not_meets (by simpa using hd)]
    simp

/-- The pass goes over dice that do not meet the condition, however deep they are. -/
theorem scan_quiet (hrest : rest.countP (Die.meets c) = 0) (h : before.length = done.length) :
    (scan c sides limit done.length (done ++ rest) (before ++ List.replicate rest.length k) :
      Rolling σ (Option (List Die))) = pure (some (done ++ rest)) := by
  induction rest generalizing done before with
  | nil =>
    rw [List.append_nil]
    exact scan_end c sides limit done _
  | cons d rest ih =>
    have hd : ¬d.meets c = true := List.countP_eq_zero.mp hrest d List.mem_cons_self
    rw [List.countP_cons_of_neg hd] at hrest
    rw [List.length_cons, List.replicate_succ, scan_step h, if_neg hd, ih hrest (by simp [h]),
      Die.marked_of_not_meets (by simpa using hd), List.append_assoc, List.singleton_append]

/-- At the last depth, the pass stops at the first die that meets the condition. -/
theorem scan_last (hrest : rest.countP (Die.meets c) ≠ 0) (h : before.length = done.length) :
    (scan c sides limit done.length (done ++ rest)
      (before ++ List.replicate rest.length limit) : Rolling σ (Option (List Die))) =
      throw (.chainTooLong limit) := by
  induction rest generalizing done before with
  | nil => exact absurd rfl hrest
  | cons d rest ih =>
    rw [List.length_cons, List.replicate_succ, scan_step h]
    by_cases hd : d.meets c = true
    · rw [if_pos hd, if_pos (Nat.le_refl limit)]
    · rw [if_neg hd]
      rw [List.countP_cons_of_neg hd] at hrest
      exact ih hrest (by simp [h])

/-- The pass over the rest of a generation: `next` has been drawn for its dice so far, one deeper
than they are. -/
theorem scan_generation (c : Comparison) (sides : Int64) (rest next : List Die) (hk : k < limit)
    (h : before.length = done.length) :
    (scan c sides limit done.length (done ++ (rest ++ next))
      (before ++ (List.replicate rest.length k ++ List.replicate next.length (k + 1))) :
      Rolling σ (Option (List Die))) = (do
      let faces ← Rolling.drawFaces sides (rest.countP (Die.meets c))
      let dice := next ++ faces.map (.drawn sides .kept)
      scan c sides limit (done ++ rest.map (Die.marked c)).length
        (done ++ rest.map (Die.marked c) ++ dice)
        (before ++ List.replicate rest.length k ++ List.replicate dice.length (k + 1))) := by
  induction rest generalizing done before next with
  | nil => simp [Rolling.drawFaces]
  | cons d rest ih =>
    rw [List.length_cons, List.replicate_succ, List.cons_append, List.cons_append,
      scan_step h]
    by_cases hd : d.meets c = true
    · rw [if_pos hd, if_neg (Nat.not_le_of_lt hk), List.countP_cons_of_pos hd,
        Rolling.drawFaces, bind_assoc]
      refine bind_congr fun face => ?_
      -- The table grows with the dice, by one entry for the die drawn.
      have hdepths : List.replicate rest.length k ++ List.replicate next.length (k + 1) ++ [k + 1] =
          List.replicate rest.length k ++
            List.replicate (next ++ [Die.drawn sides .kept face]).length (k + 1) := by
        rw [List.append_assoc, List.length_append, List.length_singleton,
          List.replicate_succ']
      rw [hdepths, List.append_assoc rest, ih _ (by simp [h])]
      simp
    · rw [if_neg hd, List.countP_cons_of_neg hd, ih next (by simp [h])]
      simp

/-- Between two generations, the pass has as much to do as `generations` has. -/
theorem scan_eq_generations (hn : k + n = limit) (h : before.length = done.length) :
    (scan c sides limit done.length (done ++ dice) (before ++ List.replicate dice.length k) :
      Rolling σ (Option (List Die))) = (do
      let later ← generations c sides limit n dice
      pure (some (done ++ later))) := by
  -- On the generations that may still come: the pass over one of them leaves the dice drawn for it
  -- as the next.
  induction n generalizing k dice done before with
  | zero =>
    obtain rfl : k = limit := hn
    by_cases hzero : dice.countP (Die.meets c) = 0
    · rw [scan_quiet hzero h, generations_quiet hzero, pure_bind]
    · rw [scan_last hzero h, generations_zero hzero]
      rfl
  | succ n ih =>
    by_cases hzero : dice.countP (Die.meets c) = 0
    · rw [scan_quiet hzero h, generations_quiet hzero, pure_bind]
    · have hpass := scan_generation (σ := σ) c sides dice [] (show k < limit by omega) h
      simp only [List.append_nil, List.length_nil, List.replicate_zero, List.nil_append] at hpass
      rw [hpass, generations_succ hzero, bind_assoc]
      refine bind_congr fun faces => ?_
      rw [ih (by omega) (by simp [h]), bind_assoc]
      simp

end Scan

/-- One pass over the dice is an explosion, and looks up no place that is not there. -/
theorem scan_eq_explode (c : Comparison) (limit : Nat) (p : Pool) :
    (scan c p.sides limit 0 p.dice (List.replicate p.dice.length 0) :
      Rolling σ (Option (List Die))) = (do
      let p' ← p.explode c limit
      pure (some p'.dice)) := by
  have hscan : (scan c p.sides limit ([] : List Die).length ([] ++ p.dice)
      ([] ++ List.replicate p.dice.length 0) : Rolling σ (Option (List Die))) = (do
      let later ← generations c p.sides limit limit p.dice
      pure (some ([] ++ later))) := scan_eq_generations (Nat.zero_add limit) rfl
  rw [explode, bind_assoc]
  exact hscan

/-! ## Explosions -/

/-- `p'` is `p` exploded, where `gen j` are the dice of the generation `j`. -/
structure Explodes (c : Comparison) (gen : Nat → List Die) (p p' : Pool) : Prop where
  sides : p'.sides = p.sides
  success : p'.success = p.success
  /-- The dice of `p` and those of all generations behind them. A die is marked just if it was
  before or meets the condition. -/
  gathers : Gathers c gen p'.dice
  /-- The dice of `p` stay in their places, and show and count for what they did. -/
  old : ∀ (i : Nat) (d : Die), p.dice[i]? = some d → p'.dice[i]? = some (d.marked c)
  fresh : ∀ d ∈ p'.dice.drop p.dice.length, d.isKept = true

theorem isKept_of_mem_generation {j : Nat} {d : Die}
    (h : d ∈ (generation c sides t dice (j + 1)).1) : d.isKept = true := by
  obtain ⟨face, -, rfl⟩ := List.mem_map.mp h
  rfl

theorem explodes_of_gathers {p : Pool}
    (h : Gathers c (fun j => (generation c p.sides t p.dice j).1) ds) :
    p.Explodes c (fun j => (generation c p.sides t p.dice j).1) { p with dice := ds } := by
  have hsplit : ∃ later, ds = p.dice.map (Die.marked c) ++ later ∧
      ∀ d ∈ later, d.isKept = true := by
    obtain ⟨k, hk, -, rfl⟩ := h
    cases k with
    | zero =>
      have hnil : p.dice = [] := hk
      exact ⟨[], by rw [hnil]; rfl, by simp⟩
    | succ k =>
      rw [List.range_succ_eq_map, List.flatMap_cons, List.map_append]
      refine ⟨_, rfl, fun d hd => ?_⟩
      simp only [List.mem_map, List.mem_flatMap] at hd
      obtain ⟨d, ⟨_, ⟨j, -, rfl⟩, hmem⟩, rfl⟩ := hd
      have hkept : d.isKept = true := isKept_of_mem_generation hmem
      exact hkept
  obtain ⟨later, hds, hlater⟩ := hsplit
  refine ⟨rfl, rfl, h, fun i d hd => ?_, fun d hd => ?_⟩
  · have hmap : (p.dice.map (Die.marked c))[i]? = some (d.marked c) := by
      rw [List.getElem?_map, hd, Option.map_some]
    show ds[i]? = _
    rw [hds, List.getElem?_append_left (List.getElem?_eq_some_iff.mp hmap).1, hmap]
  · rw [hds, List.drop_left' (by simp)] at hd
    exact hlater d hd

theorem explode_eq_ok_iff {p p' : Pool} : t.roll (p.explode c limit) = (.ok p', t') ↔
    ∃ ds, t.roll (generations c p.sides limit limit p.dice) = (.ok ds, t') ∧
      p' = { p with dice := ds } := by
  rw [explode, Tray.roll_bind_eq_ok_iff]
  constructor
  · rintro ⟨ds, t₁, hds, hpure⟩
    obtain ⟨rfl, rfl⟩ := Tray.roll_pure_eq_ok_iff.mp hpure
    exact ⟨ds, hds, rfl⟩
  · rintro ⟨ds, hds, rfl⟩
    exact ⟨ds, t', hds, rfl⟩

theorem explode_eq_error_iff {p : Pool} {e : EvalError} :
    t.roll (p.explode c limit) = (.error e, t') ↔
      t.roll (generations c p.sides limit limit p.dice) = (.error e, t') := by
  rw [explode, Tray.roll_bind_eq_error_iff]
  constructor
  · rintro (hds | ⟨ds, t₁, -, hpure⟩)
    · exact hds
    · cases hpure
  · exact .inl

/-- As long as the answers are in range, an explosion fails just if a die of the last generation
that there may be meets the condition. If it succeeds, it gives the dice of all generations, and has
made one draw for each die that meets the condition now. One pass over the dice, with a table of
their depths, does the same on every tray, and looks up no place that is not there. -/
theorem explode_by_generations (config : Config) (condition : Option Comparison) (p : Pool)
    (t : Tray σ) :
    let c := condition.getD (.equalTo p.sides)
    let limit := config.maxChain
    let gen (j : Nat) := (generation c p.sides t p.dice j).1
    let explosion : Rolling σ Pool := p.modify config (.redraw .explode condition)
    (∃ cs, t.Adds cs (t.roll explosion).2 ∧ ((∀ call ∈ cs, call.InRange) →
      ((∃ d ∈ gen limit, d.meets c = true) →
        (t.roll explosion).1 = .error (.chainTooLong limit)) ∧
      ((∀ d ∈ gen limit, d.meets c = false) →
        ∃ p', (t.roll explosion).1 = .ok p' ∧ p.Explodes c gen p' ∧
          p'.dice.countP (Die.meets c) = cs.length))) ∧
    (scan c p.sides limit 0 p.dice (List.replicate p.dice.length 0) :
      Rolling σ (Option (List Die))) = (do
      let p' ← explosion
      pure (some p'.dice)) := by
  intro c limit gen explosion
  refine ⟨?_, scan_eq_explode c limit p⟩
  have hexplode : explosion = p.explode c limit := rfl
  clear_value explosion
  subst hexplode
  have hfailsOnly : FailsOnly (p.explode c limit : Rolling σ Pool) (· = .chainTooLong limit) :=
    (generations_failsOnly c p.sides limit limit p.dice).bind fun _ => .pure _ _
  obtain ⟨cs, hcs, hfails⟩ := hfailsOnly t
  refine ⟨cs, hcs, fun hin => ?_⟩
  generalize hrun : t.roll (p.explode c limit) = run at hcs hfails ⊢
  obtain ⟨e | p', t'⟩ := run
  · obtain rfl := hfails hin e rfl
    have hlast := generation_of_tooLong (explode_eq_error_iff.mp hrun)
    exact ⟨fun _ => rfl, fun hnone => absurd (Die.countP_meets_eq_zero_iff.mpr hnone) hlast⟩
  · obtain ⟨ds, hds, rfl⟩ := explode_eq_ok_iff.mp hrun
    obtain ⟨hlast, hgathers⟩ := generation_of_ok hds
    obtain ⟨faces, hdraws, hunmarked⟩ := unmarked_of_generations hds
    have hlength := length_of_generations hds
    have hcalls : cs = faces.map (Call.mk 1 p.sides) := hcs.unique hdraws.adds
    have hdrawn : ds.length = p.dice.length + faces.length := by
      simpa using congrArg List.length hunmarked
    refine ⟨fun hsome => ?_, fun _ => ⟨_, rfl, explodes_of_gathers hgathers, ?_⟩⟩
    · obtain ⟨d, hd, hmeets⟩ := hsome
      cases hmeets.symm.trans (Die.countP_meets_eq_zero_iff.mp hlast d hd)
    · rw [hcalls, List.length_map]
      show ds.countP (Die.meets c) = _
      omega

/-- A six brings another one, and that a three. Where there may be one generation only, the second
six is one too many. -/
theorem explode_by_generations_six : ∃ (p p' : Pool) (t t' : Tray Script),
    p = ofFaces 6 [6, 2] ∧ t = Tray.ofSource (Script.ofList [6, 3]) ∧
    t.roll (p.modify ⟨9, 2, .truncate⟩ (.redraw .explode none)) = (.ok p', t') ∧
    p'.dice.map (fun d => (d.face, d.status, d.exploded)) = [(6, .kept, true), (2, .kept, false),
      (6, .kept, true), (3, .kept, false)] ∧
    p.Explodes (.equalTo 6) (fun j => (generation (.equalTo 6) 6 t p.dice j).1) p' ∧
    p'.dice.countP (Die.meets (.equalTo 6)) = 2 ∧
    (t.roll (p.modify ⟨9, 1, .truncate⟩ (.redraw .explode none))).1 =
      .error (.chainTooLong 1) := by
  have hok : (Tray.ofSource (Script.ofList [6, 3])).roll
      ((ofFaces 6 [6, 2]).modify ⟨9, 2, .truncate⟩ (.redraw .explode none)) =
      (.ok ⟨6, [⟨6, 6, .kept, true⟩, .drawn 6 .kept 2, ⟨6, 6, .kept, true⟩,
          .drawn 6 .kept 3], none⟩,
        ⟨⟨#[6, 3], 2⟩, #[⟨1, 6, 6⟩, ⟨1, 6, 3⟩]⟩) := by rfl
  have herror : (Tray.ofSource (Script.ofList [6, 3])).roll
      ((ofFaces 6 [6, 2]).modify ⟨9, 1, .truncate⟩ (.redraw .explode none)) =
      (.error (.chainTooLong 1), ⟨⟨#[6, 3], 1⟩, #[⟨1, 6, 6⟩]⟩) := by rfl
  obtain ⟨⟨cs, hcs, hin⟩, -⟩ := explode_by_generations (σ := Script) ⟨9, 2, .truncate⟩ none
    (ofFaces 6 [6, 2]) (.ofSource (Script.ofList [6, 3]))
  obtain ⟨⟨cs', hcs', hin'⟩, -⟩ := explode_by_generations (σ := Script) ⟨9, 1, .truncate⟩ none
    (ofFaces 6 [6, 2]) (.ofSource (Script.ofList [6, 3]))
  have hcalls : cs = [⟨1, 6, 6⟩, ⟨1, 6, 3⟩] := by
    rw [← List.nil_append cs]
    exact hcs.1.symm.trans rfl
  have hcalls' : cs' = [⟨1, 6, 6⟩] := by
    rw [← List.nil_append cs']
    exact hcs'.1.symm.trans rfl
  obtain ⟨-, hnone⟩ := hin (by simp [hcalls, Call.InRange])
  obtain ⟨hsome, -⟩ := hin' (by simp [hcalls', Call.InRange])
  obtain ⟨p', hp', hexplodes, hcount⟩ := hnone (by decide)
  rw [hcalls] at hcount
  obtain rfl := Except.ok.inj ((congrArg Prod.fst hok).symm.trans hp')
  exact ⟨_, _, _, _, rfl, rfl, hok, rfl, hexplodes, hcount, hsome (by decide)⟩

end Tabletop.Pool
