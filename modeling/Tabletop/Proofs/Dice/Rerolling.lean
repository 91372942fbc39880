import Tabletop.Proofs.Dice.Record

/-!
# Rerolling

A reroll sets aside each kept die that meets the condition and draws a chain of replacements for it,
of which the last one is kept.

* `Pool.Rerolls c once limit p chains p'`: `p'` is `p` rerolled, with the faces of `chains` drawn
  for its dice.
* `Pool.reroll_eq_ok_iff`, `Pool.reroll_eq_error_iff`: when a reroll succeeds, and when it is too
  long.
* `Pool.reroll_replaces`: what every reroll does, and when it fails.
-/

namespace Tabletop.Pool

/-- Whether a reroll replaces a replacement that shows the face. -/
def rerollsAgain (c : Comparison) (once : Bool) (face : Int64) : Bool :=
  !once && c.accepts face

theorem rerollsAgain_false (c : Comparison) : rerollsAgain c false = c.accepts := by
  funext face
  simp [rerollsAgain]

/-- A die that meets the condition, set aside for its chain. -/
def setAside (c : Comparison) (d : Die) (_ : List Int64) : Die :=
  if d.meets c then { d with status := .rerolled } else d

/-- The faces of the chain that replaces a die, if there may be `limit` of them. -/
def Replaces (c : Comparison) (once : Bool) (limit : Nat) (_ : Die) (faces : List Int64) : Prop :=
  CompleteChain (rerollsAgain c once) faces ∧ faces.length ≤ limit

/-- `p'` is `p` with its dice rerolled that meet the condition. The faces of `chains` have been
drawn, one chain for each die of `p`. -/
structure Rerolls (c : Comparison) (once : Bool) (limit : Nat) (p : Pool)
    (chains : List (List Int64)) (p' : Pool) : Prop where
  sides : p'.sides = p.sides
  success : p'.success = p.success
  length : chains.length = p.dice.length
  /-- As many dice are kept as before. -/
  kept : p'.dice.countP Die.isKept = p.dice.countP Die.isKept
  /-- A die that is not kept or does not meet the condition is as it was, and nothing is drawn for
  it. -/
  untouched : ∀ (i : Nat) (d : Die) (faces : List Int64), p.dice[i]? = some d →
    chains[i]? = some faces → d.meets c = false → p'.dice[i]? = some d ∧ faces = []
  /-- A die that meets the condition is rerolled and keeps its face. Its chain has at most `limit`
  faces: all but the last meet the condition again, or there is just one. -/
  replaced : ∀ (i : Nat) (d : Die) (faces : List Int64), p.dice[i]? = some d →
    chains[i]? = some faces → d.meets c = true →
    p'.dice[i]? = some { d with status := .rerolled } ∧ 1 ≤ faces.length ∧ faces.length ≤ limit ∧
      (once = false → ∀ face ∈ faces.dropLast, c.accepts face = true) ∧
      (once = true → faces.length = 1)
  /-- The new dice stand behind the others, chain after chain, and only the last one of each chain
  is kept. -/
  fresh : p'.dice.drop p.dice.length = chains.flatMap fun faces =>
    faces.dropLast.map (.drawn p.sides .rerolled) ++
      faces.getLast?.toList.map (.drawn p.sides .kept)
  /-- Unless each die is rerolled just once, no kept die meets the condition any more. -/
  settled : once = false → ∀ d ∈ p'.dice, d.meets c = false

section Dice

variable {c : Comparison} {once : Bool} {limit : Nat} {sides : Int64}

theorem replacements_eq (sides : Int64) (faces : List Int64) :
    replacements sides faces = faces.dropLast.map (.drawn sides .rerolled) ++
      faces.getLast?.toList.map (.drawn sides .kept) := by
  fun_induction replacements sides faces with
  | case1 => rfl
  | case2 face => rfl
  | case3 face faces hne ih =>
    obtain ⟨x, xs, rfl⟩ := List.exists_cons_of_ne_nil (l := faces) hne
    rw [ih]
    rfl

/-- Of a chain of replacements one die is kept. -/
theorem countP_isKept_replacements {faces : List Int64} (h : faces ≠ []) :
    (replacements sides faces).countP Die.isKept = 1 := by
  obtain ⟨init, last, rfl⟩ := List.eq_nil_or_concat faces |>.resolve_left h
  rw [replacements_eq]
  simp [Die.isKept, Die.drawn, Function.comp_def]

theorem setAside_of_not_meets (d : Die) (h : d.meets c = false) : setAside c d [] = d := by
  rw [setAside, h, if_neg Bool.false_ne_true]

theorem isKept_setAside (c : Comparison) (d : Die) (faces : List Int64) :
    (setAside c d faces).isKept = (d.isKept && !d.meets c) := by
  unfold setAside
  split
  · next h => simp [h, Die.isKept]
  · next h => simp [h]

theorem not_meets_setAside (c : Comparison) (d : Die) (faces : List Int64) :
    (setAside c d faces).meets c = false := by
  unfold setAside
  split
  · simp [Die.meets, Die.isKept]
  · next h => simpa using h

/-- For every die that is set aside another one is kept. -/
theorem countP_isKept_rerolled {dice : List Die} {chains : List (List Int64)}
    (h : List.Forall₂ (DrawnFor c (Replaces c once limit)) dice chains) :
    (List.zipWith (setAside c) dice chains ++
      chains.flatMap (replacements sides)).countP Die.isKept = dice.countP Die.isKept := by
  induction h with
  | nil => rfl
  | @cons d faces dice chains hfaces hrest ih =>
    rw [List.countP_append] at ih
    rw [List.zipWith_cons_cons, List.flatMap_cons, List.cons_append, List.countP_cons,
      List.countP_cons, List.countP_append, List.countP_append, isKept_setAside]
    by_cases hd : d.meets c = true
    · rw [drawnFor_of_meets hd] at hfaces
      have hkept := isKept_of_meets hd
      rw [countP_isKept_replacements hfaces.1.ne_nil]
      simp only [hd, hkept, Bool.not_true, Bool.and_false, Bool.false_eq_true, if_true, if_false]
      omega
    · rw [drawnFor_of_not_meets hd] at hfaces
      subst hfaces
      simp only [hd, Bool.not_false, Bool.and_true, replacements, List.countP_nil]
      omega

/-- The last replacement of a chain fails the condition, and the others are not kept. -/
theorem not_meets_of_mem_replacements {faces : List Int64}
    (h : CompleteChain (rerollsAgain c false) faces) :
    ∀ d ∈ replacements sides faces, d.meets c = false := by
  obtain ⟨init, last, rfl, -, hlast⟩ := h
  intro d hd
  rw [replacements_eq, List.dropLast_concat, List.getLast?_concat] at hd
  rcases List.mem_append.mp hd with hinit | hkept
  · obtain ⟨face, -, rfl⟩ := List.mem_map.mp hinit
    simp [Die.meets, Die.isKept, Die.drawn]
  · obtain rfl : d = .drawn sides .kept last := by simpa using hkept
    have haccepts : c.accepts last = false := by simpa [rerollsAgain] using hlast
    simp [Die.meets, Die.drawn, haccepts]

/-- Where dice are rerolled until they fail the condition, all kept dice do. -/
theorem not_meets_of_mem_rerolled {dice : List Die} {chains : List (List Int64)}
    (h : List.Forall₂ (DrawnFor c (Replaces c false limit)) dice chains) :
    ∀ d ∈ List.zipWith (setAside c) dice chains ++ chains.flatMap (replacements sides),
      d.meets c = false := by
  induction h with
  | nil => simp
  | @cons d faces dice chains hfaces hrest ih =>
    intro x hx
    simp only [List.zipWith_cons_cons, List.flatMap_cons, List.cons_append, List.mem_cons,
      List.mem_append] at hx ih
    rcases hx with rfl | hx | hx | hx
    · exact not_meets_setAside c d faces
    · exact ih x (.inl hx)
    · by_cases hd : d.meets c = true
      · exact not_meets_of_mem_replacements ((drawnFor_of_meets hd).mp hfaces).1 x hx
      · rw [(drawnFor_of_not_meets hd).mp hfaces] at hx
        cases hx
    · exact ih x (.inr hx)

/-- What the faces that are drawn make of a pool. -/
theorem rerolls_of_drawnFor {p : Pool} {chains : List (List Int64)}
    (h : List.Forall₂ (DrawnFor c (Replaces c once limit)) p.dice chains) :
    p.Rerolls c once limit chains { p with
      dice := List.zipWith (setAside c) p.dice chains ++
        chains.flatMap (replacements p.sides) } where
  sides := rfl
  success := rfl
  length := h.length_eq.symm
  kept := countP_isKept_rerolled h
  untouched _ _ _ hd hfaces hn := getElem?_of_not_meets setAside_of_not_meets h hd hfaces hn
  replaced i d faces hd hfaces hmeets := by
    obtain ⟨hget, ⟨init, last, rfl, hinit, -⟩, hlength⟩ := getElem?_of_meets h hd hfaces hmeets
    refine ⟨hget.trans ?_, by simp, hlength, fun hall => ?_, fun honce => ?_⟩
    · rw [setAside, if_pos hmeets]
    · subst hall
      simpa [rerollsAgain] using hinit
    · subst honce
      have hnil : init = [] := List.eq_nil_iff_forall_not_mem.mpr fun face hface => by
        simpa [rerollsAgain] using hinit face hface
      rw [hnil]
      rfl
  fresh := by
    simp only [← replacements_eq]
    exact List.drop_left' (by rw [List.length_zipWith, h.length_eq, Nat.min_self])
  settled hall := by
    subst hall
    exact not_meets_of_mem_rerolled h

end Dice

/-! ## Runs -/

section Run

variable {σ : Type} [Source σ] {t t' : Tray σ} {c : Comparison} {once : Bool} {limit : Nat}
  {p p' : Pool}

theorem reroll_chaining (c : Comparison) (once : Bool) (limit : Nat) (sides : Int64) :
    Chaining (σ := σ) c sides
      (fun d => do
        let faces ← chain (fun face => !once && c.accepts face) sides limit limit
        pure ({ d with status := .rerolled }, replacements sides faces))
      (Replaces c once limit) (setAside c) (replacements sides) where
  unchanged := setAside_of_not_meets
  nothing := rfl
  drawn d r t t' hd := by
    have haside (faces : List Int64) : setAside c d faces = { d with status := .rerolled } :=
      if_pos hd
    rw [Tray.roll_bind_eq_ok_iff]
    constructor
    · rintro ⟨faces, t₁, hchain, hpure⟩
      obtain ⟨rfl, rfl⟩ := Tray.roll_pure_eq_ok_iff.mp hpure
      obtain ⟨hcomplete, hlength, hdraws⟩ := chain_eq_ok_iff.mp hchain
      exact ⟨faces, ⟨hcomplete, hlength⟩, hdraws, by rw [haside]⟩
    · rintro ⟨faces, ⟨hcomplete, hlength⟩, hdraws, rfl⟩
      rw [haside]
      exact ⟨faces, t', chain_eq_ok_iff.mpr ⟨hcomplete, hlength, hdraws⟩, rfl⟩

/-- A reroll succeeds if the source gives a complete chain for every die that meets the
condition. -/
theorem reroll_eq_ok_iff : t.roll (p.reroll c once limit) = (.ok p', t') ↔
    ∃ chains, List.Forall₂ (DrawnFor c (Replaces c once limit)) p.dice chains ∧
      t.Draws p.sides chains.flatten t' ∧ p' = { p with
        dice := List.zipWith (setAside c) p.dice chains ++
          chains.flatMap (replacements p.sides) } :=
  (reroll_chaining c once limit p.sides).extend_eq_ok_iff

/-- A reroll is too long if, behind complete chains, all replacements that there may be for a die
are to be replaced again. -/
theorem reroll_eq_error_iff : t.roll (p.reroll c once limit) = (.error (.chainTooLong limit), t') ↔
    p.ComesTo c (Replaces c once limit) (fun _ faces => faces.length = limit ∧
      ∀ face ∈ faces, rerollsAgain c once face = true) t t' := by
  refine (reroll_chaining c once limit p.sides).extend_eq_error_iff fun d t t' hd => ?_
  rw [Tray.roll_bind_eq_error_iff]
  constructor
  · rintro (herror | ⟨faces, t₁, -, hpure⟩)
    · obtain ⟨faces, hdraws, hlength, hall⟩ := chain_eq_error_iff.mp herror
      exact ⟨faces, ⟨hlength, hall⟩, hdraws⟩
    · cases hpure
  · rintro ⟨faces, ⟨hlength, hall⟩, hdraws⟩
    exact .inl (chain_eq_error_iff.mpr ⟨faces, hdraws, hlength, hall⟩)

theorem reroll_failsWith (c : Comparison) (once : Bool) (limit : Nat) (p : Pool) :
    FailsWith (p.reroll c once limit : Rolling σ Pool) (· = .chainTooLong limit) :=
  (FailsWith.composes (· = .chainTooLong limit)).reroll c once rfl (Nat.le_refl limit) p

theorem reroll_failsOnly (c : Comparison) (once : Bool) (limit : Nat) (p : Pool) :
    FailsOnly (p.reroll c once limit : Rolling σ Pool) (· = .chainTooLong limit) :=
  (reroll_failsWith c once limit p).failsOnly

/-- Without any draws, the first die that meets the condition is one too many. -/
theorem comesTo_first {R Q : Die → List Int64 → Prop} {d : Die} (hd : d ∈ p.dice)
    (hmeets : d.meets c = true) (hQ : ∀ d, Q d []) (t : Tray σ) : p.ComesTo c R Q t t := by
  obtain ⟨first, hfirst⟩ := Option.isSome_iff_exists.mp (List.find?_isSome.mpr ⟨d, hd, hmeets⟩)
  obtain ⟨hmeets, earlier, later, hdice, hearlier⟩ := List.find?_eq_some_iff_append.mp hfirst
  obtain ⟨chains, hall, hnil⟩ := exists_drawnFor_quiet c R fun x hx => by simpa using hearlier x hx
  refine ⟨earlier, first, later, chains, [], hdice, hmeets, hall, hQ first, ?_⟩
  rw [hnil]
  exact Tray.draws_nil t p.sides

/-- A reroll that succeeds has replaced the dice that meet the condition, as `Rerolls` says. As long
as the answers are in range, it fails just if there is a die to replace and no draw for it, or, for
dice that are rerolled until they fail the condition, if all the replacements that there may be for
one of them meet it. -/
theorem reroll_replaces (config : Config) (once : Bool) (condition : Option Comparison) (p : Pool)
    (t : Tray σ) :
    let c := condition.getD (.equalTo 1)
    let limit := config.maxChain
    let run := t.roll (p.modify config (.redraw (if once then .rerollOnce else .reroll) condition))
    (∀ p' t', run = (.ok p', t') →
      ∃ chains, t.Draws p.sides chains.flatten t' ∧ p.Rerolls c once limit chains p') ∧
    ∃ cs, t.Adds cs run.2 ∧ ((∀ call ∈ cs, call.InRange) →
      (∀ e, run.1 = .error e → e = .chainTooLong limit) ∧
      ((∃ e, run.1 = .error e) ↔
        (limit = 0 ∧ ∃ d ∈ p.dice, d.meets c = true) ∨
        (once = false ∧ ∃ t', p.ComesTo c (Replaces c once limit) (fun _ faces =>
          faces.length = limit ∧ ∀ face ∈ faces, c.accepts face = true) t t'))) := by
  intro c limit run
  have hrun : run = t.roll (p.reroll c once limit) := by cases once <;> rfl
  clear_value run c limit
  subst hrun
  constructor
  · intro p' t' h
    obtain ⟨chains, hall, hdraws, rfl⟩ := reroll_eq_ok_iff.mp h
    exact ⟨chains, hdraws, rerolls_of_drawnFor hall⟩
  · obtain ⟨cs, hcs, hfails⟩ := reroll_failsOnly c once limit p t
    refine ⟨cs, hcs, fun hin => ⟨hfails hin, ?_, ?_⟩⟩
    · rintro ⟨e, he⟩
      obtain rfl := hfails hin e he
      have hcomes := reroll_eq_error_iff.mp (Prod.ext he rfl)
      cases once with
      | false =>
        rw [rerollsAgain_false] at hcomes
        exact .inr ⟨rfl, _, hcomes⟩
      | true =>
        obtain ⟨earlier, d, later, chains, faces, hdice, hmeets, -, ⟨hlength, hall⟩, -⟩ := hcomes
        have hnil : faces = [] := List.eq_nil_iff_forall_not_mem.mpr fun face hface => by
          simpa [rerollsAgain] using hall face hface
        refine .inl ⟨by rw [← hlength, hnil, List.length_nil], d, ?_, hmeets⟩
        simp [hdice]
    · rintro (⟨rfl, d, hd, hmeets⟩ | ⟨rfl, t', hcomes⟩)
      · have hcomes := comesTo_first (R := Replaces c once 0) (Q := fun _ faces =>
          faces.length = 0 ∧ ∀ face ∈ faces, rerollsAgain c once face = true) hd hmeets
          (by simp) t
        exact ⟨_, congrArg Prod.fst (reroll_eq_error_iff.mpr hcomes)⟩
      · rw [← rerollsAgain_false] at hcomes
        exact ⟨_, congrArg Prod.fst (reroll_eq_error_iff.mpr hcomes)⟩

/-- A one is replaced by another one and that by a four, and a second one by a three. Where chains
may have one draw only, the second one is too long already. -/
theorem reroll_replaces_ones : ∃ (p p' : Pool) (chains : List (List Int64)) (t t' u : Tray Script),
    p = ofFaces 6 [1, 5, 1] ∧ t = Tray.ofSource (Script.ofList [1, 4, 3]) ∧
    t.roll (p.modify ⟨9, 2, .truncate⟩ (.redraw .reroll none)) = (.ok p', t') ∧
    p'.dice.map (fun d => (d.face, d.status)) = [(1, .rerolled), (5, .kept), (1, .rerolled),
      (1, .rerolled), (4, .kept), (3, .kept)] ∧
    t.Draws 6 chains.flatten t' ∧ p.Rerolls (.equalTo 1) false 2 chains p' ∧
    (t.roll (p.modify ⟨9, 1, .truncate⟩ (.redraw .reroll none))).1 = .error (.chainTooLong 1) ∧
    p.ComesTo (.equalTo 1) (Replaces (.equalTo 1) false 1) (fun _ faces =>
      faces.length = 1 ∧ ∀ face ∈ faces, (Comparison.equalTo 1).accepts face = true) t u := by
  have hok : (Tray.ofSource (Script.ofList [1, 4, 3])).roll
      ((ofFaces 6 [1, 5, 1]).modify ⟨9, 2, .truncate⟩ (.redraw .reroll none)) =
      (.ok ⟨6, [.drawn 6 .rerolled 1, .drawn 6 .kept 5, .drawn 6 .rerolled 1,
          .drawn 6 .rerolled 1, .drawn 6 .kept 4, .drawn 6 .kept 3], none⟩,
        ⟨⟨#[1, 4, 3], 3⟩, #[⟨1, 6, 1⟩, ⟨1, 6, 4⟩, ⟨1, 6, 3⟩]⟩) := by rfl
  have herror : (Tray.ofSource (Script.ofList [1, 4, 3])).roll
      ((ofFaces 6 [1, 5, 1]).modify ⟨9, 1, .truncate⟩ (.redraw .reroll none)) =
      (.error (.chainTooLong 1), ⟨⟨#[1, 4, 3], 1⟩, #[⟨1, 6, 1⟩]⟩) := by rfl
  obtain ⟨hrerolls, -⟩ := reroll_replaces (σ := Script) ⟨9, 2, .truncate⟩ false none
    (ofFaces 6 [1, 5, 1]) (.ofSource (Script.ofList [1, 4, 3]))
  obtain ⟨chains, hdraws, hchains⟩ := hrerolls _ _ hok
  obtain ⟨-, cs, ⟨hcalls, -⟩, hin⟩ := reroll_replaces (σ := Script) ⟨9, 1, .truncate⟩ false none
    (ofFaces 6 [1, 5, 1]) (.ofSource (Script.ofList [1, 4, 3]))
  have hcs : cs = [⟨1, 6, 1⟩] := by
    rw [← List.nil_append cs]
    exact hcalls.symm.trans rfl
  obtain ⟨-, hiff⟩ := hin (by simp [hcs, Call.InRange])
  rcases hiff.mp ⟨_, congrArg Prod.fst herror⟩ with ⟨hzero, -⟩ | ⟨-, u, hcomes⟩
  · cases hzero
  · exact ⟨_, _, chains, _, _, u, rfl, rfl, hok, rfl, hdraws, hchains,
      congrArg Prod.fst herror, hcomes⟩

end Run

end Tabletop.Pool
