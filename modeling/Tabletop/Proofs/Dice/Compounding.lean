import Tabletop.Proofs.Dice.Chains

/-!
# Compounding

A compounding explosion draws a chain of faces for each kept die that meets the condition and adds
them onto that die. Whether a chain goes on is decided by the face drawn last, not by the sum.

* `Pool.Compounds c limit p chains p'`: `p'` is `p` compounded, with the faces of `chains` drawn for
  its dice.
* `Pool.compound_eq_ok_iff`, `Pool.compound_eq_tooLong_iff`, `Pool.compound_eq_overflow_iff`: when a
  compounding explosion succeeds, is too long, and adds up to too much.
* `Pool.compound_adds_on`: what every compounding explosion does, and when it fails.
-/

namespace Tabletop.Pool

/-- A die that meets the condition, with the faces of its chain added onto it. -/
def addedOnto (c : Comparison) (d : Die) (faces : List Int64) : Die :=
  if d.meets c then
    { d with face := clamped (d.face.toInt + (faces.map (·.toInt)).sum), exploded := true }
  else
    d

/-- The faces of the chain that is added onto a die, if there may be `limit` of them. -/
def AddsOnto (c : Comparison) (limit : Nat) (d : Die) (faces : List Int64) : Prop :=
  CompleteChain c.accepts faces ∧ faces.length ≤ limit ∧
    ∃ total : Int64, total.toInt = d.face.toInt + (faces.map (·.toInt)).sum

/-- `p'` is `p` with chains added onto its dice that meet the condition. The faces of `chains` have
been drawn, one chain for each die of `p`. -/
structure Compounds (c : Comparison) (limit : Nat) (p : Pool) (chains : List (List Int64))
    (p' : Pool) : Prop where
  sides : p'.sides = p.sides
  success : p'.success = p.success
  length : chains.length = p.dice.length
  /-- As many dice are kept as before. -/
  kept : p'.dice.countP Die.isKept = p.dice.countP Die.isKept
  /-- A die that is not kept or does not meet the condition is as it was, and nothing is drawn for
  it. -/
  untouched : ∀ (i : Nat) (d : Die) (faces : List Int64), p.dice[i]? = some d →
    chains[i]? = some faces → d.meets c = false → p'.dice[i]? = some d ∧ faces = []
  /-- A die that meets the condition takes over the faces of its chain. These are at most `limit`,
  and just the last of them does not meet the condition. -/
  compounded : ∀ (i : Nat) (d : Die) (faces : List Int64), p.dice[i]? = some d →
    chains[i]? = some faces → d.meets c = true →
    ∃ total : Int64, total.toInt = d.face.toInt + (faces.map (·.toInt)).sum ∧
      p'.dice[i]? = some { d with face := total, exploded := true } ∧
      CompleteChain c.accepts faces ∧ 1 ≤ faces.length ∧ faces.length ≤ limit
  /-- The new dice stand behind the others, chain after chain. -/
  fresh : p'.dice.drop p.dice.length = chains.flatten.map (.drawn p.sides .exploded)

section Dice

variable {c : Comparison} {limit : Nat} {sides : Int64}

theorem addedOnto_of_meets {d : Die} (hd : d.meets c = true) {faces : List Int64} {total : Int64}
    (h : total.toInt = d.face.toInt + (faces.map (·.toInt)).sum) :
    addedOnto c d faces = { d with face := total, exploded := true } := by
  rw [addedOnto, if_pos hd, clamped_of_checked (checked_eq_some_iff.mpr h)]

theorem addedOnto_of_not_meets (d : Die) (h : d.meets c = false) : addedOnto c d [] = d := by
  rw [addedOnto, h, if_neg Bool.false_ne_true]

theorem isKept_addedOnto (c : Comparison) (d : Die) (faces : List Int64) :
    (addedOnto c d faces).isKept = d.isKept := by
  unfold addedOnto
  split <;> rfl

theorem not_isKept_of_mem_absorbed (sides : Int64) (chains : List (List Int64)) :
    ∀ d ∈ chains.flatMap (List.map (Die.drawn sides .exploded)), ¬d.isKept = true := by
  simp only [List.mem_flatMap, List.mem_map]
  rintro _ ⟨faces, -, face, -, rfl⟩
  exact Bool.false_ne_true

/-- A die that is added onto stays kept, and the dice of its chain are not. -/
theorem countP_isKept_compounded {R : Die → List Int64 → Prop} {dice : List Die}
    {chains : List (List Int64)} (h : List.Forall₂ R dice chains) :
    (List.zipWith (addedOnto c) dice chains ++
      chains.flatMap (List.map (Die.drawn sides .exploded))).countP Die.isKept =
      dice.countP Die.isKept := by
  have hold : (List.zipWith (addedOnto c) dice chains).countP Die.isKept =
      dice.countP Die.isKept := by
    induction h with
    | nil => rfl
    | cons _ _ ih =>
      rw [List.zipWith_cons_cons, List.countP_cons, List.countP_cons, isKept_addedOnto, ih]
  rw [List.countP_append, hold,
    List.countP_eq_zero.mpr (not_isKept_of_mem_absorbed sides chains), Nat.add_zero]

/-- What the faces that are drawn make of a pool. -/
theorem compounds_of_drawnFor {p : Pool} {chains : List (List Int64)}
    (h : List.Forall₂ (DrawnFor c (AddsOnto c limit)) p.dice chains) :
    p.Compounds c limit chains { p with
      dice := List.zipWith (addedOnto c) p.dice chains ++
        chains.flatMap (List.map (Die.drawn p.sides .exploded)) } where
  sides := rfl
  success := rfl
  length := h.length_eq.symm
  kept := countP_isKept_compounded h
  untouched _ _ _ hd hfaces hn := getElem?_of_not_meets addedOnto_of_not_meets h hd hfaces hn
  compounded i d faces hd hfaces hmeets := by
    obtain ⟨hget, hchain, hlength, total, htotal⟩ := getElem?_of_meets h hd hfaces hmeets
    refine ⟨total, htotal, hget.trans ?_, hchain, List.length_pos_iff.mpr hchain.ne_nil, hlength⟩
    rw [addedOnto_of_meets hmeets htotal]
  fresh := by
    rw [List.map_flatten, ← List.flatMap_def]
    exact List.drop_left' (by rw [List.length_zipWith, h.length_eq, Nat.min_self])

end Dice

/-! ## Runs -/

section Run

variable {σ : Type} [Source σ] {t t' : Tray σ} {c : Comparison} {limit : Nat} {p p' : Pool}

theorem compound_chaining (c : Comparison) (limit : Nat) (sides : Int64) :
    Chaining (σ := σ) c sides
      (fun d => do
        let (faces, total) ← growingChain c.accepts sides limit limit d.face
        pure ({ d with face := total, exploded := true }, faces.map (.drawn sides .exploded)))
      (AddsOnto c limit) (addedOnto c) (List.map (Die.drawn sides .exploded)) where
  unchanged := addedOnto_of_not_meets
  nothing := rfl
  drawn d r t t' hd := by
    rw [Tray.roll_bind_eq_ok_iff]
    constructor
    · rintro ⟨⟨faces, total⟩, t₁, hchain, hpure⟩
      obtain ⟨rfl, rfl⟩ := Tray.roll_pure_eq_ok_iff.mp hpure
      obtain ⟨hcomplete, hlength, hdraws, htotal⟩ := growingChain_eq_ok_iff.mp hchain
      exact ⟨faces, ⟨hcomplete, hlength, total, htotal⟩, hdraws,
        by rw [addedOnto_of_meets hd htotal]⟩
    · rintro ⟨faces, ⟨hcomplete, hlength, total, htotal⟩, hdraws, rfl⟩
      rw [addedOnto_of_meets hd htotal]
      exact ⟨(faces, total), t',
        growingChain_eq_ok_iff.mpr ⟨hcomplete, hlength, hdraws, htotal⟩, rfl⟩

/-- A compounding explosion succeeds if the source gives a complete chain for every die that meets
the condition, and the die can take it over. -/
theorem compound_eq_ok_iff : t.roll (p.compound c limit) = (.ok p', t') ↔
    ∃ chains, List.Forall₂ (DrawnFor c (AddsOnto c limit)) p.dice chains ∧
      t.Draws p.sides chains.flatten t' ∧ p' = { p with
        dice := List.zipWith (addedOnto c) p.dice chains ++
          chains.flatMap (List.map (Die.drawn p.sides .exploded)) } :=
  (compound_chaining c limit p.sides).extend_eq_ok_iff

/-- The first die whose chain fails is the one that the whole fails at. -/
theorem compound_eq_error_iff {e : EvalError} {Q : Die → List Int64 → Prop}
    (h : ∀ (d : Die) (t t' : Tray σ),
      t.roll (growingChain c.accepts p.sides limit limit d.face) = (.error e, t') ↔
        ∃ faces, Q d faces ∧ t.Draws p.sides faces t') :
    t.roll (p.compound c limit) = (.error e, t') ↔ p.ComesTo c (AddsOnto c limit) Q t t' := by
  refine (compound_chaining c limit p.sides).extend_eq_error_iff fun d t t' _ => ?_
  rw [Tray.roll_bind_eq_error_iff, ← h d t t']
  constructor
  · rintro (herror | ⟨r, t₁, -, hpure⟩)
    · exact herror
    · cases hpure
  · exact .inl

/-- A chain is too long if all the faces that there may be for a die meet the condition, and the die
could take them over. -/
theorem compound_eq_tooLong_iff :
    t.roll (p.compound c limit) = (.error (.chainTooLong limit), t') ↔
      p.ComesTo c (AddsOnto c limit) (fun d faces => faces.length = limit ∧
        (∀ face ∈ faces, c.accepts face = true) ∧
        d.face.toInt + (faces.map (·.toInt)).sum ≤ Int64.maxValue.toInt) t t' := by
  refine compound_eq_error_iff fun d t t' => growingChain_eq_tooLong_iff.trans ?_
  exact exists_congr fun faces => ⟨fun h => ⟨h.2, h.1⟩, fun h => ⟨h.2, h.1⟩⟩

/-- A die adds up to too much at the first face that it cannot take over any more. -/
theorem compound_eq_overflow_iff :
    t.roll (p.compound c limit) = (.error .overflow, t') ↔
      p.ComesTo c (AddsOnto c limit) (fun d faces => ∃ init last, faces = init ++ [last] ∧
        init.length < limit ∧ (∀ face ∈ init, c.accepts face = true) ∧
        d.face.toInt + (init.map (·.toInt)).sum ≤ Int64.maxValue.toInt ∧
        Int64.maxValue.toInt < d.face.toInt + (init.map (·.toInt)).sum + last.toInt) t t' := by
  refine compound_eq_error_iff fun d t t' => growingChain_eq_overflow_iff.trans ?_
  constructor
  · rintro ⟨init, last, hdraws, h⟩
    exact ⟨init ++ [last], ⟨init, last, rfl, h⟩, hdraws⟩
  · rintro ⟨faces, ⟨init, last, rfl, h⟩, hdraws⟩
    exact ⟨init, last, hdraws, h⟩

theorem compound_failsWith (c : Comparison) (limit : Nat) (p : Pool) :
    FailsWith (p.compound c limit : Rolling σ Pool)
      fun e => e = .chainTooLong limit ∨ e = .overflow :=
  (FailsWith.composes _).compound c (.inl rfl) (.inr rfl) (Nat.le_refl limit) p

theorem compound_failsOnly (c : Comparison) (limit : Nat) (p : Pool) :
    FailsOnly (p.compound c limit : Rolling σ Pool)
      fun e => e = .chainTooLong limit ∨ e = .overflow :=
  (compound_failsWith c limit p).failsOnly

/-- A compounding explosion that succeeds has added chains onto the dice that meet the condition, as
`Compounds` says. As long as the answers are in range, it fails just for a chain that is too long or
a sum that is too large: at the first die whose draws come to the one or the other, and for the one
that they come to first. A draw that brings both counts as too large a sum. -/
theorem compound_adds_on (config : Config) (condition : Option Comparison) (p : Pool)
    (t : Tray σ) :
    let c := condition.getD (.equalTo p.sides)
    let limit := config.maxChain
    let run := t.roll (p.modify config (.redraw .compound condition))
    (∀ p' t', run = (.ok p', t') →
      ∃ chains, t.Draws p.sides chains.flatten t' ∧ p.Compounds c limit chains p') ∧
    (∀ t', run = (.error (.chainTooLong limit), t') ↔
      p.ComesTo c (AddsOnto c limit) (fun d faces => faces.length = limit ∧
        (∀ face ∈ faces, c.accepts face = true) ∧
        d.face.toInt + (faces.map (·.toInt)).sum ≤ Int64.maxValue.toInt) t t') ∧
    (∀ t', run = (.error .overflow, t') ↔
      p.ComesTo c (AddsOnto c limit) (fun d faces => ∃ init last, faces = init ++ [last] ∧
        init.length < limit ∧ (∀ face ∈ init, c.accepts face = true) ∧
        d.face.toInt + (init.map (·.toInt)).sum ≤ Int64.maxValue.toInt ∧
        Int64.maxValue.toInt < d.face.toInt + (init.map (·.toInt)).sum + last.toInt) t t') ∧
    ∃ cs, t.Adds cs run.2 ∧ ((∀ call ∈ cs, call.InRange) →
      ∀ e, run.1 = .error e → e = .chainTooLong limit ∨ e = .overflow) := by
  intro c limit run
  refine ⟨fun p' t' h => ?_, fun t' => compound_eq_tooLong_iff, fun t' => compound_eq_overflow_iff,
    compound_failsOnly c limit p t⟩
  obtain ⟨chains, hall, hdraws, rfl⟩ := compound_eq_ok_iff.mp h
  exact ⟨chains, hdraws, compounds_of_drawnFor hall⟩

/-- A five takes over a six and a two, and is left at that although it meets the condition. Where
there may be one draw only, the six is one too many. A die of the largest face has no room for
another, and that is what is reported of it. -/
theorem compound_adds_on_five : ∃ (p p' q : Pool) (chains : List (List Int64))
    (t t' u v v' : Tray Script),
    p = ofFaces 6 [5, 1] ∧ t = Tray.ofSource (Script.ofList [6, 2]) ∧
    t.roll (p.modify ⟨9, 2, .truncate⟩ (.redraw .compound (some ⟨.ge, 5⟩))) = (.ok p', t') ∧
    p'.dice.map (fun d => (d.face, d.status, d.exploded)) = [(13, .kept, true), (1, .kept, false),
      (6, .exploded, false), (2, .exploded, false)] ∧
    t.Draws 6 chains.flatten t' ∧ p.Compounds ⟨.ge, 5⟩ 2 chains p' ∧
    p.ComesTo ⟨.ge, 5⟩ (AddsOnto ⟨.ge, 5⟩ 1) (fun d faces => faces.length = 1 ∧
      (∀ face ∈ faces, (⟨.ge, 5⟩ : Comparison).accepts face = true) ∧
      d.face.toInt + (faces.map (·.toInt)).sum ≤ Int64.maxValue.toInt) t u ∧
    q = ofFaces Int64.maxValue [Int64.maxValue] ∧
    v = Tray.ofSource (Script.ofList [Int64.maxValue]) ∧
    v.roll (q.modify ⟨9, 1, .truncate⟩ (.redraw .compound none)) = (.error .overflow, v') ∧
    ∀ e, (v.roll (q.modify ⟨9, 1, .truncate⟩ (.redraw .compound none))).1 = .error e →
      e = .chainTooLong 1 ∨ e = .overflow := by
  have hok : (Tray.ofSource (Script.ofList [6, 2])).roll
      ((ofFaces 6 [5, 1]).modify ⟨9, 2, .truncate⟩ (.redraw .compound (some ⟨.ge, 5⟩))) =
      (.ok ⟨6, [⟨13, 6, .kept, true⟩, .drawn 6 .kept 1, .drawn 6 .exploded 6,
          .drawn 6 .exploded 2], none⟩,
        ⟨⟨#[6, 2], 2⟩, #[⟨1, 6, 6⟩, ⟨1, 6, 2⟩]⟩) := by rfl
  have htooLong : (Tray.ofSource (Script.ofList [6, 2])).roll
      ((ofFaces 6 [5, 1]).modify ⟨9, 1, .truncate⟩ (.redraw .compound (some ⟨.ge, 5⟩))) =
      (.error (.chainTooLong 1), ⟨⟨#[6, 2], 1⟩, #[⟨1, 6, 6⟩]⟩) := by rfl
  obtain ⟨hcompounds, -⟩ := compound_adds_on (σ := Script) ⟨9, 2, .truncate⟩ (some ⟨.ge, 5⟩)
    (ofFaces 6 [5, 1]) (.ofSource (Script.ofList [6, 2]))
  obtain ⟨chains, hdraws, hchains⟩ := hcompounds _ _ hok
  obtain ⟨-, htoo, -⟩ := compound_adds_on (σ := Script) ⟨9, 1, .truncate⟩ (some ⟨.ge, 5⟩)
    (ofFaces 6 [5, 1]) (.ofSource (Script.ofList [6, 2]))
  have hoverflow : (Tray.ofSource (Script.ofList [Int64.maxValue])).roll
      ((ofFaces Int64.maxValue [Int64.maxValue]).modify ⟨9, 1, .truncate⟩
        (.redraw .compound none)) =
      (.error .overflow, ⟨⟨#[Int64.maxValue], 1⟩,
        #[⟨1, Int64.maxValue, Int64.maxValue⟩]⟩) := by rfl
  obtain ⟨-, -, -, cs, ⟨hcalls, -⟩, hin⟩ := compound_adds_on (σ := Script) ⟨9, 1, .truncate⟩ none
    (ofFaces Int64.maxValue [Int64.maxValue]) (.ofSource (Script.ofList [Int64.maxValue]))
  have hcs : cs = [⟨1, Int64.maxValue, Int64.maxValue⟩] := by
    rw [← List.nil_append cs]
    exact hcalls.symm.trans rfl
  exact ⟨_, _, _, chains, _, _, _, _, _, rfl, rfl, hok, rfl, hdraws, hchains,
    (htoo _).mp htooLong, rfl, rfl, hoverflow, hin (by simp [hcs, Call.InRange])⟩

end Run

end Tabletop.Pool
