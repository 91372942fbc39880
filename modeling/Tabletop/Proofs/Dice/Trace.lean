import Tabletop.Proofs.Dice.Record
import Tabletop.Proofs.Dice.Replay

/-!
# Rolls and their records

A roll is a sequence of dice terms, rolled one after the other on one tray; nothing else draws. So
the dice of its groups are the record of the calls to the source, and the faces can be rolled again.

* `TermRun`: a dice term as it is rolled, from one tray to another.
* `Expr.terms`: the dice terms of an expression, in the order of evaluation.
* `Expr.exists_runs_terms`: the groups of a roll are runs of the dice terms of the expression, each
  from the tray that the one before has left.
* `TermRun.recorded`: the dice of a run are its calls.
* `Expr.roll_recorded`: the dice of a roll are all calls to the source, in order, and a script of
  their faces gives the same roll.
-/

namespace Tabletop

variable {σ : Type} [Source σ] {config : Config}

/-- A dice term as it is rolled: what it is rolled for, the trays before and behind it, its group,
and the calls that were made for it. -/
structure TermRun (σ : Type) [Source σ] (config : Config) where
  modifiers : List Modifier
  count : Number
  sides : Number
  text : String
  start : Tray σ
  stop : Tray σ
  group : DiceGroup
  calls : List Call
  rolled : start.roll (Pool.roll config count sides modifiers >>= (Pool.group · text)) =
    (.ok group, stop)
  adds : start.Adds calls stop

namespace TermRun

/-- The run is made for the dice term `e`, right after its count and then its sides have come to the
numbers that the run is made with. -/
def Rolls (r : TermRun σ config) (resolve : Resolver) (e : Expr) : Prop :=
  ∃ (count sides : Expr) (t t₁ : Tray σ) (gs gs' : List DiceGroup),
    e = .dice count sides r.modifiers ∧ r.text = e.text ∧
      t.roll (count.eval config resolve) = (.ok (r.count, gs), t₁) ∧
      t₁.roll (sides.eval config resolve) = (.ok (r.sides, gs'), r.start)

/-- A compounding explosion of the dice term has added onto the die at place `i`. -/
def Compounded (r : TermRun σ config) (i : Nat) : Prop :=
  Pool.Compounded config r.start r.count r.sides r.modifiers i

/-- Each of the runs starts on the tray that the one before has left. -/
def Joined : Tray σ → List (TermRun σ config) → Tray σ → Prop
  | t, [], t' => t' = t
  | t, r :: rs, t' => r.start = t ∧ Joined r.stop rs t'

variable {t t₁ t' : Tray σ} {rs rs' : List (TermRun σ config)}

theorem Joined.append (h : Joined t rs t₁) (h' : Joined t₁ rs' t') : Joined t (rs ++ rs') t' := by
  induction rs generalizing t with
  | nil =>
    cases h
    exact h'
  | cons r rs ih => exact ⟨h.1, ih h.2⟩

/-- The calls of the runs are all calls that have been made. -/
theorem Joined.adds (h : Joined t rs t') : t.Adds (rs.flatMap calls) t' := by
  induction rs generalizing t with
  | nil => exact Tray.adds_nil_iff.mpr h
  | cons r rs ih =>
    obtain ⟨rfl, h⟩ := h
    exact Tray.adds_append_iff.mpr ⟨r.stop, r.adds, ih h⟩

/-- The dice of a run are its calls: each asked for a face of the die, and the die shows the answer,
unless it has been compounded onto. -/
theorem recorded (r : TermRun σ config) :
    1 ≤ r.group.sides ∧ r.group.dice.length = r.calls.length ∧
      ∀ i d c, r.group.dice[i]? = some d → r.calls[i]? = some c →
        c.low = 1 ∧ c.high = d.sides ∧ d.sides = r.group.sides ∧
          (¬r.Compounded i → d.face = c.value) := by
  obtain ⟨p, t₁, hp, hgroup⟩ := Tray.roll_bind_eq_ok_iff.mp r.rolled
  obtain ⟨hstop, v, -, hg⟩ := Pool.roll_group_eq_ok_iff.mp hgroup
  obtain ⟨hpos, cs, hcs, hrecords⟩ := Pool.records_of_roll hp
  have hcalls : r.calls = cs := r.adds.unique (hstop ▸ hcs)
  rw [hg, hcalls]
  exact ⟨hpos, hrecords.length, hrecords.entry⟩

/-- Without a compounding explosion no die is compounded onto. -/
theorem not_compounded {r : TermRun σ config} (h : ∀ c, .redraw .compound c ∉ r.modifiers)
    (i : Nat) : ¬r.Compounded i := by
  rintro ⟨earlier, m, later, p, t₁, d, hms, -, -, honto⟩
  have hm : m ∈ r.modifiers := by
    rw [hms]
    exact List.mem_append_right _ List.mem_cons_self
  cases m with
  | redraw m c =>
    cases m with
    | compound => exact h c hm
    | reroll | rerollOnce | explode => exact honto
  | select _ _ | countSuccesses _ => exact honto

/-- Without a compounding explosion the dice show the answers. -/
theorem faces {r : TermRun σ config} (h : ∀ c, .redraw .compound c ∉ r.modifiers) :
    r.group.dice.map Die.face = r.calls.map Call.value := by
  obtain ⟨-, hlength, hentry⟩ := r.recorded
  apply List.ext_getElem (by simpa using hlength)
  intro i hd hc
  rw [List.length_map] at hd hc
  obtain ⟨-, -, -, hface⟩ :=
    hentry i _ _ (List.getElem?_eq_getElem hd) (List.getElem?_eq_getElem hc)
  rw [List.getElem_map, List.getElem_map]
  exact hface (not_compounded h i)

end TermRun

namespace Expr

/-- The dice terms in the order of evaluation: those of the left operand before those of the right
one, and those of a count before those of the sides and before the dice term itself. -/
def terms : Expr → List Expr
  | literal _ | reference _ => []
  | dice count sides ms => count.terms ++ sides.terms ++ [dice count sides ms]
  | group e | unary _ e => e.terms
  | binary _ l r => l.terms ++ r.terms

/-- The modifiers of the dice terms, in the order of evaluation. -/
def chains : Expr → List (List Modifier)
  | literal _ | reference _ => []
  | dice count sides ms => count.chains ++ sides.chains ++ [ms]
  | group e | unary _ e => e.chains
  | binary _ l r => l.chains ++ r.chains

/-- The modifiers that follow a dice term. -/
def modifiers : Expr → List Modifier
  | dice _ _ ms => ms
  | _ => []

theorem map_modifiers_terms (e : Expr) : e.terms.map modifiers = e.chains := by
  induction e with
  | literal n => rfl
  | reference r => rfl
  | dice count sides ms ihc ihs => simp [terms, chains, modifiers, ihc, ihs]
  | group e ih => exact ih
  | unary op e ih => exact ih
  | binary op l r ihl ihr => simp [terms, chains, ihl, ihr]

variable {t t' : Tray σ} {resolve : Resolver} {e : Expr}

omit [Source σ] in
theorem roll_applyUnary {op : UnaryOp} {x y : Number}
    (h : t.roll (applyUnary op x) = (.ok y, t')) : t' = t := by
  cases op with
  | plus => exact (Tray.roll_pure_eq_ok_iff.mp h).2
  | minus => exact (Tray.roll_orOverflow_eq_ok_iff.mp h).2

omit [Source σ] in
theorem roll_applyBinary {division : Division} {op : BinaryOp} {x y z : Number}
    (h : t.roll (applyBinary division op x y) = (.ok z, t')) : t' = t := by
  cases op with
  | add => exact (Tray.roll_orOverflow_eq_ok_iff.mp h).2
  | sub => exact (Tray.roll_orOverflow_eq_ok_iff.mp h).2
  | mul => exact (Tray.roll_orOverflow_eq_ok_iff.mp h).2
  | div =>
    simp only [applyBinary] at h
    split at h
    · rw [Tray.roll_throw] at h
      cases h
    · exact (Tray.roll_orOverflow_eq_ok_iff.mp h).2

/-- The value of a dice term is that of a run, made behind its count and its sides. -/
theorem exists_run_of_dice {count sides : Expr} {ms : List Modifier} {x : Number}
    {groups : List DiceGroup}
    (h : t.roll ((dice count sides ms).eval config resolve) = (.ok (x, groups), t')) :
    ∃ (gs gs' : List DiceGroup) (t₁ : Tray σ) (r : TermRun σ config),
      r.modifiers = ms ∧ r.text = (dice count sides ms).text ∧
      t.roll (count.eval config resolve) = (.ok (r.count, gs), t₁) ∧
      t₁.roll (sides.eval config resolve) = (.ok (r.sides, gs'), r.start) ∧
      r.stop = t' ∧ x = .int r.group.value ∧ groups = gs ++ gs' ++ [r.group] := by
  obtain ⟨⟨n, gs⟩, t₁, hcount, hrest⟩ := Tray.roll_bind_eq_ok_iff.mp h
  obtain ⟨⟨s, gs'⟩, t₂, hsides, hterm⟩ := Tray.roll_bind_eq_ok_iff.mp hrest
  obtain ⟨p, t₃, hpool, htail⟩ := Tray.roll_bind_eq_ok_iff.mp hterm
  obtain ⟨g, t₄, hgroup, hpure⟩ := Tray.roll_bind_eq_ok_iff.mp htail
  obtain ⟨hx, rfl⟩ := Tray.roll_pure_eq_ok_iff.mp hpure
  cases hx
  obtain ⟨-, cs, hcs, -⟩ := Pool.records_of_roll hpool
  obtain ⟨hstop, -⟩ := Pool.roll_group_eq_ok_iff.mp hgroup
  let r : TermRun σ config :=
    { modifiers := ms, count := n, sides := s, text := (dice count sides ms).text
      start := t₂, stop := t', group := g, calls := cs
      rolled := Tray.roll_bind_eq_ok_iff.mpr ⟨p, t₃, hpool, hgroup⟩
      adds := hstop ▸ hcs }
  exact ⟨gs, gs', t₁, r, rfl, rfl, hcount, hsides, rfl, rfl, rfl⟩

/-- The groups of a value are runs of its dice terms, one after the other: each dice term is rolled
from the tray that the one before has left. -/
theorem exists_runs_terms {x : Number} {groups : List DiceGroup}
    (h : t.roll (e.eval config resolve) = (.ok (x, groups), t')) :
    ∃ runs : List (TermRun σ config), TermRun.Joined t runs t' ∧
      runs.map TermRun.group = groups ∧
      List.Forall₂ (fun r d => r.Rolls resolve d) runs e.terms := by
  induction e generalizing t t' x groups with
  | literal n =>
    obtain ⟨hx, rfl⟩ := Tray.roll_pure_eq_ok_iff.mp h
    cases hx
    exact ⟨[], rfl, rfl, .nil⟩
  | reference r =>
    unfold eval at h
    split at h
    · obtain ⟨hx, rfl⟩ := Tray.roll_pure_eq_ok_iff.mp h
      cases hx
      exact ⟨[], rfl, rfl, .nil⟩
    · rw [Tray.roll_throw] at h
      cases h
  | dice count sides ms ihc ihs =>
    obtain ⟨gs, gs', t₁, r, hms, htext, hcount, hsides, rfl, -, rfl⟩ := exists_run_of_dice h
    obtain ⟨rs, hrs, rfl, hterms⟩ := ihc hcount
    obtain ⟨rs', hrs', rfl, hterms'⟩ := ihs hsides
    have hr : TermRun.Joined r.start [r] r.stop := ⟨rfl, rfl⟩
    have hrolls : r.Rolls resolve (dice count sides ms) :=
      ⟨count, sides, t, t₁, _, _, by rw [hms], htext, hcount, hsides⟩
    exact ⟨rs ++ rs' ++ [r], (hrs.append hrs').append hr, by simp,
      List.rel_append (List.rel_append hterms hterms') (.cons hrolls .nil)⟩
  | group e ih => exact ih h
  | unary op e ih =>
    obtain ⟨⟨y, gs⟩, t₁, he, hrest⟩ := Tray.roll_bind_eq_ok_iff.mp h
    obtain ⟨z, t₂, hop, hpure⟩ := Tray.roll_bind_eq_ok_iff.mp hrest
    obtain rfl := roll_applyUnary hop
    obtain ⟨hx, rfl⟩ := Tray.roll_pure_eq_ok_iff.mp hpure
    cases hx
    exact ih he
  | binary op l r ihl ihr =>
    obtain ⟨⟨y, gs⟩, t₁, hl, hrest⟩ := Tray.roll_bind_eq_ok_iff.mp h
    obtain ⟨⟨z, gs'⟩, t₂, hr, hrest'⟩ := Tray.roll_bind_eq_ok_iff.mp hrest
    obtain ⟨v, t₃, hop, hpure⟩ := Tray.roll_bind_eq_ok_iff.mp hrest'
    obtain rfl := roll_applyBinary hop
    obtain ⟨hx, rfl⟩ := Tray.roll_pure_eq_ok_iff.mp hpure
    cases hx
    obtain ⟨rs, hrs, rfl, hterms⟩ := ihl hl
    obtain ⟨rs', hrs', rfl, hterms'⟩ := ihr hr
    exact ⟨rs ++ rs', hrs.append hrs', by simp, List.rel_append hterms hterms'⟩

theorem length_groups {x : Number} {groups : List DiceGroup}
    (h : t.roll (e.eval config resolve) = (.ok (x, groups), t')) :
    groups.length = e.terms.length := by
  obtain ⟨runs, -, rfl, hterms⟩ := exists_runs_terms h
  simpa using hterms.length_eq

/-- The groups of a value are runs with the modifiers of its dice terms. -/
theorem exists_runs {x : Number} {groups : List DiceGroup}
    (h : t.roll (e.eval config resolve) = (.ok (x, groups), t')) :
    ∃ runs : List (TermRun σ config), TermRun.Joined t runs t' ∧
      runs.map TermRun.group = groups ∧ runs.map TermRun.modifiers = e.chains := by
  obtain ⟨runs, hruns, hgroups, hterms⟩ := exists_runs_terms h
  refine ⟨runs, hruns, hgroups, ?_⟩
  have hmodifiers : List.Forall₂ (fun r d => r = d) (runs.map TermRun.modifiers)
      (e.terms.map modifiers) := by
    rw [List.forall₂_map_left_iff, List.forall₂_map_right_iff]
    refine hterms.imp ?_
    rintro r d ⟨count, sides, _, _, _, _, rfl, -⟩
    rfl
  rw [List.forall₂_eq_eq_eq] at hmodifiers
  rw [hmodifiers, map_modifiers_terms]

/-- The dice of a roll are the calls to its source, all of them and in order: each call has asked
for a face of the die, and the die shows the answer, unless a compounding explosion of its dice term
has added onto it. Without compounding explosions, a script of the faces gives the same roll and is
then used up. -/
theorem roll_recorded {source : σ} {result : RollResult}
    (h : (Tray.ofSource source).roll (e.roll config resolve) = (.ok result, t')) :
    Answers source t'.calls.toList t'.source ∧
    (∃ runs : List (TermRun σ config),
      TermRun.Joined (.ofSource source) runs t' ∧ runs.map TermRun.group = result.groups ∧
      runs.map TermRun.modifiers = e.chains ∧ t'.calls.toList = runs.flatMap TermRun.calls ∧
      ∀ r ∈ runs, 1 ≤ r.group.sides ∧ r.group.dice.length = r.calls.length ∧
        ∀ i d c, r.group.dice[i]? = some d → r.calls[i]? = some c →
          c.low = 1 ∧ c.high = d.sides ∧ d.sides = r.group.sides ∧
            (¬r.Compounded i → d.face = c.value)) ∧
    ((∀ ms ∈ e.chains, ∀ c, .redraw .compound c ∉ ms) →
      (Tray.ofSource (Script.ofList (result.dice.map Die.face))).roll (e.roll config resolve) =
        (.ok result,
          ⟨⟨(result.dice.map Die.face).toArray, result.dice.length⟩, t'.calls⟩)) := by
  obtain ⟨⟨total, groups⟩, t₁, heval, hpure⟩ := Tray.roll_bind_eq_ok_iff.mp h
  obtain ⟨rfl, rfl⟩ := Tray.roll_pure_eq_ok_iff.mp hpure
  obtain ⟨runs, hruns, hgroups, hchains⟩ := exists_runs heval
  have hadds := hruns.adds
  have hcalls : t'.calls.toList = runs.flatMap TermRun.calls := hadds.1
  refine ⟨hcalls ▸ hadds.2, ⟨runs, hruns, hgroups, hchains, hcalls, fun r _ => r.recorded⟩, ?_⟩
  intro hplain
  have hfaces : (RollResult.dice ⟨e.text, total, groups⟩).map Die.face =
      t'.calls.toList.map Call.value := by
    have hrun : ∀ r ∈ runs, r.group.dice.map Die.face = r.calls.map Call.value := fun r hr =>
      TermRun.faces (hplain _ (hchains ▸ List.mem_map_of_mem hr))
    simp only [RollResult.dice, ← hgroups, hcalls, List.flatMap_map, List.map_flatMap]
    exact List.flatMap_congr hrun
  have hlength : (RollResult.dice ⟨e.text, total, groups⟩).length = t'.calls.toList.length := by
    simpa using congrArg List.length hfaces
  have hrepeats : Repeats (e.roll config resolve : Rolling σ RollResult)
      (e.roll config resolve : Rolling Script RollResult) := .roll config resolve e
  obtain ⟨cs, hcs, hagain⟩ := hrepeats _ _ _ h
  have hall : t'.calls.toList = cs := hcs.1
  refine hagain _ _ ⟨hall, ?_⟩
  rw [hfaces, hlength, hall]
  exact Script.ofList_answers cs

/-- The dice in the count are rolled first, and the explosion last. -/
theorem roll_recorded_nested : ∃ e result t',
    e = dice (group (dice (literal 1) (literal 2) [])) (literal 6) [.redraw .explode none] ∧
      (Tray.ofSource (Script.ofList [2, 6, 3, 5, 1])).roll (e.roll default .empty) =
        (.ok result, t') ∧
      result.dice.map Die.face = [2, 6, 3, 5] ∧
      (Tray.ofSource (Script.ofList [2, 6, 3, 5])).roll (e.roll default .empty) =
        (.ok result, ⟨⟨#[2, 6, 3, 5], 4⟩, t'.calls⟩) := by
  have h : (Tray.ofSource (Script.ofList [2, 6, 3, 5, 1])).roll
      ((dice (group (dice (literal 1) (literal 2) [])) (literal 6)
        [.redraw .explode none]).roll default .empty) =
      (.ok ⟨"(1d2)d6!", .int 14, [⟨"1d2", 2, [.drawn 2 .kept 2], 2, false⟩,
          ⟨"(1d2)d6!", 6, [⟨6, 6, .kept, true⟩, .drawn 6 .kept 3, .drawn 6 .kept 5], 14, false⟩]⟩,
        ⟨⟨#[2, 6, 3, 5, 1], 4⟩, #[⟨1, 2, 2⟩, ⟨1, 6, 6⟩, ⟨1, 6, 3⟩, ⟨1, 6, 5⟩]⟩) := by rfl
  obtain ⟨-, -, hagain⟩ := roll_recorded h
  exact ⟨_, _, _, rfl, h, rfl, hagain (by simp [chains])⟩

end Expr

end Tabletop
