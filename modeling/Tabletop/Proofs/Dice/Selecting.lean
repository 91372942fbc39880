import Mathlib
import Tabletop.Proofs.Dice.Conservation

/-!
# Keeping and dropping

A keep drops all dice but those that rank first, and a drop just those that do. The two are
compared with each other, and with themselves one after the other.

* `Pool.Selected s n p p'`: `p'` is `p` with the right dice dropped, and all else as it was.
* `Pool.selects_by_rank`: what every keep and every drop does.
* `Pool.keep_worth_drop`: keeping the highest dice leaves the same faces as dropping the lowest of
  the others.
* `Pool.selections_compose`: two keeps or two drops of one kind are one.
-/

namespace Tabletop.Pool

/-! ## The right dice -/

/-- `p'` is `p` behind a selection of `n` dice. -/
structure Selected (s : Selection) (n : Nat) (p p' : Pool) : Prop where
  sides : p'.sides = p.sides
  success : p'.success = p.success
  /-- Each die is in its place. If it was kept and is no longer, it is dropped and otherwise as it
  was, and all others are just as they were. -/
  dice : ∀ i : Nat, p'.dice[i]? = p.dice[i]?.map fun d =>
    if i ∈ keptPlaces p.dice \ keptPlaces p'.dice then { d with status := .dropped } else d
  /-- A keep leaves `n` dice kept if there are so many, and they rank before those it drops. -/
  keep : s.keeps = true →
    (keptPlaces p'.dice).card = min n (keptPlaces p.dice).card ∧
    ∀ i ∈ keptPlaces p'.dice, ∀ j ∈ keptPlaces p.dice \ keptPlaces p'.dice,
      RanksBefore s.highest p.dice i j
  /-- A drop takes `n` dice out if there are so many, and they rank before those it leaves kept. -/
  drop : s.keeps = false →
    (keptPlaces p.dice \ keptPlaces p'.dice).card = min n (keptPlaces p.dice).card ∧
    ∀ i ∈ keptPlaces p.dice \ keptPlaces p'.dice, ∀ j ∈ keptPlaces p'.dice,
      RanksBefore s.highest p.dice i j

/-- The first `n` places of a ranking, or all if there are fewer. -/
theorem card_take_ranked (highest : Bool) (n : Nat) (dice : List Die) :
    ((ranked highest dice).take n).toFinset.card = min n (keptPlaces dice).card := by
  have hnodup := ranked_nodup highest dice
  rw [← toFinset_ranked highest, List.toFinset_card_of_nodup hnodup,
    List.toFinset_card_of_nodup (hnodup.sublist (List.take_sublist _ _)), List.length_take]

theorem selected_select (s : Selection) (n : Nat) (p : Pool) : p.Selected s n (p.select s n) := by
  have hsplit : ∀ i ∈ ((ranked s.highest p.dice).take n).toFinset,
      ∀ j ∈ ((ranked s.highest p.dice).drop n).toFinset, RanksBefore s.highest p.dice i j := by
    intro i hi j hj
    rw [List.mem_toFinset] at hi hj
    exact (ranked_pairwise s.highest p.dice).rel_of_mem_take_of_mem_drop hi hj
  constructor
  · rfl
  · rfl
  · intro i
    rw [getElem?_select, keptPlaces_sdiff_select]
    simp only [List.mem_toFinset, Die.drop]
  · intro hkeeps
    rw [keptPlaces_sdiff_select, keptPlaces_select, Selection.stays, Selection.leaves,
      if_pos hkeeps, if_pos hkeeps]
    exact ⟨card_take_ranked s.highest n p.dice, hsplit⟩
  · intro hkeeps
    rw [keptPlaces_sdiff_select, keptPlaces_select, Selection.stays, Selection.leaves, hkeeps]
    exact ⟨card_take_ranked s.highest n p.dice, hsplit⟩

/-- Every keep and every drop takes just the right dice out, and changes nothing else. It never
fails, and draws nothing. -/
theorem selects_by_rank {σ : Type} [Source σ] (config : Config) (s : Selection) (n : UInt64)
    (p : Pool) (t : Tray σ) : ∃ p', t.roll (p.modify config (.select s n)) = (.ok p', t) ∧
      p.Selected s n.toNat p' :=
  ⟨p.select s n.toNat, rfl, selected_select s n.toNat p⟩

/-! ## The faces that stay -/

/-- Where each face counts from one, the value depends on the faces that are kept, and not on their
order. -/
theorem value?_congr {p q : Pool} (hp : ∀ d ∈ p.dice, 1 ≤ d.face.toInt)
    (hq : ∀ d ∈ q.dice, 1 ≤ d.face.toInt) (hsuccess : p.success = q.success)
    (h : (keptFaces p.dice).Perm (keptFaces q.dice)) : p.value? = q.value? := by
  cases hs : p.success with
  | none =>
    have hsum : keptSum p.dice = keptSum q.dice := by
      have hfaces := (h.map (·.toInt)).sum_eq
      rwa [keptFaces, keptFaces, List.map_map, List.map_map] at hfaces
    rw [value?_of_success_eq_none hs hp, value?_of_success_eq_none (hsuccess ▸ hs) hq, hsum]
  | some c =>
    have hcount (dice : List Die) :
        dice.countP (Die.meets c) = (keptFaces dice).countP c.accepts := by
      rw [keptFaces, List.countP_map, List.countP_filter]
      exact List.countP_congr fun d _ => by simp [Die.meets, and_comm]
    rw [value?, value?, ← hsuccess, hs]
    simp only [hcount, h.countP_eq]

/-- What ranks first from the one end ranks last from the other. -/
theorem keptFaces_select_perm {s s' : Selection} (hs : s.keeps = true) (hs' : s'.keeps = false)
    (hhighest : s'.highest = !s.highest) {p : Pool} {n : Nat}
    (hn : n ≤ p.dice.countP Die.isKept) :
    (keptFaces (p.select s n).dice).Perm
      (keptFaces (p.select s' (p.dice.countP Die.isKept - n)).dice) := by
  have hlength : (rankedFaces s.highest p.dice).length = p.dice.countP Die.isKept := by
    rw [(rankedFaces_perm _ _).length_eq, keptFaces, List.length_map, List.countP_eq_length_filter]
  have hdropped : s'.stays (p.dice.countP Die.isKept - n) (rankedFaces s'.highest p.dice) =
      (s.stays n (rankedFaces s.highest p.dice)).reverse := by
    rw [Selection.stays, Selection.stays, if_pos hs, if_neg (by simp [hs']), hhighest,
      rankedFaces_eq_reverse, List.drop_reverse, hlength, Nat.sub_sub_self hn]
  refine (keptFaces_select s n p).trans (.trans ?_ (keptFaces_select s' _ p).symm)
  rw [hdropped]
  exact (List.reverse_perm _).symm

/-- Of two dice with the same face the one drawn first ranks first, from either end. -/
theorem select_tied (s : Selection) : ((ofFaces 6 [5, 5]).select s 1).dice =
    if s.keeps then [.drawn 6 .kept 5, .drawn 6 .dropped 5]
    else [.drawn 6 .dropped 5, .drawn 6 .kept 5] := by
  cases s <;> cbv

/-- Keeping `n` dice from the one end and dropping all but `n` from the other leave the same faces,
and so the same value, whether the term counts dice or adds up faces that count from one, as they
do in every pool that is rolled. Of dice with equal faces they may keep different ones. -/
theorem keep_worth_drop {σ : Type} [Source σ] :
    (∀ s s' : Selection,
      (s, s') ∈ [(Selection.keepHighest, Selection.dropLowest), (.keepLowest, .dropHighest)] →
      (∀ (p : Pool) (n : Nat), (∀ d ∈ p.dice, 1 ≤ d.face) → n ≤ p.dice.countP Die.isKept →
        (keptFaces (p.select s n).dice).Perm
            (keptFaces (p.select s' (p.dice.countP Die.isKept - n)).dice) ∧
          (p.select s n).value? = (p.select s' (p.dice.countP Die.isKept - n)).value?) ∧
      ∃ (p : Pool) (n : Nat), (∀ d ∈ p.dice, 1 ≤ d.face) ∧ n ≤ p.dice.countP Die.isKept ∧
        (p.select s n).dice ≠ (p.select s' (p.dice.countP Die.isKept - n)).dice) ∧
    ∀ (config : Config) (count sides : Number) (ms : List Modifier) (t t' : Tray σ) (p : Pool),
      t.roll (Pool.roll config count sides ms) = (.ok p, t') → ∀ d ∈ p.dice, 1 ≤ d.face := by
  constructor
  · intro s s' hpair
    obtain ⟨hs, hs', hhighest⟩ : s.keeps = true ∧ s'.keeps = false ∧ s'.highest = !s.highest := by
      simp only [List.mem_cons, Prod.mk.injEq, List.not_mem_nil, or_false] at hpair
      rcases hpair with ⟨rfl, rfl⟩ | ⟨rfl, rfl⟩ <;> exact ⟨rfl, rfl, rfl⟩
    constructor
    · intro p n hone hn
      have hone : ∀ d ∈ p.dice, 1 ≤ d.face.toInt :=
        fun d hd => Int64.le_iff_toInt_le.mp (hone d hd)
      have hperm := keptFaces_select_perm hs hs' hhighest hn
      exact ⟨hperm, value?_congr (one_le_of_mem_select hone) (one_le_of_mem_select hone) rfl hperm⟩
    · refine ⟨ofFaces 6 [5, 5], 1, by decide, by decide, ?_⟩
      rw [show (ofFaces 6 [5, 5]).dice.countP Die.isKept - 1 = 1 from rfl, select_tied,
        select_tied, hs, hs']
      decide
  · intro config count sides ms t t' p h
    obtain ⟨-, -, -, -, -, -, -, -, -, -, hone, -⟩ := steps_of_roll h
    exact fun d hd => Int64.le_iff_toInt_le.mpr (hone d hd)

/-- Of the faces 2, 5, 5, 1, 6 the two highest stay, or three are dropped from the lowest one on: a
five and the six are kept, but not the same five. -/
theorem keep_worth_drop_tied : ∃ p q q' : Pool, p = ofFaces 6 [2, 5, 5, 1, 6] ∧
    q = p.select .keepHighest 2 ∧ q' = p.select .dropLowest 3 ∧
    (∀ d ∈ p.dice, 1 ≤ d.face) ∧ 2 ≤ p.dice.countP Die.isKept ∧
    keptPlaces q.dice = {1, 4} ∧ keptPlaces q'.dice = {2, 4} ∧
    (keptFaces q.dice).Perm (keptFaces q'.dice) ∧ q.value? = q'.value? := by
  have hone : ∀ d ∈ (ofFaces 6 [2, 5, 5, 1, 6]).dice, 1 ≤ d.face := by decide
  obtain ⟨hfaces, -⟩ := (keep_worth_drop (σ := Script)).1 .keepHighest .dropLowest (by simp)
  obtain ⟨hperm, hvalue⟩ := hfaces (ofFaces 6 [2, 5, 5, 1, 6]) 2 hone (by decide)
  have hkeep : ranked true (ofFaces 6 [2, 5, 5, 1, 6]).dice = [4, 1, 2, 0, 3] := by cbv
  have hdrop : ranked false (ofFaces 6 [2, 5, 5, 1, 6]).dice = [3, 0, 1, 2, 4] := by cbv
  refine ⟨_, _, _, rfl, rfl, rfl, hone, by decide, ?_, ?_, hperm, hvalue⟩
  · rw [keptPlaces_select, Selection.highest, hkeep]
    decide
  · rw [keptPlaces_select, Selection.highest, hdrop]
    decide

/-! ## Two selections of one kind -/

/-- Two keeps of one kind are the one of them that keeps fewer dice, and two drops of one kind are
one drop of all their dice. -/
theorem select_select (s : Selection) (m n : Nat) (p : Pool) :
    (p.select s m).select s n = p.select s (if s.keeps then min m n else m + n) := by
  have hdice : ((p.select s m).select s n).dice =
      (p.select s (if s.keeps then min m n else m + n)).dice := by
    apply List.ext_getElem?
    intro i
    rw [getElem?_select, getElem?_select, getElem?_select, ranked_select, Option.map_map]
    have hleaves := s.mem_leaves_combined m n (ranked s.highest p.dice) i
    congr 1
    funext d
    rw [Function.comp_apply]
    by_cases hm : i ∈ s.leaves m (ranked s.highest p.dice)
    · -- a die that is dropped twice is dropped
      rw [if_pos hm, if_pos (hleaves.mp (.inl hm))]
      split <;> rfl
    · rw [if_neg hm]
      exact if_congr ((or_iff_right hm).symm.trans hleaves) rfl rfl
  exact congrArg (fun dice => { p with dice }) hdice

section Run

variable {σ : Type} [Source σ] (config : Config)

theorem modify_select (s : Selection) (n : UInt64) (p : Pool) :
    p.modify config (.select s n) = (pure (p.select s n.toNat) : Rolling σ Pool) := rfl

theorem foldlM_select (s : Selection) (m n : UInt64) (p : Pool) :
    [Modifier.select s m, .select s n].foldlM (modify config) p =
      (pure (p.select s (if s.keeps then min m.toNat n.toNat else m.toNat + n.toNat)) :
        Rolling σ Pool) := by
  rw [← select_select]
  rfl

/-- Two keeps of one kind keep as many dice as the one of them that keeps fewer, and two drops of
one kind drop as many as both together. So a keep that is repeated changes nothing more, and two
keeps or two drops of one kind can be put in either order. -/
theorem selections_compose (p : Pool) :
    (∀ s : Selection, s.keeps = true → ∀ m n : UInt64,
      ([.select s m, .select s n].foldlM (modify config) p : Rolling σ Pool) =
        p.modify config (.select s (min m n))) ∧
    (∀ s : Selection, s.keeps = false → ∀ m n : UInt64, m.toNat + n.toNat < 2 ^ 64 →
      ([.select s m, .select s n].foldlM (modify config) p : Rolling σ Pool) =
        p.modify config (.select s (m + n))) ∧
    (∀ s : Selection, s.keeps = true → ∀ n : UInt64,
      ([.select s n, .select s n].foldlM (modify config) p : Rolling σ Pool) =
        p.modify config (.select s n)) ∧
    ∀ (s : Selection) (m n : UInt64),
      ([.select s m, .select s n].foldlM (modify config) p : Rolling σ Pool) =
        [.select s n, .select s m].foldlM (modify config) p := by
  refine ⟨fun s hs m n => ?_, fun s hs m n hlt => ?_, fun s hs n => ?_, fun s m n => ?_⟩
  · rw [foldlM_select, modify_select, if_pos hs, UInt64.toNat_min]
  · rw [foldlM_select, modify_select, if_neg (by simp [hs]), UInt64.toNat_add,
      Nat.mod_eq_of_lt hlt]
  · rw [foldlM_select, modify_select, if_pos hs, Nat.min_self]
  · rw [foldlM_select, foldlM_select, Nat.min_comm, Nat.add_comm]

end Run

/-- Of the faces 2, 5, 5, 1, 6 the three highest and then the two highest, and the lowest one and
then two more. -/
theorem selections_compose_tied : ∃ p : Pool, p = ofFaces 6 [2, 5, 5, 1, 6] ∧
    Selection.keepHighest.keeps = true ∧
    ([.select .keepHighest 3, .select .keepHighest 2].foldlM (modify default) p :
      Rolling Script Pool) = p.modify default (.select .keepHighest 2) ∧
    Selection.dropLowest.keeps = false ∧ (1 : UInt64).toNat + (2 : UInt64).toNat < 2 ^ 64 ∧
    ([.select .dropLowest 1, .select .dropLowest 2].foldlM (modify default) p :
      Rolling Script Pool) = p.modify default (.select .dropLowest 3) := by
  obtain ⟨hkeeps, hdrops, -⟩ := selections_compose (σ := Script) default (ofFaces 6 [2, 5, 5, 1, 6])
  exact ⟨_, rfl, rfl, hkeeps .keepHighest rfl 3 2, rfl, by decide,
    hdrops .dropLowest rfl 1 2 (by decide)⟩

end Tabletop.Pool
