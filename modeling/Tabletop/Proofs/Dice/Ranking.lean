import Mathlib.Data.Finset.Card
import Mathlib.Data.Finset.Range
import Mathlib.Data.Finset.SDiff
import Mathlib.Tactic.Tauto
import Tabletop.Dice.Pool

/-!
# The order of rank

Kept dice rank by their faces, from the highest or from the lowest one on, and dice with equal faces
in the order in which they have been drawn. A keep lets those that rank first stay, and a drop lets
them leave.

* `Selection.stays`, `Selection.leaves`: what a selection does to things in the order of rank.
* `Pool.Before highest x y`: the die `x` ranks before the die `y`, both with their places.
* `Pool.rankedDice_pairwise`, `Pool.eq_rankedDice`: the ranked dice are the kept dice in this order,
  and no other list has them in it.
* `Pool.rankedFaces_eq_reverse`: the faces from the lowest one on are those from the highest one on
  in reverse.
* `Pool.rankedDice_select`: the dice that stay rank as they did before.
-/

namespace Tabletop

/-! ## What stays and what leaves -/

namespace Selection

/-- The selection ranks the highest faces first. -/
def highest : Selection → Bool
  | keepHighest | dropHighest => true
  | keepLowest | dropLowest => false

/-- The selection keeps what ranks first; the others drop it. -/
def keeps : Selection → Bool
  | keepHighest | keepLowest => true
  | dropHighest | dropLowest => false

variable {α β : Type}

/-- What stays, of things in the order of rank. -/
def stays (s : Selection) (n : Nat) (xs : List α) : List α :=
  if s.keeps then xs.take n else xs.drop n

/-- What leaves, of things in the order of rank. -/
def leaves (s : Selection) (n : Nat) (xs : List α) : List α :=
  if s.keeps then xs.drop n else xs.take n

theorem stays_map (s : Selection) (n : Nat) (f : α → β) (xs : List α) :
    s.stays n (xs.map f) = (s.stays n xs).map f := by
  unfold stays
  split
  · exact (List.map_take ..).symm
  · exact (List.map_drop ..).symm

theorem leaves_map (s : Selection) (n : Nat) (f : α → β) (xs : List α) :
    s.leaves n (xs.map f) = (s.leaves n xs).map f := by
  unfold leaves
  split
  · exact (List.map_drop ..).symm
  · exact (List.map_take ..).symm

theorem stays_sublist (s : Selection) (n : Nat) (xs : List α) : (s.stays n xs).Sublist xs := by
  unfold stays
  split
  · exact List.take_sublist n xs
  · exact List.drop_sublist n xs

theorem leaves_sublist (s : Selection) (n : Nat) (xs : List α) : (s.leaves n xs).Sublist xs := by
  unfold leaves
  split
  · exact List.drop_sublist n xs
  · exact List.take_sublist n xs

/-- What stays is all that does not leave. -/
theorem mem_stays_iff (s : Selection) (n : Nat) {xs : List α} (hxs : xs.Nodup) {x : α} :
    x ∈ s.stays n xs ↔ x ∈ xs ∧ x ∉ s.leaves n xs := by
  have happend := List.take_append_drop n xs
  have hdisjoint := List.disjoint_take_drop hxs (Nat.le_refl n)
  have hmem : x ∈ xs ↔ x ∈ xs.take n ∨ x ∈ xs.drop n := by
    rw [← List.mem_append, happend]
  have hnot : x ∈ xs.take n → x ∉ xs.drop n := fun h h' => hdisjoint h h'
  unfold stays leaves
  split
  · rw [hmem]
    tauto
  · rw [hmem]
    tauto

/-- What leaves in two selections of one kind leaves in a single one. -/
theorem mem_leaves_combined (s : Selection) (m n : Nat) (xs : List α) (x : α) :
    x ∈ s.leaves m xs ∨ x ∈ s.leaves n (s.stays m xs) ↔
      x ∈ s.leaves (if s.keeps then min m n else m + n) xs := by
  unfold leaves stays
  split
  · rcases Nat.le_total m n with hmn | hnm
    · -- the second keep has nothing left to drop
      rw [Nat.min_eq_left hmn, List.drop_of_length_le (List.length_take_le m xs |>.trans hmn)]
      simp
    · have hdrop : (xs.take m).drop n ++ xs.drop m = xs.drop n := by
        calc (xs.take m).drop n ++ xs.drop m
          _ = (xs.drop n).take (m - n) ++ (xs.drop n).drop (m - n) := by
            rw [List.drop_take, List.drop_drop, Nat.add_sub_cancel' hnm]
          _ = xs.drop n := List.take_append_drop _ _
      rw [Nat.min_eq_right hnm, ← hdrop, List.mem_append, or_comm]
  · rw [List.take_add, List.mem_append]

end Selection

namespace Pool

/-! ## The order -/

/-- The face `x` ranks before the face `y`: it is higher, or lower where the lowest faces rank
first. -/
def Beats (highest : Bool) (x y : Int64) : Prop :=
  if highest then y < x else x < y

/-- A die ranks before another one: its face does, or the faces are equal and it has been drawn
earlier. -/
def Before (highest : Bool) (x y : Die × Nat) : Prop :=
  Beats highest x.1.face y.1.face ∨ x.1.face = y.1.face ∧ x.2 < y.2

/-- Of the dice at two places, the first one ranks before the second. -/
def RanksBefore (highest : Bool) (dice : List Die) (i j : Nat) : Prop :=
  ∃ d e, dice[i]? = some d ∧ dice[j]? = some e ∧ Before highest (d, i) (e, j)

/-- The rank of a face as a number, the first ranks being the least ones. -/
def rankKey (highest : Bool) (face : Int64) : Int :=
  if highest then -face.toInt else face.toInt

theorem beats_iff {highest : Bool} {x y : Int64} :
    Beats highest x y ↔ rankKey highest x < rankKey highest y := by
  cases highest <;> simp [Beats, rankKey, Int64.lt_iff_toInt_lt]

theorem rankKey_inj {highest : Bool} {x y : Int64} :
    rankKey highest x = rankKey highest y ↔ x = y := by
  cases highest <;> simp [rankKey, Int64.toInt_inj]

theorem rankKey_not (highest : Bool) (face : Int64) :
    rankKey (!highest) face = -rankKey highest face := by
  cases highest <;> simp [rankKey]

theorem before_iff {highest : Bool} {x y : Die × Nat} : Before highest x y ↔
    rankKey highest x.1.face < rankKey highest y.1.face ∨
      rankKey highest x.1.face = rankKey highest y.1.face ∧ x.2 < y.2 := by
  rw [Before, beats_iff, rankKey_inj]

theorem Before.asymm {highest : Bool} {x y : Die × Nat} (h : Before highest x y) :
    ¬Before highest y x := by
  rw [before_iff] at h ⊢
  omega

instance (highest : Bool) : Std.Irrefl (Before highest) :=
  ⟨fun _ h => h.asymm h⟩

/-! ## The ranked dice -/

/-- The face of the first die is at least as good as that of the second. -/
def leads (highest : Bool) (x y : Die × Nat) : Bool :=
  if highest then y.1.face ≤ x.1.face else x.1.face ≤ y.1.face

theorem leads_iff {highest : Bool} {x y : Die × Nat} :
    leads highest x y = true ↔ rankKey highest x.1.face ≤ rankKey highest y.1.face := by
  cases highest <;> simp [leads, rankKey, Int64.le_iff_toInt_le]

theorem leads_trans (highest : Bool) (x y z : Die × Nat) (hxy : leads highest x y = true)
    (hyz : leads highest y z = true) : leads highest x z = true := by
  rw [leads_iff] at *
  exact Int.le_trans hxy hyz

theorem leads_total (highest : Bool) (x y : Die × Nat) :
    (leads highest x y || leads highest y x) = true := by
  rw [Bool.or_eq_true, leads_iff, leads_iff]
  exact Int.le_total _ _

/-- The kept dice with their places, in the order of rank. -/
def rankedDice (highest : Bool) (dice : List Die) : List (Die × Nat) :=
  (dice.zipIdx.filter (·.1.isKept)).mergeSort (leads highest)

theorem ranked_eq (highest : Bool) (dice : List Die) :
    ranked highest dice = (rankedDice highest dice).map (·.2) := rfl

/-- The sort is stable: where the dice are in the order of their places, it puts them in the order
of rank. -/
theorem pairwise_mergeSort_leads (highest : Bool) {dice : List (Die × Nat)}
    (h : dice.Pairwise (·.2 < ·.2)) :
    (dice.mergeSort (leads highest)).Pairwise (Before highest) := by
  have htrans := leads_trans highest
  have htotal := leads_total highest
  induction dice with
  | nil => simp
  | cons x dice ih =>
    obtain ⟨hx, hdice⟩ := List.pairwise_cons.mp h
    -- the first die is put behind those that beat it, and in front of all others
    obtain ⟨front, back, hcons, hsort, hfront⟩ := List.mergeSort_cons htrans htotal x dice
    have hsorted := ih hdice
    have hleads := List.pairwise_mergeSort htrans htotal (x :: dice)
    rw [hcons, List.pairwise_append, List.pairwise_cons] at hleads
    rw [hsort, List.pairwise_append] at hsorted
    have hback : ∀ y ∈ back, Before highest x y := by
      intro y hy
      have hmem : y ∈ dice := List.mem_mergeSort.mp (hsort ▸ List.mem_append_right _ hy)
      have hface := leads_iff.mp (hleads.2.1.1 y hy)
      have hplace := hx y hmem
      rw [before_iff]
      omega
    have hbeats : ∀ y ∈ front, Before highest y x := by
      intro y hy
      have hnot : ¬leads highest x y = true := by simpa using hfront y hy
      rw [leads_iff, Int.not_le] at hnot
      exact .inl (beats_iff.mpr hnot)
    rw [hcons, List.pairwise_append, List.pairwise_cons]
    refine ⟨hsorted.1, ⟨hback, hsorted.2.1⟩, fun y hy z hz => ?_⟩
    rcases List.mem_cons.mp hz with rfl | hz
    · exact hbeats y hy
    · exact hsorted.2.2 y hy z hz

variable {highest : Bool} {dice : List Die}

theorem rankedDice_pairwise (highest : Bool) (dice : List Die) :
    (rankedDice highest dice).Pairwise (Before highest) := by
  apply pairwise_mergeSort_leads
  apply List.Pairwise.filter
  rw [← List.pairwise_map (f := Prod.snd), List.zipIdx_map_snd]
  exact List.pairwise_lt_range'

theorem mem_rankedDice {x : Die × Nat} :
    x ∈ rankedDice highest dice ↔ dice[x.2]? = some x.1 ∧ x.1.isKept = true := by
  rw [rankedDice, List.mem_mergeSort, List.mem_filter, List.mem_zipIdx_iff_getElem?]

/-- Dice in the order of rank are determined by which dice they are. -/
theorem eq_rankedDice {xs : List (Die × Nat)} (hxs : xs.Pairwise (Before highest))
    (hmem : ∀ x, x ∈ xs ↔ dice[x.2]? = some x.1 ∧ x.1.isKept = true) :
    xs = rankedDice highest dice := by
  have hranked := rankedDice_pairwise highest dice
  refine List.Perm.eq_of_pairwise (fun x y _ _ h h' => absurd h' h.asymm) hxs hranked ?_
  rw [List.perm_ext_iff_of_nodup hxs.nodup hranked.nodup]
  exact fun x => (hmem x).trans mem_rankedDice.symm

/-! ## The ranked places -/

theorem mem_ranked_iff {i : Nat} :
    i ∈ ranked highest dice ↔ ∃ d, dice[i]? = some d ∧ d.isKept = true := by
  rw [ranked_eq, List.mem_map]
  constructor
  · rintro ⟨x, hx, rfl⟩
    exact ⟨x.1, mem_rankedDice.mp hx⟩
  · rintro ⟨d, hd⟩
    exact ⟨(d, i), mem_rankedDice.mpr hd, rfl⟩

theorem ranked_pairwise (highest : Bool) (dice : List Die) :
    (ranked highest dice).Pairwise (RanksBefore highest dice) := by
  rw [ranked_eq, List.pairwise_map]
  refine (rankedDice_pairwise highest dice).imp_of_mem fun hx hy h => ?_
  exact ⟨_, _, (mem_rankedDice.mp hx).1, (mem_rankedDice.mp hy).1, h⟩

theorem ranked_nodup (highest : Bool) (dice : List Die) : (ranked highest dice).Nodup := by
  refine (ranked_pairwise highest dice).imp ?_
  rintro i j ⟨d, e, hd, he, h⟩ rfl
  cases hd.symm.trans he
  exact h.asymm h

/-- The places of the kept dice. -/
def keptPlaces (dice : List Die) : Finset Nat :=
  (Finset.range dice.length).filter fun i => dice[i]?.any Die.isKept = true

theorem mem_keptPlaces {i : Nat} :
    i ∈ keptPlaces dice ↔ ∃ d, dice[i]? = some d ∧ d.isKept = true := by
  rw [keptPlaces, Finset.mem_filter, Finset.mem_range, Option.any_eq_true]
  constructor
  · exact And.right
  · rintro ⟨d, hd, hkept⟩
    exact ⟨(List.getElem?_eq_some_iff.mp hd).1, d, hd, hkept⟩

/-- The ranking has the place of every kept die, and no other. -/
theorem toFinset_ranked (highest : Bool) (dice : List Die) :
    (ranked highest dice).toFinset = keptPlaces dice := by
  ext i
  rw [List.mem_toFinset, mem_ranked_iff, mem_keptPlaces]

/-! ## The ranked faces -/

/-- The faces of the kept dice, as drawn. -/
def keptFaces (dice : List Die) : List Int64 :=
  (dice.filter Die.isKept).map Die.face

/-- The faces of the kept dice, in the order of rank. -/
def rankedFaces (highest : Bool) (dice : List Die) : List Int64 :=
  (rankedDice highest dice).map (·.1.face)

theorem rankedFaces_perm (highest : Bool) (dice : List Die) :
    (rankedFaces highest dice).Perm (keptFaces dice) := by
  have hkept : (dice.zipIdx.filter (·.1.isKept)).map (·.1) = dice.filter Die.isKept := by
    rw [← List.zipIdx_map_fst 0 dice, List.filter_map, List.zipIdx_map_fst]
    rfl
  rw [keptFaces, ← hkept, List.map_map]
  exact (List.mergeSort_perm _ _).map _

/-- The lowest faces come last where the highest ones come first. -/
theorem rankedFaces_eq_reverse (highest : Bool) (dice : List Die) :
    rankedFaces (!highest) dice = (rankedFaces highest dice).reverse := by
  have hsorted (h : Bool) :
      (rankedFaces h dice).Pairwise fun x y => rankKey h x ≤ rankKey h y := by
    rw [rankedFaces, List.pairwise_map]
    refine (rankedDice_pairwise h dice).imp fun hxy => ?_
    rw [before_iff] at hxy
    omega
  have hreverse : (rankedFaces highest dice).reverse.Pairwise fun x y =>
      rankKey (!highest) x ≤ rankKey (!highest) y := by
    rw [List.pairwise_reverse]
    refine (hsorted highest).imp fun hxy => ?_
    rw [rankKey_not, rankKey_not]
    omega
  have hperm : (rankedFaces (!highest) dice).Perm (rankedFaces highest dice).reverse :=
    ((rankedFaces_perm _ dice).trans (rankedFaces_perm _ dice).symm).trans
      (List.reverse_perm _).symm
  refine List.Perm.eq_of_pairwise (fun x y _ _ hxy hyx => ?_) (hsorted _) hreverse hperm
  exact rankKey_inj.mp (Int.le_antisymm hxy hyx)

/-! ## The pool after a selection -/

theorem unselected_eq (s : Selection) (n : Nat) (dice : List Die) :
    unselected n dice s = s.leaves n (ranked s.highest dice) := by
  cases s <;> rfl

theorem getElem?_select (s : Selection) (n : Nat) (p : Pool) (i : Nat) :
    (p.select s n).dice[i]? =
      p.dice[i]?.map fun d => if i ∈ s.leaves n (ranked s.highest p.dice) then d.drop else d := by
  rw [select, getElem?_dropAt, unselected_eq]

/-- The dice that are kept behind a selection have been kept before and do not leave. -/
theorem getElem?_select_kept {s : Selection} {n : Nat} {p : Pool} {i : Nat} {d : Die} :
    (p.select s n).dice[i]? = some d ∧ d.isKept = true ↔
      (p.dice[i]? = some d ∧ d.isKept = true) ∧ i ∉ s.leaves n (ranked s.highest p.dice) := by
  have hdropped (e : Die) : ¬e.drop.isKept = true := by simp [Die.isKept, Die.drop]
  rw [getElem?_select, Option.map_eq_some_iff]
  by_cases hi : i ∈ s.leaves n (ranked s.highest p.dice)
  · simp only [hi, not_true_eq_false, and_false, iff_false]
    rintro ⟨⟨e, -, rfl⟩, hkept⟩
    exact hdropped e hkept
  · simp [hi]

/-- The dice that stay rank as they did before. -/
theorem rankedDice_select (s : Selection) (n : Nat) (p : Pool) :
    rankedDice s.highest (p.select s n).dice = s.stays n (rankedDice s.highest p.dice) := by
  have hpair := rankedDice_pairwise s.highest p.dice
  refine (eq_rankedDice (hpair.sublist (s.stays_sublist n _)) fun x => ?_).symm
  rw [getElem?_select_kept, s.mem_stays_iff n hpair.nodup, mem_rankedDice, ranked_eq,
    s.leaves_map, List.mem_map]
  refine and_congr_right fun hx => not_congr ⟨fun h => ⟨x, h, rfl⟩, ?_⟩
  rintro ⟨y, hy, hplace⟩
  -- there is one die at each place
  have hdie := (mem_rankedDice.mp ((s.leaves_sublist n _).subset hy)).1
  rw [hplace, hx.1] at hdie
  rwa [Prod.ext (Option.some.inj hdie) hplace.symm]

theorem ranked_select (s : Selection) (n : Nat) (p : Pool) :
    ranked s.highest (p.select s n).dice = s.stays n (ranked s.highest p.dice) := by
  rw [ranked_eq, rankedDice_select, ranked_eq, s.stays_map]

theorem keptFaces_select (s : Selection) (n : Nat) (p : Pool) :
    (keptFaces (p.select s n).dice).Perm (s.stays n (rankedFaces s.highest p.dice)) := by
  refine (rankedFaces_perm s.highest _).symm.trans ?_
  rw [rankedFaces, rankedDice_select, rankedFaces, s.stays_map]

theorem keptPlaces_select (s : Selection) (n : Nat) (p : Pool) :
    keptPlaces (p.select s n).dice = (s.stays n (ranked s.highest p.dice)).toFinset := by
  rw [← toFinset_ranked s.highest, ranked_select]

/-- The places that a selection makes dropped. -/
theorem keptPlaces_sdiff_select (s : Selection) (n : Nat) (p : Pool) :
    keptPlaces p.dice \ keptPlaces (p.select s n).dice =
      (s.leaves n (ranked s.highest p.dice)).toFinset := by
  ext i
  have hnodup := ranked_nodup s.highest p.dice
  have hleaves : i ∈ s.leaves n (ranked s.highest p.dice) → i ∈ ranked s.highest p.dice :=
    fun h => (s.leaves_sublist n _).subset h
  rw [Finset.mem_sdiff, keptPlaces_select, ← toFinset_ranked s.highest, List.mem_toFinset,
    List.mem_toFinset, List.mem_toFinset, s.mem_stays_iff n hnodup]
  tauto

end Pool

end Tabletop
