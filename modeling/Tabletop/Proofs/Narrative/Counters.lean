import Tabletop.Proofs.Narrative.Gap

/-!
# Counters that agree

What is counted in an outcome fits together. Successes are added with triumphs and failures with
despairs, and nothing negative is ever added, so the counters of a roll keep to what each single
face shows.

* `symbolTotal_le`: a symbol that counts as another is counted no more often than the other.
* `toInt_clamped_sub`: the difference of two natural counters is in range.
* `Outcome.lookup_faceCounts`, `Outcome.perm_facesOf`: the faces are counted as often as they were
  thrown, and the faces of the seven kinds of dice are all that were thrown.
* `Outcome.Consistent`: the counters, the net results and what is read off the throws agree.
* `roll_consistent`: they do in the outcome of a roll, and in those of its groups at any depth.
-/

namespace Tabletop.Narrative

/-! ## Symbols that count as others -/

/-- Whatever counts as the symbol `r` counts as `s` too. -/
def Symbol.Implies (r s : Symbol) : Prop :=
  ∀ x : Symbol, x.countsAs r = true → x.countsAs s = true

theorem Symbol.triumph_implies : Symbol.triumph.Implies .success := by
  intro x h
  cases x <;> first | rfl | cases h

theorem Symbol.despair_implies : Symbol.despair.Implies .failure := by
  intro x h
  cases x <;> first | rfl | cases h

section

variable {r s : Symbol} (h : r.Implies s)

include h

theorem Face.tally_le (f : Face) : (f.tally.get r).toInt ≤ (f.tally.get s).toInt := by
  rw [f.toInt_get_tally, f.toInt_get_tally]
  exact Int.ofNat_le.mpr (List.countP_mono_left fun x _ => h x)

theorem shownSymbols_le (throws : List Throw) : shownSymbols throws r ≤ shownSymbols throws s :=
  List.sum_le_sum fun th _ => th.face.tally_le h

theorem addedSymbols_le (resolve : Resolver) (items : List Item) :
    addedSymbols resolve items r ≤ addedSymbols resolve items s := by
  refine List.sum_le_sum fun i _ => ?_
  cases i with
  | dice count d => exact Int.le_refl 0
  | symbols count f => exact Int.mul_le_mul_of_nonneg_left (f.tally_le h) (Int.natCast_nonneg _)

/-- Dice and added symbols count no more of the one symbol than of the other. -/
theorem symbolTotal_le (resolve : Resolver) (items : List Item) (throws : List Throw) :
    symbolTotal resolve items throws r ≤ symbolTotal resolve items throws s :=
  Int.add_le_add (shownSymbols_le h throws) (addedSymbols_le h resolve items)

end

theorem symbolTotal_nonneg (resolve : Resolver) (items : List Item) (throws : List Throw)
    (s : Symbol) : 0 ≤ symbolTotal resolve items throws s :=
  Int.add_nonneg (shownSymbols_nonneg throws s) (addedSymbols_nonneg resolve items s)

/-- The difference of two natural counters is in range, and is not cut off. -/
theorem toInt_clamped_sub {m n : Int64} (hm : 0 ≤ m.toInt) (hn : 0 ≤ n.toInt) :
    (clamped (m.toInt - n.toInt)).toInt = m.toInt - n.toInt := by
  cases hchecked : checked (m.toInt - n.toInt) with
  | some x => rw [clamped_of_checked hchecked, checked_eq_some_iff.mp hchecked]
  | none =>
    have hmin : Int64.minValue.toInt = -Int64.maxValue.toInt - 1 := rfl
    have := m.toInt_le
    have := n.toInt_le
    rw [checked_eq_none_iff] at hchecked
    omega

/-! ## What is read off the throws -/

/-- Of the entries that are not zero, a key that occurs finds its own. -/
theorem List.lookup_filter_pos {α : Type} [DecidableEq α] (g : α → Nat) {keys : List α} {k : α}
    (h : k ∈ keys) : ((keys.map fun k => (k, g k)).filter (0 < ·.2)).lookup k =
      if g k = 0 then none else some (g k) := by
  induction keys with
  | nil => cases h
  | cons k' keys ih =>
    rw [List.map_cons, List.filter_cons]
    by_cases hk : k = k'
    · subst hk
      split
      · next hpos =>
        rw [decide_eq_true_iff] at hpos
        rw [List.lookup_cons_self, if_neg (Nat.ne_of_gt hpos)]
      · next hpos =>
        have hzero : g k = 0 := by simpa using hpos
        rw [if_pos hzero]
        refine List.lookup_eq_none_iff.mpr fun p hp => ?_
        obtain ⟨hp, hpos⟩ := List.mem_filter.mp hp
        obtain ⟨k', -, rfl⟩ := List.mem_map.mp hp
        rw [bne_iff_ne]
        rintro rfl
        simp [hzero] at hpos
    · have hrest := ih (List.mem_of_ne_of_mem hk h)
      split
      · rw [List.lookup_cons, beq_eq_false_iff_ne.mpr hk]
        exact hrest
      · exact hrest

namespace Outcome

variable (o : Outcome)

/-- How often a face was thrown. -/
def occurrences (f : Face) : Nat :=
  (o.throws.toList.map Throw.face).count f

theorem countP_throws (f : Face) : o.throws.countP (·.face == f) = o.occurrences f := by
  rw [← Array.countP_toList, occurrences, List.count_eq_countP, List.countP_map]
  rfl

/-- A face that was thrown is counted as often as it was, and no other is. -/
theorem lookup_faceCounts (f : Face) : o.faceCounts.lookup f =
    if o.occurrences f = 0 then none else some (o.occurrences f) := by
  have hmem : f ∈ Face.all := by cases f <;> decide
  simp only [faceCounts, countP_throws]
  exact List.lookup_filter_pos o.occurrences hmem

theorem faceCounts_sublist : (o.faceCounts.map Prod.fst).Sublist Face.all := by
  have hsub := (List.filter_sublist (p := fun x : Face × Nat => 0 < x.2)
    (l := Face.all.map fun f => (f, o.throws.countP (·.face == f)))).map Prod.fst
  rwa [List.map_map, show Prod.fst ∘ _ = (id : Face → Face) from rfl, List.map_id] at hsub

theorem map_mk_facesOf (d : SymbolDie) :
    (o.facesOf d).map (Throw.mk d) = o.throws.toList.filter (·.die == d) := by
  rw [facesOf, List.map_map]
  refine (List.map_congr_left fun th hth => ?_).trans (List.map_id _)
  rw [← beq_iff_eq.mp (List.mem_filter.mp hth).2]
  rfl

/-- The faces of dice of one kind stand in the order thrown. -/
theorem facesOf_sublist (d : SymbolDie) :
    ((o.facesOf d).map (Throw.mk d)).Sublist o.throws.toList := by
  rw [map_mk_facesOf]
  exact List.filter_sublist

/-- The faces of the dice of all kinds are the throws, each as often as it was made. -/
theorem perm_facesOf :
    (SymbolDie.all.flatMap fun d => (o.facesOf d).map (Throw.mk d)).Perm o.throws.toList := by
  rw [List.perm_iff_count]
  rintro ⟨d, f⟩
  have hcount : ∀ d', ((o.facesOf d').map (Throw.mk d')).count ⟨d, f⟩ =
      if d = d' then o.throws.toList.count ⟨d, f⟩ else 0 := by
    intro d'
    rw [map_mk_facesOf]
    by_cases hd : d = d'
    · subst hd
      rw [if_pos rfl, List.count_filter (by simp)]
    · rw [if_neg hd]
      refine List.count_eq_zero_of_not_mem fun hmem => hd ?_
      exact beq_iff_eq.mp (List.mem_filter.mp hmem).2
  rw [List.count_flatMap, Function.comp_def, funext hcount]
  cases d <;> simp [SymbolDie.all]

/-! ## Consistent outcomes -/

/-- The counters of the outcome, its net results and what is read off its throws agree. -/
structure Consistent (o : Outcome) : Prop where
  /-- No counter is negative. -/
  natural : o.tally.IsNatural
  triumph_le : o.tally.triumph.toInt ≤ o.tally.success.toInt
  despair_le : o.tally.despair.toInt ≤ o.tally.failure.toInt
  /-- The net results are exact. -/
  netSuccess : o.tally.netSuccess.toInt = o.tally.success.toInt - o.tally.failure.toInt
  netAdvantage : o.tally.netAdvantage.toInt = o.tally.advantage.toInt - o.tally.threat.toInt
  /-- A face that was thrown is counted as often as it was, and no other is. -/
  lookup_faceCounts : ∀ f, o.faceCounts.lookup f =
    if o.occurrences f = 0 then none else some (o.occurrences f)
  /-- The faces are counted once each, in their order. -/
  faceCounts_sublist : (o.faceCounts.map Prod.fst).Sublist Face.all
  /-- The faces of dice of one kind stand in the order thrown. -/
  facesOf_sublist : ∀ d, ((o.facesOf d).map (Throw.mk d)).Sublist o.throws.toList
  /-- Each throw is one of the faces of just one kind of dice. -/
  perm_facesOf :
    (SymbolDie.all.flatMap fun d => (o.facesOf d).map (Throw.mk d)).Perm o.throws.toList

/-- The one outcome is the other, or that of a group in it at any depth. -/
inductive Within (r : Outcome) : Outcome → Prop
  | refl : Within r r
  | group {o inner : Outcome} {name : String} (hmem : (name, inner) ∈ o.groups)
    (h : Within r inner) : Within r o

variable {o} {resolve : Resolver} {terms : List Term} {throws : List Throw} {r : Outcome}

theorem Exact.consistent (h : o.Exact resolve terms throws) : o.Consistent := by
  obtain ⟨-, -, htally, -, -⟩ := h
  have hnatural : o.tally.IsNatural := fun s => htally s ▸ symbolTotal_nonneg resolve _ throws s
  have hle : ∀ {r s : Symbol}, r.Implies s → (o.tally.get r).toInt ≤ (o.tally.get s).toInt := by
    intro r s hrs
    rw [htally, htally]
    exact Narrative.symbolTotal_le hrs resolve _ throws
  exact {
    natural := hnatural
    triumph_le := hle Symbol.triumph_implies
    despair_le := hle Symbol.despair_implies
    netSuccess := toInt_clamped_sub (hnatural .success) (hnatural .failure)
    netAdvantage := toInt_clamped_sub (hnatural .advantage) (hnatural .threat)
    lookup_faceCounts := o.lookup_faceCounts
    faceCounts_sublist := o.faceCounts_sublist
    facesOf_sublist := o.facesOf_sublist
    perm_facesOf := o.perm_facesOf }

/-- Whatever is within an exact outcome is exact for its terms. -/
theorem Within.exists_exact (hr : r.Within o) (h : o.Exact resolve terms throws) :
    ∃ terms throws, r.Exact resolve terms throws := by
  induction hr generalizing terms throws with
  | refl => exact ⟨terms, throws, h⟩
  | group hmem _ ih =>
    obtain ⟨-, -, -, -, hgroups⟩ := h
    obtain ⟨-, hinner⟩ := hgroups _ hmem
    exact ih hinner

end Outcome

/-! ## Rolls -/

section

variable {σ : Type} [Source σ] {config : Config} {resolve : Resolver} {terms : List Term}
  {t t' : Tray σ} {o r : Outcome}

theorem exact_of_roll (h : t.roll (roll config resolve terms) = (.ok o, t')) :
    ∃ throws, o.Exact resolve terms throws := by
  obtain ⟨⟨o₁, paid⟩, t₁, hterms, h⟩ := Tray.roll_bind_eq_ok_iff.mp h
  cases h
  have hnatural : (Outcome.start terms).tally.IsNatural := Tally.isNatural_zero
  obtain ⟨throws, -, -, hadds⟩ := addsUp_of_rollTerms hterms hnatural (Nat.zero_le _)
  exact ⟨throws, hadds.exact⟩

/-- In the outcome of a roll, and in that of every group in it at any depth, no counter is negative,
the triumphs are among the successes and the despairs among the failures, the net results are exact,
the faces are counted as often as they were thrown, and the faces of the seven kinds of dice are the
throws, in order. -/
theorem roll_consistent (h : t.roll (roll config resolve terms) = (.ok o, t'))
    (hr : r.Within o) : r.Consistent := by
  obtain ⟨throws, hexact⟩ := exact_of_roll h
  obtain ⟨_, _, hinner⟩ := hr.exists_exact hexact
  exact hinner.consistent

/-- A group in a group has more failures than successes, and the symbols added outside of it make up
for them. -/
theorem roll_consistent_nested :
    let terms : List Term := [.symbols (.literal 4) .triumph,
      .group "a" [.dice (.literal 1) .boost, .group "b" [.dice (.literal 2) .challenge]]]
    ∃ (o r : Outcome) (t' : Tray Script),
      (Tray.ofSource (Script.ofList [4, 12, 5])).roll (roll default .empty terms) = (.ok o, t') ∧
      r.Within o ∧ r.throws.toList = [⟨.challenge, .despair⟩, ⟨.challenge, .failureFailure⟩] ∧
      r.tally.netSuccess = -3 ∧ o.tally.netSuccess = 2 ∧ r.Consistent ∧ o.Consistent := by
  obtain ⟨o, r, t', hroll, hr, hthrows, hnet, hnet'⟩ : ∃ (o r : Outcome) (t' : Tray Script),
      (Tray.ofSource (Script.ofList [4, 12, 5])).roll (roll default .empty
        [.symbols (.literal 4) .triumph,
          .group "a" [.dice (.literal 1) .boost, .group "b" [.dice (.literal 2) .challenge]]]) =
        (.ok o, t') ∧ r.Within o ∧
      r.throws.toList = [⟨.challenge, .despair⟩, ⟨.challenge, .failureFailure⟩] ∧
      r.tally.netSuccess = -3 ∧ o.tally.netSuccess = 2 :=
    ⟨_, _, _, rfl, .group (.tail _ (.head _)) .refl, rfl, rfl, rfl⟩
  exact ⟨o, r, t', hroll, hr, hthrows, hnet, hnet', roll_consistent hroll hr,
    roll_consistent hroll .refl⟩

end

end Tabletop.Narrative
