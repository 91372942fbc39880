import Tabletop.Proofs.Narrative.Gap

/-!
# Naming a group

Groups are for the reader: they change neither what is thrown nor what is counted, and a roll
succeeds with them just if it does without them. The sums of a group are checked by themselves, but
no symbol counts less than nothing, so they are in range if the whole sum is.

* `exists_roll_of_throws`: a roll succeeds if its counts, its dice and its sums allow it.
* `roll_of_items_eq`: a roll depends on its dice and symbols in reading order alone.
* `roll_fill_group`: terms in any place are rolled alike with a name and without.
-/

namespace Tabletop.Narrative

variable {σ : Type} [Source σ] {config : Config} {resolve : Resolver} {t t' : Tray σ}

/-- An answer that selects a face is in the range asked for. -/
theorem Selects.inRange {c : Call} {th : Throw} (h : Selects c th) : c.InRange := by
  obtain ⟨hlow, hhigh, hface⟩ := h
  rw [SymbolDie.face?] at hface
  split at hface
  · next hone =>
    have hlength := (List.getElem?_eq_some_iff.mp hface).1
    have hsides : th.die.sides.toInt = th.die.faces.length := by cases th.die <;> decide
    rw [Call.InRange, hlow, hhigh, Int64.le_iff_toInt_le, Int64.le_iff_toInt_le, hsides,
      Int64.toInt_one]
    omega
  · cases hface

theorem inRange_of_selects {cs : List Call} {throws : List Throw}
    (h : List.Forall₂ Selects cs throws) : ∀ c ∈ cs, c.InRange := by
  induction h with
  | nil => nofun
  | cons hselects _ ih => exact List.forall_mem_cons.mpr ⟨hselects.inRange, ih⟩

/-- Further throws show no negative number of a symbol. -/
theorem symbolTotal_le_of_isPrefix (resolve : Resolver) (items : List Item)
    {throws more : List Throw} (h : throws <+: more) (s : Symbol) :
    symbolTotal resolve items throws s ≤ symbolTotal resolve items more s := by
  obtain ⟨rest, rfl⟩ := h
  have := shownSymbols_nonneg rest s
  rw [symbolTotal, symbolTotal, shownSymbols_append]
  omega

/-- Terms are rolled without failure if their counts are natural and within the limit, the source
throws their dice, and every symbol is in range in the end. -/
theorem exists_roll_of_throws {terms : List Term} {o : Outcome} {spent : Nat} {throws : List Throw}
    (hcounts : ∀ i ∈ termsItems terms, i.count.IsNatural resolve)
    (hmax : spent + (thrownDice resolve (termsItems terms)).length ≤ config.maxDice)
    (hthrows : t.Throws throws t')
    (hdice : throws.map Throw.die = thrownDice resolve (termsItems terms))
    (ho : o.tally.IsNatural)
    (hfits : ∀ s, (o.tally.get s).toInt + symbolTotal resolve (termsItems terms) throws s ≤
      Int64.maxValue.toInt) :
    ∃ o' paid, t.roll (rollTerms config resolve o spent terms) = (.ok (o', paid), t') := by
  obtain ⟨cs, hcs, hselects⟩ := hthrows
  obtain ⟨ds, hds, hr⟩ := rollTerms_throwing terms hcounts ho hmax t
  have hcharging : Charging config resolve (termsItems terms) o spent
      (rollTerms config resolve o spent terms : Rolling σ (Outcome × Nat)) :=
    rollTerms_charging terms o spent
  obtain ⟨ds', hds', hr'⟩ := hcharging t
  obtain rfl := hds.unique hds'
  generalize t.roll (rollTerms config resolve o spent terms) = run at *
  obtain ⟨e | ⟨o', paid⟩, t₁⟩ := run
  · -- the calls that were made are the first of `cs`, so only a sum can have failed
    have hcalls : ds <+: cs := by
      refine hds.2.isPrefix_calls hcs.2 ?_
      rw [map_range_of_selects hselects, hdice]
      exact hr'.ranges
    obtain ⟨-, more, hmore, hdice', s, hs⟩ := hr fun c hc =>
      inRange_of_selects hselects c (hcalls.subset hc)
    have hle := symbolTotal_le_of_isPrefix resolve (termsItems terms)
      (isPrefix_throws hmore hselects hcalls (hdice ▸ hdice')) s
    have := hfits s
    omega
  · obtain ⟨more, hmore, -, hcharge⟩ := hr'
    have hthrown : t.Throws throws t' := ⟨cs, hcs, hselects⟩
    obtain ⟨-, rfl⟩ := hthrown.unique ⟨ds, hds, hmore⟩ (hdice.trans hcharge.dice.symm)
    exact ⟨o', paid, rfl⟩

/-- What is thrown and counted depends on the dice and symbols in reading order alone. -/
theorem roll_of_items_eq {terms terms' : List Term} (hitems : termsItems terms = termsItems terms')
    {o : Outcome} (h : t.roll (roll config resolve terms) = (.ok o, t')) :
    ∃ o', t.roll (roll config resolve terms') = (.ok o', t') ∧ o'.throws = o.throws ∧
      o'.tally = o.tally := by
  have hnatural : ∀ terms, (Outcome.start terms).tally.IsNatural := fun _ => Tally.isNatural_zero
  obtain ⟨⟨o, paid⟩, t₁, hrun, h⟩ := Tray.roll_bind_eq_ok_iff.mp h
  cases h
  obtain ⟨throws, hthrows, hcharge, hadds⟩ :=
    addsUp_of_rollTerms hrun (hnatural terms) (Nat.zero_le _)
  have hmax := hcharge.paid_eq ▸ hcharge.paid_le (Nat.zero_le _)
  rw [hitems] at hcharge hmax hadds
  obtain ⟨o', paid', hrun'⟩ : ∃ o' paid',
      t.roll (rollTerms config resolve (.start terms') 0 terms') = (.ok (o', paid'), t') :=
    exists_roll_of_throws hcharge.natural hmax hthrows hcharge.dice (hnatural terms') fun s =>
      hadds.tally s ▸ Int64.toInt_le _
  obtain ⟨throws', hthrows', hcharge', hadds'⟩ :=
    addsUp_of_rollTerms hrun' (hnatural terms') (Nat.zero_le _)
  obtain ⟨rfl, -⟩ := hthrows'.unique hthrows (hcharge'.dice.trans hcharge.dice.symm)
  refine ⟨o', Tray.roll_bind_of_ok hrun' _, ?_, ?_⟩
  · exact Array.toList_inj.mp (hadds'.throws_eq.trans hadds.throws_eq.symm)
  · exact Tally.ext_get fun s => Int64.toInt_inj.mp ((hadds'.tally s).trans (hadds.tally s).symm)

/-- In any place of a list of terms, a group is rolled just like its terms without the name: either
both rolls fail, or both succeed, after the same calls to the source, with the same throws and the
same tally. -/
theorem roll_fill_group (config : Config) (resolve : Resolver) (g : Gap) (name : String)
    (terms : List Term) (t t' : Tray σ) (throws : Array Throw) (tally : Tally) :
    (∃ o, t.roll (roll config resolve (g.fill terms)) = (.ok o, t') ∧
      o.throws = throws ∧ o.tally = tally) ↔
    ∃ o, t.roll (roll config resolve (g.fill [.group name terms])) = (.ok o, t') ∧
      o.throws = throws ∧ o.tally = tally := by
  have hitems : termsItems (g.fill terms) = termsItems (g.fill [.group name terms]) := by
    rw [Gap.termsItems_fill, Gap.termsItems_fill, termsItems, termsItems, Term.items,
      List.append_nil]
  constructor
  · rintro ⟨o, h, rfl, rfl⟩
    exact roll_of_items_eq hitems h
  · rintro ⟨o, h, rfl, rfl⟩
    exact roll_of_items_eq hitems.symm h

end Tabletop.Narrative
