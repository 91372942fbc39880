import Tabletop.Proofs.Narrative.Counting

/-!
# What a narrative roll is charged for

The dice of a term are charged for before the first of them is thrown, so the limit on dice is a
limit on calls to the source. `Throwing` speaks of counts that are natural and of answers in range;
what is said here holds of every roll.

* `Tray.Throws t throws t'`: the dice are thrown one after the other, each by one call.
* `Charge`: what terms that are rolled throw, and what has been charged for then.
* `Charging x`: the calls of `x` are for the dice of some items, in order, and within the limit.
* `rollTerms_charging`: terms are charged for in reading order, groups in place.
-/

namespace Tabletop

variable {σ : Type} [Source σ]

/-! ## Throws -/

/-- From `t` to `t'` the dice are thrown one after the other, each by one call. -/
def Tray.Throws (t : Tray σ) (throws : List Narrative.Throw) (t' : Tray σ) : Prop :=
  ∃ cs, t.Adds cs t' ∧ List.Forall₂ Narrative.Selects cs throws

namespace Narrative

/-- The range that a throw of the die asks for. -/
def SymbolDie.range (d : SymbolDie) : Int64 × Int64 :=
  (1, d.sides)

theorem map_range_of_selects {cs : List Call} {throws : List Throw}
    (h : List.Forall₂ Selects cs throws) :
    cs.map Call.range = (throws.map Throw.die).map SymbolDie.range := by
  induction h with
  | nil => rfl
  | @cons c th cs throws hselects _ ih =>
    obtain ⟨hlow, hhigh, -⟩ := hselects
    rw [List.map_cons, List.map_cons, List.map_cons, ih, Call.range, hlow, hhigh, SymbolDie.range]

/-- A die shows what the answer selects. -/
theorem isPrefix_throws {cs ds : List Call} {throws more : List Throw}
    (h : List.Forall₂ Selects cs throws) (h' : List.Forall₂ Selects ds more) (hcalls : cs <+: ds)
    (hdice : throws.map Throw.die <+: more.map Throw.die) : throws <+: more := by
  induction h generalizing ds more with
  | nil => exact List.nil_prefix
  | @cons c th cs throws hselects _ ih =>
    cases h' with
    | nil => simp at hcalls
    | @cons d th' ds more hselects' hrest =>
      obtain ⟨rfl, hbehind⟩ := List.cons_prefix_cons.mp hcalls
      rw [List.map_cons, List.map_cons, List.cons_prefix_cons] at hdice
      obtain ⟨hdie, hdice⟩ := hdice
      have hface : some th.face = some th'.face := by
        rw [← hselects.2.2, ← hselects'.2.2, hdie]
      obtain rfl : th = th' := by
        cases th
        cases th'
        simp_all
      exact List.cons_prefix_cons.mpr ⟨rfl, ih hrest hbehind hdice⟩

end Narrative

namespace Tray.Throws

open Narrative

variable {t t₁ t₂ : Tray σ} {throws more : List Throw}

theorem append (h : t.Throws throws t₁) (h' : t₁.Throws more t₂) :
    t.Throws (throws ++ more) t₂ := by
  obtain ⟨cs, hcs, hselects⟩ := h
  obtain ⟨ds, hds, hselects'⟩ := h'
  exact ⟨cs ++ ds, adds_append_iff.mpr ⟨t₁, hcs, hds⟩, List.rel_append hselects hselects'⟩

/-- The same dice, thrown on the same tray, show the same faces. -/
theorem unique (h : t.Throws throws t₁) (h' : t.Throws more t₂)
    (hdice : throws.map Throw.die = more.map Throw.die) : throws = more ∧ t₁ = t₂ := by
  obtain ⟨cs, hcs, hselects⟩ := h
  obtain ⟨ds, hds, hselects'⟩ := h'
  have hrange : cs.map Call.range = ds.map Call.range := by
    rw [map_range_of_selects hselects, map_range_of_selects hselects', hdice]
  have hlength : cs.length = ds.length := by
    simpa using congrArg List.length hrange
  obtain rfl : cs = ds :=
    (hcs.2.isPrefix_calls hds.2 (hrange ▸ List.prefix_rfl)).eq_of_length hlength
  have hthrows : throws <+: more :=
    isPrefix_throws hselects hselects' List.prefix_rfl (hdice ▸ List.prefix_rfl)
  exact ⟨hthrows.eq_of_length (by simpa using congrArg List.length hdice), hcs.tray_unique hds⟩

end Tray.Throws

namespace Narrative

/-! ## Dice -/

/-- Dice are thrown one after the other; the throw that fails is the last. -/
theorem throwDice_ensures (d : SymbolDie) (n : Nat) (tally : Tally) :
    Ensures (throwDice d n tally : Rolling σ (List Face × Tally)) fun cs r =>
      match r with
      | .ok (faces, _) => List.Forall₂ Selects cs (faces.map (Throw.mk d)) ∧ faces.length = n
      | .error e => cs.map Call.range <+: (List.replicate n d).map SymbolDie.range ∧
        ∀ requested limit, e ≠ .tooManyDice requested limit := by
  induction n generalizing tally with
  | zero => exact .pure ⟨.nil, rfl⟩
  | succ n ih =>
    refine (throwDie_ensures d).bind ?_ ?_
    · rintro _ face ⟨value, rfl, hface⟩
      have hselects : Selects ⟨1, d.sides, value⟩ ⟨d, face⟩ := by
        refine ⟨rfl, rfl, ?_⟩
        dsimp only
        split at hface <;> simp_all
      have hrange : (⟨1, d.sides, value⟩ : Call).range = d.range := rfl
      refine (Ensures.orOverflow (Q := fun cs r => cs = [] ∧ ∀ e, r = .error e → e = .overflow)
        (fun _ _ => ⟨rfl, nofun⟩) fun _ => ⟨rfl, fun e he => by cases he; rfl⟩).bind ?_ ?_
      · rintro _ sum ⟨rfl, -⟩
        refine (ih sum).bind ?_ ?_
        · rintro cs ⟨faces, tally'⟩ ⟨hcs, hlength⟩
          refine .pure ?_
          rw [List.append_nil]
          exact ⟨.cons hselects hcs, by rw [List.length_cons, hlength]⟩
        · rintro cs e ⟨hcs, he⟩
          refine ⟨?_, he⟩
          simpa [List.replicate_succ, hrange] using hcs
      · rintro _ e ⟨rfl, he⟩
        refine ⟨?_, by simp [he e rfl]⟩
        simp [List.replicate_succ, hrange]
    · rintro _ e ⟨value, rfl, he⟩
      have hrange : (⟨1, d.sides, value⟩ : Call).range = d.range := rfl
      refine ⟨by simp [List.replicate_succ, hrange], ?_⟩
      split at he <;> simp_all

/-! ## Terms -/

/-- Items that are rolled: every count is natural, the dice are thrown in order, and they are within
the limit if those before them are. Of the dice, `spent` had been charged for before, and `paid`
have been charged for now. -/
structure Charge (config : Config) (resolve : Resolver) (items : List Item) (throws : List Throw)
    (spent paid : Nat) : Prop where
  natural : ∀ i ∈ items, i.count.IsNatural resolve
  dice : throws.map Throw.die = thrownDice resolve items
  paid_eq : paid = spent + (thrownDice resolve items).length
  paid_le : spent ≤ config.maxDice → paid ≤ config.maxDice

/-- The calls of items that fail: they are for the first of the dice, and within the limit. -/
structure Charge.Broken (config : Config) (resolve : Resolver) (items : List Item)
    (cs : List Call) (spent : Nat) : Prop where
  ranges : cs.map Call.range <+: (thrownDice resolve items).map SymbolDie.range
  length_le : spent ≤ config.maxDice → spent + cs.length ≤ config.maxDice

/-- The computation rolls the items behind the outcome `o`, and charges for them. -/
def Charging (config : Config) (resolve : Resolver) (items : List Item) (o : Outcome)
    (spent : Nat) (x : Rolling σ (Outcome × Nat)) : Prop :=
  Ensures x fun cs r =>
    match r with
    | .ok (o', paid) => ∃ throws, List.Forall₂ Selects cs throws ∧
      o'.throws.toList = o.throws.toList ++ throws ∧
      Charge config resolve items throws spent paid
    | .error _ => Charge.Broken config resolve items cs spent

section

variable {config : Config} {resolve : Resolver} {items is js : List Item}
  {throws more : List Throw} {spent paid total : Nat}

namespace Charge

theorem append (h : Charge config resolve is throws spent paid)
    (h' : Charge config resolve js more paid total) :
    Charge config resolve (is ++ js) (throws ++ more) spent total where
  natural := List.forall_mem_append.mpr ⟨h.natural, h'.natural⟩
  dice := by rw [List.map_append, h.dice, h'.dice, thrownDice_append]
  paid_eq := by
    rw [h'.paid_eq, h.paid_eq, thrownDice_append, List.length_append, Nat.add_assoc]
  paid_le hspent := h'.paid_le (h.paid_le hspent)

theorem length_throws (h : Charge config resolve items throws spent paid) :
    (thrownDice resolve items).length = throws.length := by
  rw [← h.dice, List.length_map]

/-- Before it fails, a roll has made no call that is not charged for. -/
theorem Broken.nil (config : Config) (resolve : Resolver) (items : List Item) (spent : Nat) :
    Broken config resolve items [] spent :=
  ⟨List.nil_prefix, id⟩

theorem Broken.append_right {cs : List Call} (h : Broken config resolve is cs spent)
    (js : List Item) : Broken config resolve (is ++ js) cs spent := by
  refine ⟨h.ranges.trans ?_, h.length_le⟩
  rw [thrownDice_append, List.map_append]
  exact List.prefix_append _ _

theorem broken_append {cs ds : List Call} (h : Charge config resolve is throws spent paid)
    (hcs : List.Forall₂ Selects cs throws) (h' : Broken config resolve js ds paid) :
    Broken config resolve (is ++ js) (cs ++ ds) spent := by
  refine ⟨?_, fun hspent => ?_⟩
  · rw [List.map_append, map_range_of_selects hcs, h.dice, thrownDice_append, List.map_append]
    exact (List.prefix_append_right_inj _).mpr h'.ranges
  · have hds := h'.length_le (h.paid_le hspent)
    rw [h.paid_eq, h.length_throws, ← hcs.length_eq] at hds
    rw [List.length_append]
    omega

end Charge

/-- Dice are charged for before they are thrown. -/
theorem rollTerm_dice_charging (count : Count) (d : SymbolDie) (o : Outcome) (spent : Nat) :
    Charging config resolve [.dice count d] o spent
      (rollTerm config resolve o spent (.dice count d) : Rolling σ (Outcome × Nat)) := by
  rw [rollTerm]
  refine (Ensures.liftM (Q := fun cs r => cs = [] ∧ r = count.value resolve d.sides)
    ⟨rfl, rfl⟩).bind ?_ fun cs e h => h.1 ▸ .nil config resolve _ spent
  rintro _ n ⟨rfl, hn⟩
  obtain ⟨hnatural, rfl⟩ := Count.value_eq_ok_iff.mp hn.symm
  dsimp only
  split
  · exact .throw (.nil config resolve _ spent)
  · next hmax =>
    refine (throwDice_ensures d _ o.tally).bind ?_ ?_
    · rintro cs ⟨faces, tally⟩ ⟨hcs, hlength⟩
      refine .pure ⟨_, by simpa using hcs, Array.toList_appendList, ?_⟩
      refine ⟨by simpa [Item.count] using hnatural, ?_, ?_, fun _ => Nat.not_lt.mp hmax⟩
      · rw [map_die_map_mk, hlength, thrownDice_dice]
      · rw [thrownDice_dice, List.length_replicate]
    · rintro cs e ⟨hcs, -⟩
      rw [List.nil_append]
      refine ⟨by rwa [thrownDice_dice], fun _ => ?_⟩
      have hlength := hcs.length_le
      simp only [List.length_map, List.length_replicate] at hlength
      omega

theorem rollTerm_symbols_charging (count : Count) (f : Face) (o : Outcome) (spent : Nat) :
    Charging config resolve [.symbols count f] o spent
      (rollTerm config resolve o spent (.symbols count f) : Rolling σ (Outcome × Nat)) := by
  rw [rollTerm]
  refine (Ensures.liftM (Q := fun cs r => cs = [] ∧ r = count.value resolve 1)
    ⟨rfl, rfl⟩).bind ?_ fun cs e h => h.1 ▸ .nil config resolve _ spent
  rintro _ n ⟨rfl, hn⟩
  obtain ⟨hnatural, rfl⟩ := Count.value_eq_ok_iff.mp hn.symm
  refine (Ensures.orOverflow (Q := fun cs _ => cs = []) (fun _ _ => rfl) fun _ => rfl).bind ?_
    fun cs e hcs => by subst hcs; exact .nil config resolve _ spent
  rintro _ tally rfl
  refine .pure ⟨[], .nil, (List.append_nil _).symm, ?_⟩
  exact ⟨by simpa [Item.count] using hnatural, rfl, rfl, id⟩

theorem rollTerm_group_charging (name : String) {terms : List Term} (o : Outcome)
    (h : Charging config resolve (termsItems terms) (.start terms) spent
      (rollTerms config resolve (.start terms) spent terms : Rolling σ (Outcome × Nat))) :
    Charging config resolve (termsItems terms) o spent
      (rollTerm config resolve o spent (.group name terms) : Rolling σ (Outcome × Nat)) := by
  rw [rollTerm]
  refine Ensures.bind h ?_ fun cs e hcs => hcs
  rintro cs ⟨inner, paid⟩ ⟨throws, hcs, hthrows, hcharge⟩
  refine (Ensures.orOverflow (Q := fun ds r => ds = [] ∧ ∀ o', r = .ok o' →
    o.addGroup? name inner = some o') (fun o' ho' => ⟨rfl, fun _ h => by cases h; exact ho'⟩)
    fun _ => ⟨rfl, fun _ h => by cases h⟩).bind ?_ ?_
  · rintro _ o' ⟨rfl, ho'⟩
    obtain ⟨tally, -, rfl⟩ := Outcome.addGroup?_eq_some_iff.mp (ho' o' rfl)
    refine .pure ⟨throws, by simpa using hcs, ?_, hcharge⟩
    rw [Array.toList_append, hthrows]
    rfl
  · rintro _ e ⟨rfl, -⟩
    have hbroken := hcharge.broken_append hcs (.nil config resolve [] paid)
    rwa [List.append_nil] at hbroken

mutual

theorem rollTerm_charging (term : Term) (o : Outcome) (spent : Nat) :
    Charging config resolve term.items o spent
      (rollTerm config resolve o spent term : Rolling σ (Outcome × Nat)) := by
  cases term with
  | dice count d => exact rollTerm_dice_charging count d o spent
  | symbols count f => exact rollTerm_symbols_charging count f o spent
  | group name terms => exact rollTerm_group_charging name o (rollTerms_charging terms _ spent)

/-- Terms are charged for one after the other. -/
theorem rollTerms_charging (terms : List Term) (o : Outcome) (spent : Nat) :
    Charging config resolve (termsItems terms) o spent
      (rollTerms config resolve o spent terms : Rolling σ (Outcome × Nat)) := by
  cases terms with
  | nil =>
    rw [rollTerms]
    exact .pure ⟨[], .nil, (List.append_nil _).symm, nofun, rfl, rfl, id⟩
  | cons term terms =>
    rw [rollTerms, termsItems]
    refine Ensures.bind (rollTerm_charging term o spent) ?_ fun cs e h => h.append_right _
    rintro cs ⟨o₁, paid⟩ ⟨throws, hcs, hthrows, hcharge⟩
    refine Ensures.mono (rollTerms_charging terms o₁ paid) fun ds r hr => ?_
    cases r with
    | ok r =>
      obtain ⟨more, hds, hmore, hrest⟩ := hr
      exact ⟨throws ++ more, List.rel_append hcs hds, by rw [hmore, hthrows, List.append_assoc],
        hcharge.append hrest⟩
    | error e => exact hcharge.broken_append hcs hr

end

/-- What a run of terms that succeeds has thrown and charged for. -/
theorem throws_of_rollTerms {terms : List Term} {o o' : Outcome} {t t' : Tray σ}
    (h : t.roll (rollTerms config resolve o spent terms) = (.ok (o', paid), t')) :
    ∃ throws, t.Throws throws t' ∧ o'.throws.toList = o.throws.toList ++ throws ∧
      Charge config resolve (termsItems terms) throws spent paid := by
  have hcharging : Charging config resolve (termsItems terms) o spent
      (rollTerms config resolve o spent terms : Rolling σ (Outcome × Nat)) :=
    rollTerms_charging terms o spent
  obtain ⟨cs, hcs, hr⟩ := hcharging t
  rw [h] at hcs hr
  obtain ⟨throws, hselects, hthrows, hcharge⟩ := hr
  exact ⟨throws, ⟨cs, hcs, hselects⟩, hthrows, hcharge⟩

/-- What such a run has counted. -/
theorem addsUp_of_rollTerms {terms : List Term} {o o' : Outcome} {t t' : Tray σ}
    (h : t.roll (rollTerms config resolve o spent terms) = (.ok (o', paid), t'))
    (ho : o.tally.IsNatural) (hspent : spent ≤ config.maxDice) :
    ∃ throws, t.Throws throws t' ∧ Charge config resolve (termsItems terms) throws spent paid ∧
      o.AddsUp resolve (termsItems terms) (termsClosings resolve terms throws) throws o' := by
  obtain ⟨_, -, -, hcharge⟩ := throws_of_rollTerms h
  have hmax := hcharge.paid_eq ▸ hcharge.paid_le hspent
  obtain ⟨cs, hcs, hr⟩ := rollTerms_throwing terms hcharge.natural ho hmax t
  rw [h] at hcs hr
  obtain ⟨throws, hselects, -, hadds⟩ := hr
  exact ⟨throws, ⟨cs, hcs, hselects⟩, { hcharge with dice := hadds.dice }, hadds⟩

end

end Narrative

end Tabletop
