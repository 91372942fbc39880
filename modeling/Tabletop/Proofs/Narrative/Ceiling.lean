import Tabletop.Proofs.Narrative.Gap

/-!
# The limit on narrative dice

One limit holds for all dice of a roll, those in groups included.

* `Exceeds`: the roll comes to a dice term whose dice, with those before them, are too many.
* `exceeds_of_rollTerms`: a roll that is refused for its number of dice has come to such a term.
* `roll_dice_limited`: no roll makes more calls than the limit allows, and one that comes to such a
  term is refused there.
-/

namespace Tabletop.Narrative

variable {σ : Type} [Source σ] {config : Config} {resolve : Resolver} {t t' : Tray σ}
  {o : Outcome} {spent : Nat} {terms : List Term} {requested : Int64} {limit : Nat}

/-! ## Gaps behind a term -/

namespace Gap

/-- The gap with one more term before it. -/
def behind (term : Term) : Gap → Gap
  | between before after => between (term :: before) after
  | within before name inner after => within (term :: before) name inner after

theorem fill_behind (g : Gap) (term : Term) (terms : List Term) :
    (g.behind term).fill terms = term :: g.fill terms := by
  cases g <;> rfl

theorem earlier_behind (g : Gap) (term : Term) :
    (g.behind term).earlier = term.items ++ g.earlier := by
  cases g with
  | between before after => rfl
  | within before name inner after => exact List.append_assoc _ _ _

theorem reach_behind (g : Gap) (term : Term) (terms : List Term) (o : Outcome) (spent : Nat) :
    ((g.behind term).reach config resolve terms o spent : Rolling σ (Outcome × Nat)) =
      rollTerm config resolve o spent term >>= fun (o', paid) =>
        g.reach config resolve terms o' paid := by
  cases g with
  | between before after => rw [behind, reach, rollTerms]; rfl
  | within before name inner after =>
    rw [behind, reach, rollTerms, bind_assoc]
    rfl

end Gap

/-! ## Too many dice -/

/-- The roll of the terms, behind the outcome `o` and with `spent` dice charged for, comes to a dice
term that is too much: with its dice there would be `total`. It leaves the tray `t'` then. -/
def Exceeds (config : Config) (resolve : Resolver) (terms : List Term) (o : Outcome) (spent : Nat)
    (t : Tray σ) (total : Nat) (t' : Tray σ) : Prop :=
  ∃ (g : Gap) (count : Count) (d : SymbolDie) (o₁ : Outcome) (paid : Nat),
    terms = g.fill [.dice count d] ∧
    t.roll (g.reach config resolve [.dice count d] o spent) = (.ok (o₁, paid), t') ∧
    count.IsNatural resolve ∧
    total = spent + (thrownDice resolve (g.earlier ++ [.dice count d])).length ∧
    config.maxDice < total

/-- A roll that comes to such a term is refused there, before a die of it is thrown. -/
theorem Exceeds.roll_eq {total : Nat} (h : Exceeds config resolve terms o spent t total t') :
    t.roll (rollTerms config resolve o spent terms) =
      (.error (.tooManyDice (clamped total) config.maxDice), t') := by
  obtain ⟨g, count, d, o₁, paid, rfl, hreach, hnatural, rfl, hmax⟩ := h
  obtain ⟨throws, -, hcharge⟩ := Gap.charge_of_reach hreach
  have htotal : spent + (thrownDice resolve (g.earlier ++ [.dice count d])).length =
      paid + count.amount resolve := by
    rw [hcharge.paid_eq, thrownDice_append, List.length_append, thrownDice_dice,
      List.length_replicate, Nat.add_assoc]
  rw [htotal] at hmax ⊢
  refine Gap.roll_fill_of_error hreach ?_
  rw [rollTerms_singleton, rollTerm, Count.value_of_isNatural hnatural]
  change t'.roll (if config.maxDice < paid + count.amount resolve then _ else _) = _
  rw [if_pos hmax, Tray.roll_throw]

/-- The first term may be such a term. -/
theorem Exceeds.of_dice {count : Count} {d : SymbolDie} (rest : List Term) (o : Outcome)
    (t : Tray σ) (hnatural : count.IsNatural resolve)
    (hmax : config.maxDice < spent + count.amount resolve) :
    Exceeds config resolve (.dice count d :: rest) o spent t (spent + count.amount resolve) t := by
  refine ⟨.between [] rest, count, d, o, spent, rfl, ?_, hnatural, ?_, hmax⟩
  · exact roll_rollTerms_nil t o spent
  · simp [Gap.earlier, termsItems]

/-- It may be in a group. -/
theorem Exceeds.within {total : Nat} (name : String) (rest : List Term) (o : Outcome)
    (h : Exceeds config resolve terms (.start terms) spent t total t') :
    Exceeds config resolve (.group name terms :: rest) o spent t total t' := by
  obtain ⟨g, count, d, o₁, paid, hfill, hreach, hnatural, hsum, hmax⟩ := h
  refine ⟨.within [] name g rest, count, d, o₁, paid, ?_, ?_, hnatural, hsum, hmax⟩
  · rw [Gap.fill, ← hfill, List.nil_append]
  · rw [Gap.reach, rollTerms, pure_bind, ← hfill]
    exact hreach

/-- It may stand behind terms that are rolled before. -/
theorem Exceeds.behind {total paid : Nat} {term : Term} {o₁ : Outcome} {t₁ : Tray σ}
    (hterm : t.roll (rollTerm config resolve o spent term) = (.ok (o₁, paid), t₁))
    (h : Exceeds config resolve terms o₁ paid t₁ total t') :
    Exceeds config resolve (term :: terms) o spent t total t' := by
  obtain ⟨g, count, d, o₂, paid₂, hfill, hreach, hnatural, hsum, hmax⟩ := h
  refine ⟨g.behind term, count, d, o₂, paid₂, ?_, ?_, hnatural, ?_, hmax⟩
  · rw [Gap.fill_behind, hfill]
  · rw [Gap.reach_behind]
    exact (Tray.roll_bind_of_ok hterm _).trans hreach
  · have hcharge : paid = spent + (thrownDice resolve term.items).length := by
      rw [← rollTerms_singleton] at hterm
      obtain ⟨throws, -, -, hcharge⟩ := throws_of_rollTerms hterm
      simpa [termsItems] using hcharge.paid_eq
    rw [hsum, hcharge, Gap.earlier_behind, List.append_assoc, thrownDice_append term.items,
      List.length_append, Nat.add_assoc]

/-! ## Refused rolls -/

theorem throwDice_ne_tooManyDice (d : SymbolDie) (n : Nat) (tally : Tally) :
    t.roll (throwDice d n tally) ≠ (.error (.tooManyDice requested limit), t') := by
  intro h
  obtain ⟨cs, -, hr⟩ := throwDice_ensures d n tally t
  rw [h] at hr
  exact hr.2 requested limit rfl

omit [Source σ] in
theorem orOverflow_ne_tooManyDice {α : Type} (a : Option α) :
    t.roll (Rolling.orOverflow a) ≠ (.error (.tooManyDice requested limit), t') := by
  cases a <;> simp [Rolling.orOverflow, Tray.roll_pure, Tray.roll_throw]

theorem value_ne_tooManyDice (count : Count) (sides : Int64) :
    count.value resolve sides ≠ .error (.tooManyDice requested limit) := by
  intro h
  rcases Count.eq_of_value_eq_error h with ⟨n, hn⟩ | ⟨r, hr⟩
  · cases hn
  · cases hr

mutual

theorem exceeds_of_rollTerm {t : Tray σ} {o : Outcome} {spent : Nat} {term : Term}
    (rest : List Term)
    (h : t.roll (rollTerm config resolve o spent term) =
      (.error (.tooManyDice requested limit), t')) :
    limit = config.maxDice ∧ ∃ total : Nat, requested = clamped total ∧
      Exceeds config resolve (term :: rest) o spent t total t' := by
  cases term with
  | dice count d =>
    rw [rollTerm] at h
    rcases Tray.roll_bind_eq_error_iff.mp h with hvalue | ⟨n, t₁, hvalue, hthrow⟩
    · exact absurd (Tray.roll_liftM_eq_iff.mp hvalue).1 (value_ne_tooManyDice count d.sides)
    obtain ⟨hn, rfl⟩ := Tray.roll_liftM_eq_iff.mp hvalue
    obtain ⟨hnatural, rfl⟩ := Count.value_eq_ok_iff.mp hn
    dsimp only at hthrow
    split at hthrow
    · next hmax =>
      cases hthrow
      exact ⟨rfl, _, rfl, .of_dice rest o _ hnatural hmax⟩
    · rcases Tray.roll_bind_eq_error_iff.mp hthrow with h | ⟨r, t₂, -, h⟩
      · exact absurd h (throwDice_ne_tooManyDice d _ _)
      · cases h
  | symbols count f =>
    rw [rollTerm] at h
    rcases Tray.roll_bind_eq_error_iff.mp h with h | ⟨n, t₁, -, h⟩
    · exact absurd (Tray.roll_liftM_eq_iff.mp h).1 (value_ne_tooManyDice count 1)
    · rcases Tray.roll_bind_eq_error_iff.mp h with h | ⟨r, t₂, -, h⟩
      · exact absurd h (orOverflow_ne_tooManyDice _)
      · cases h
  | group name terms =>
    rw [rollTerm] at h
    rcases Tray.roll_bind_eq_error_iff.mp h with h | ⟨⟨inner, paid⟩, t₁, -, h⟩
    · obtain ⟨hlimit, total, htotal, hexceeds⟩ := exceeds_of_rollTerms h
      exact ⟨hlimit, total, htotal, hexceeds.within name rest o⟩
    · rcases Tray.roll_bind_eq_error_iff.mp h with h | ⟨r, t₂, -, h⟩
      · exact absurd h (orOverflow_ne_tooManyDice _)
      · cases h

/-- A roll that is refused for its number of dice has come to a term with too many of them. -/
theorem exceeds_of_rollTerms {t : Tray σ} {o : Outcome} {spent : Nat} {terms : List Term}
    (h : t.roll (rollTerms config resolve o spent terms) =
      (.error (.tooManyDice requested limit), t')) :
    limit = config.maxDice ∧ ∃ total : Nat, requested = clamped total ∧
      Exceeds config resolve terms o spent t total t' := by
  cases terms with
  | nil =>
    rw [rollTerms] at h
    cases h
  | cons term terms =>
    rw [rollTerms] at h
    rcases Tray.roll_bind_eq_error_iff.mp h with h | ⟨⟨o₁, paid₁⟩, t₁, hterm, h⟩
    · exact exceeds_of_rollTerm terms h
    obtain ⟨hlimit, total, htotal, hexceeds⟩ := exceeds_of_rollTerms h
    exact ⟨hlimit, total, htotal, hexceeds.behind hterm⟩

end

/-! ## Rolls -/

/-- A roll calls the source for faces of its dice only, in reading order, and no more often than the
limit allows. If it comes to a dice term that would exceed the limit, together with all dice before
it, it is refused there and then, with the number of dice that there would be; and it is refused so
in no other case. -/
theorem roll_dice_limited (config : Config) (resolve : Resolver) (terms : List Term)
    (t : Tray σ) :
    (∃ cs, t.Adds cs (t.roll (roll config resolve terms)).2 ∧ cs.length ≤ config.maxDice ∧
      cs.map Call.range <+: (thrownDice resolve (termsItems terms)).map SymbolDie.range) ∧
    ∀ requested limit t',
      t.roll (roll config resolve terms) = (.error (.tooManyDice requested limit), t') ↔
        limit = config.maxDice ∧ ∃ total : Nat,
          requested.toInt = min (total : Int) Int64.maxValue.toInt ∧
          Exceeds config resolve terms (.start terms) 0 t total t' := by
  constructor
  · have hroll : Ensures (roll config resolve terms : Rolling σ Outcome) fun cs _ =>
        Charge.Broken config resolve (termsItems terms) cs 0 := by
      refine Ensures.bind (rollTerms_charging terms (.start terms) 0) ?_ fun cs e h => h
      rintro cs ⟨o, paid⟩ ⟨throws, hcs, -, hcharge⟩
      refine .pure ?_
      simpa using hcharge.broken_append hcs (.nil config resolve [] paid)
    obtain ⟨cs, hcs, hranges, hlength⟩ := hroll t
    exact ⟨cs, hcs, by simpa using hlength (Nat.zero_le _), hranges⟩
  · intro requested limit t'
    constructor
    · intro h
      rcases Tray.roll_bind_eq_error_iff.mp h with h | ⟨r, t₁, -, h⟩
      · obtain ⟨hlimit, total, rfl, hexceeds⟩ := exceeds_of_rollTerms h
        exact ⟨hlimit, total, toInt_clamped (Int.natCast_nonneg total), hexceeds⟩
      · cases h
    · rintro ⟨rfl, total, hrequested, hexceeds⟩
      obtain rfl : requested = clamped total :=
        Int64.toInt_inj.mp (hrequested.trans (toInt_clamped (Int.natCast_nonneg total)).symm)
      exact Tray.roll_bind_of_error hexceeds.roll_eq _

end Tabletop.Narrative
