import Tabletop.Proofs.Narrative.Charges

/-!
# Gaps in a list of terms

A gap is a place in a list of terms at any depth. Rolling the list is rolling what stands before the
gap, then what fills it, then what stands behind it.

* `Gap.fill`, `Gap.earlier`, `Gap.later`: the list with the gap filled, and the dice and symbols on
  either side of the gap.
* `Gap.reach`: rolls up to the gap.
* `Gap.roll_fill_of_error`: what fails in the gap fails the whole roll.
* `Gap.roll_fill_of_ok`: of a roll that succeeds, what is thrown before, in and behind the gap.
-/

namespace Tabletop.Narrative

/-- A place in a list of terms. -/
inductive Gap where
  /-- Between two lists of terms. -/
  | between (before after : List Term)
  /-- In the group `name` that stands between two lists of terms. -/
  | within (before : List Term) (name : String) (inner : Gap) (after : List Term)

namespace Gap

/-- The list with `terms` in the gap. -/
def fill (terms : List Term) : Gap → List Term
  | between before after => before ++ terms ++ after
  | within before name inner after => before ++ .group name (inner.fill terms) :: after

/-- The dice and symbols before the gap, in reading order. -/
def earlier : Gap → List Item
  | between before _ => termsItems before
  | within before _ inner _ => termsItems before ++ inner.earlier

/-- The dice and symbols behind the gap, in reading order. -/
def later : Gap → List Item
  | between _ after => termsItems after
  | within _ _ inner after => inner.later ++ termsItems after

theorem termsItems_fill (g : Gap) (terms : List Term) :
    termsItems (g.fill terms) = g.earlier ++ termsItems terms ++ g.later := by
  induction g with
  | between before after => simp [fill, earlier, later, termsItems_append]
  | within before name inner after ih =>
    simp [fill, earlier, later, termsItems_append, termsItems, Term.items, ih]

variable {σ : Type} [Source σ] {config : Config} {resolve : Resolver} {terms : List Term}

/-- Rolls what stands before the gap, if `terms` fill it, and behind the outcome `o`: the outcome of
the list that the gap is in, as far as the gap, and the number of dice charged for. -/
def reach (config : Config) (resolve : Resolver) (terms : List Term) :
    Gap → Outcome → Nat → Rolling σ (Outcome × Nat)
  | between before _, o, spent => rollTerms config resolve o spent before
  | within before _ inner _, o, spent => do
    let (_, spent) ← rollTerms config resolve o spent before
    inner.reach config resolve terms (.start (inner.fill terms)) spent

end Gap

/-! ## Rolling in parts -/

section

variable {σ : Type} [Source σ] {config : Config} {resolve : Resolver}

theorem roll_rollTerms_nil (t : Tray σ) (o : Outcome) (spent : Nat) :
    t.roll (rollTerms config resolve o spent []) = (.ok (o, spent), t) := by
  rw [rollTerms, Tray.roll_pure]

theorem rollTerms_append (o : Outcome) (spent : Nat) (terms more : List Term) :
    (rollTerms config resolve o spent (terms ++ more) : Rolling σ (Outcome × Nat)) =
      rollTerms config resolve o spent terms >>= fun (o', paid) =>
        rollTerms config resolve o' paid more := by
  induction terms generalizing o spent with
  | nil => rw [List.nil_append, rollTerms, pure_bind]
  | cons term terms ih =>
    rw [List.cons_append, rollTerms, rollTerms, bind_assoc]
    congr 1
    funext ⟨o', paid⟩
    exact ih o' paid

theorem rollTerms_singleton (o : Outcome) (spent : Nat) (term : Term) :
    (rollTerms config resolve o spent [term] : Rolling σ (Outcome × Nat)) =
      rollTerm config resolve o spent term := by
  have hpure : (fun r : Outcome × Nat =>
      (rollTerms config resolve r.1 r.2 [] : Rolling σ (Outcome × Nat))) = pure := by
    funext ⟨o', paid⟩
    rw [rollTerms]
  rw [rollTerms]
  exact (congrArg _ hpure).trans (bind_pure _)

variable {t t' : Tray σ} {o o' : Outcome} {spent paid : Nat}

/-- Dice add their throws, and what these count. -/
theorem eq_of_roll_dice {count : Count} {d : SymbolDie}
    (h : t.roll (rollTerm config resolve o spent (.dice count d)) = (.ok (o', paid), t')) :
    ∃ throws tally, o' = { o with throws, tally } := by
  rw [rollTerm] at h
  obtain ⟨n, t₁, -, h⟩ := Tray.roll_bind_eq_ok_iff.mp h
  dsimp only at h
  split at h
  · cases h
  · obtain ⟨faces, t₂, -, h⟩ := Tray.roll_bind_eq_ok_iff.mp h
    cases h
    exact ⟨_, _, rfl⟩

/-- Symbols only count. -/
theorem eq_of_roll_symbols {count : Count} {f : Face}
    (h : t.roll (rollTerm config resolve o spent (.symbols count f)) = (.ok (o', paid), t')) :
    ∃ tally, o' = { o with tally } := by
  rw [rollTerm] at h
  obtain ⟨n, t₁, -, h⟩ := Tray.roll_bind_eq_ok_iff.mp h
  obtain ⟨tally, t₂, -, h⟩ := Tray.roll_bind_eq_ok_iff.mp h
  cases h
  exact ⟨_, rfl⟩

/-- The terms of a group are rolled by themselves, and what they come to is added. -/
theorem roll_group_eq_ok_iff {name : String} {terms : List Term} :
    t.roll (rollTerm config resolve o spent (.group name terms)) = (.ok (o', paid), t') ↔
      ∃ inner, t.roll (rollTerms config resolve (.start terms) spent terms) =
        (.ok (inner, paid), t') ∧ o.addGroup? name inner = some o' := by
  rw [rollTerm, Tray.roll_bind_eq_ok_iff]
  constructor
  · rintro ⟨⟨inner, paid'⟩, t₁, hinner, h⟩
    obtain ⟨o₁, t₂, hover, h⟩ := Tray.roll_bind_eq_ok_iff.mp h
    cases h
    obtain ⟨hadd, rfl⟩ := Tray.roll_orOverflow_eq_ok_iff.mp hover
    exact ⟨inner, hinner, hadd⟩
  · rintro ⟨inner, hinner, hadd⟩
    exact ⟨(inner, paid), t', hinner, Tray.roll_bind_eq_ok_iff.mpr
      ⟨o', t', Tray.roll_orOverflow_eq_ok_iff.mpr ⟨hadd, rfl⟩, rfl⟩⟩

/-- Terms leave the text of the outcome as it is. -/
theorem text_of_rollTerms {terms : List Term}
    (h : t.roll (rollTerms config resolve o spent terms) = (.ok (o', paid), t')) :
    o'.text = o.text := by
  induction terms generalizing o spent t with
  | nil =>
    rw [rollTerms] at h
    cases h
    rfl
  | cons term terms ih =>
    rw [rollTerms] at h
    obtain ⟨⟨o₁, spent₁⟩, t₁, hterm, hterms⟩ := Tray.roll_bind_eq_ok_iff.mp h
    rw [ih hterms]
    cases term with
    | dice count d =>
      obtain ⟨_, _, rfl⟩ := eq_of_roll_dice hterm
      rfl
    | symbols count f =>
      obtain ⟨_, rfl⟩ := eq_of_roll_symbols hterm
      rfl
    | group name terms =>
      obtain ⟨inner, -, hadd⟩ := roll_group_eq_ok_iff.mp hterm
      obtain ⟨tally, -, rfl⟩ := Outcome.addGroup?_eq_some_iff.mp hadd
      rfl

namespace Gap

/-- What fails in the gap fails the whole roll. -/
theorem roll_fill_of_error {g : Gap} {terms : List Term} {o₁ : Outcome} {t₁ t₂ : Tray σ}
    {e : EvalError}
    (hreach : t.roll (g.reach config resolve terms o spent) = (.ok (o₁, paid), t₁))
    (herror : t₁.roll (rollTerms config resolve o₁ paid terms) = (.error e, t₂)) :
    t.roll (rollTerms config resolve o spent (g.fill terms)) = (.error e, t₂) := by
  induction g generalizing o spent t with
  | between before after =>
    have hbefore : t.roll (rollTerms config resolve o spent before) = (.ok (o₁, paid), t₁) :=
      hreach
    rw [fill, List.append_assoc, rollTerms_append, Tray.roll_bind_of_ok hbefore]
    dsimp only
    rw [rollTerms_append]
    exact Tray.roll_bind_of_error herror _
  | within before name inner after ih =>
    obtain ⟨⟨o₂, paid₂⟩, t₃, hbefore, hinner⟩ := Tray.roll_bind_eq_ok_iff.mp hreach
    rw [fill, rollTerms_append, Tray.roll_bind_of_ok hbefore]
    dsimp only
    rw [rollTerms, rollTerm]
    exact Tray.roll_bind_of_error (Tray.roll_bind_of_error (ih hinner) _) _

/-- A gap is reached when all that stands before it has been rolled. -/
theorem charge_of_reach {g : Gap} {terms : List Term} {o₁ : Outcome} {t₁ : Tray σ}
    (h : t.roll (g.reach config resolve terms o spent) = (.ok (o₁, paid), t₁)) :
    ∃ throws, t.Throws throws t₁ ∧ Charge config resolve g.earlier throws spent paid := by
  induction g generalizing o spent t with
  | between before after =>
    obtain ⟨throws, hthrows, -, hcharge⟩ := throws_of_rollTerms h
    exact ⟨throws, hthrows, hcharge⟩
  | within before name inner after ih =>
    obtain ⟨⟨o₂, paid₂⟩, t₃, hbefore, hinner⟩ := Tray.roll_bind_eq_ok_iff.mp h
    obtain ⟨throws, hthrows, -, hcharge⟩ := throws_of_rollTerms hbefore
    obtain ⟨more, hmore, hrest⟩ := ih hinner
    exact ⟨throws ++ more, hthrows.append hmore, hcharge.append hrest⟩

/-- A roll that succeeds reaches every gap, fills it and goes on behind it. -/
theorem roll_fill_of_ok {g : Gap} {terms : List Term}
    (h : t.roll (rollTerms config resolve o spent (g.fill terms)) = (.ok (o', paid), t')) :
    ∃ o₁ spent₁ t₁ o₂ spent₂ t₂,
      t.roll (g.reach config resolve terms o spent) = (.ok (o₁, spent₁), t₁) ∧
      t₁.roll (rollTerms config resolve o₁ spent₁ terms) = (.ok (o₂, spent₂), t₂) ∧
      ∃ throws mid more, t.Throws throws t₁ ∧ t₁.Throws mid t₂ ∧ t₂.Throws more t' ∧
        o₂.throws.toList = o₁.throws.toList ++ mid ∧
        o'.throws.toList = o.throws.toList ++ (throws ++ mid ++ more) := by
  induction g generalizing o spent t o' paid t' with
  | between before after =>
    rw [fill, List.append_assoc, rollTerms_append] at h
    obtain ⟨⟨o₁, spent₁⟩, t₁, hbefore, h⟩ := Tray.roll_bind_eq_ok_iff.mp h
    dsimp only at h
    rw [rollTerms_append] at h
    obtain ⟨⟨o₂, spent₂⟩, t₂, hterms, hafter⟩ := Tray.roll_bind_eq_ok_iff.mp h
    obtain ⟨throws, hthrows, heq, -⟩ := throws_of_rollTerms hbefore
    obtain ⟨mid, hmid, heq', -⟩ := throws_of_rollTerms hterms
    obtain ⟨more, hmore, heq'', -⟩ := throws_of_rollTerms hafter
    refine ⟨o₁, spent₁, t₁, o₂, spent₂, t₂, hbefore, hterms, throws, mid, more, hthrows, hmid,
      hmore, heq', ?_⟩
    rw [heq'', heq', heq, List.append_assoc, List.append_assoc, List.append_assoc]
  | within before name inner after ih =>
    rw [fill, rollTerms_append] at h
    obtain ⟨⟨o₃, spent₃⟩, t₃, hbefore, h⟩ := Tray.roll_bind_eq_ok_iff.mp h
    dsimp only at h
    rw [rollTerms] at h
    obtain ⟨⟨o₄, spent₄⟩, t₄, hgroup, hafter⟩ := Tray.roll_bind_eq_ok_iff.mp h
    obtain ⟨r, hinner, hadd⟩ := roll_group_eq_ok_iff.mp hgroup
    obtain ⟨o₁, spent₁, t₁, o₂, spent₂, t₂, hreach, hterms, throws, mid, more, hthrows, hmid, hmore,
      hwithin, hr⟩ := ih hinner
    obtain ⟨first, hfirst, heq, -⟩ := throws_of_rollTerms hbefore
    obtain ⟨last, hlast, heq', -⟩ := throws_of_rollTerms hafter
    obtain ⟨tally, -, rfl⟩ := Outcome.addGroup?_eq_some_iff.mp hadd
    refine ⟨o₁, spent₁, t₁, o₂, spent₂, t₂, (Tray.roll_bind_of_ok hbefore _).trans hreach, hterms,
      first ++ throws, mid, more ++ last, hfirst.append hthrows, hmid, hmore.append hlast, hwithin,
      ?_⟩
    rw [heq', Array.toList_append, heq, hr]
    simp [Outcome.start]

end Gap

end

end Tabletop.Narrative
