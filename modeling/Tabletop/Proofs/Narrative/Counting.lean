import Tabletop.Proofs.Dice.Ensures
import Tabletop.Proofs.Narrative.Exact
import Mathlib.Data.List.Forall2

/-!
# What narrative rolls count

A narrative roll counts exactly the symbols that its dice show and that it adds, and overflows just
if one of these numbers is too large for its counter: no sum on the way is larger than the last.

* `Throwing x P B`: the computation `x` makes one call for each die it throws; the throws and what
  it comes to are in the relation `P`, and if it overflows, the throws so far meet `B`.
* `throwDice_throwing`: dice are thrown and added one by one.
* `rollTerms_throwing`: the rule for terms, from one rule for each kind of term.
* `roll_exact`: the statement for a whole roll.
-/

namespace Tabletop.Narrative

/-! ## Throws -/

/-- The call is for a face of the die, and its answer selects the face shown. -/
def Selects (c : Call) (th : Throw) : Prop :=
  c.low = 1 ∧ c.high = th.die.sides ∧ th.die.face? c.value.toInt = some th.face

/-- An answer in the range selects a face. -/
theorem SymbolDie.exists_face? (d : SymbolDie) {n : Int64} (hlow : 1 ≤ n) (hhigh : n ≤ d.sides) :
    ∃ f, d.face? n.toInt = some f := by
  have hsides : d.sides.toInt = d.faces.length := by cases d <;> decide
  have hlow : 1 ≤ n.toInt := Int64.le_iff_toInt_le.mp hlow
  have hhigh : n.toInt ≤ d.faces.length := hsides ▸ Int64.le_iff_toInt_le.mp hhigh
  rw [face?, if_pos hlow]
  exact ⟨_, List.getElem?_eq_getElem (by omega)⟩

variable {σ α β : Type} [Source σ]

/-- Every call is for a throw. A value and the throws are in the relation `P`; the only error that
answers in range lead to is an overflow, behind throws that meet `B`. -/
def Throwing (x : Rolling σ α) (P : List Throw → α → Prop) (B : List Throw → Prop) : Prop :=
  Ensures x fun cs r =>
    match r with
    | .ok a => ∃ throws, List.Forall₂ Selects cs throws ∧ P throws a
    | .error e => (∀ c ∈ cs, c.InRange) →
      e = .overflow ∧ ∃ throws, List.Forall₂ Selects cs throws ∧ B throws

namespace Throwing

variable {x : Rolling σ α} {f : α → Rolling σ β} {P P' : List Throw → α → Prop}
  {B B' : List Throw → Prop} {Q : List Throw → β → Prop}

theorem mono (h : Throwing x P B) (hP : ∀ throws a, P throws a → P' throws a)
    (hB : ∀ throws, B throws → B' throws) : Throwing x P' B' := by
  refine Ensures.mono h fun cs r hr => ?_
  cases r with
  | ok a =>
    obtain ⟨throws, hcs, ha⟩ := hr
    exact ⟨throws, hcs, hP throws a ha⟩
  | error e =>
    intro hin
    obtain ⟨he, throws, hcs, hbad⟩ := hr hin
    exact ⟨he, throws, hcs, hB throws hbad⟩

protected theorem pure {a : α} (h : P [] a) : Throwing (pure a : Rolling σ α) P B :=
  Ensures.pure ⟨[], .nil, h⟩

protected theorem orOverflow {o : Option α} (hsome : ∀ a, o = some a → P [] a)
    (hnone : o = none → B []) : Throwing (Rolling.orOverflow o : Rolling σ α) P B :=
  Ensures.orOverflow (fun a ha => ⟨[], .nil, hsome a ha⟩) fun ho _ => ⟨rfl, [], .nil, hnone ho⟩

/-- The second computation goes on behind the throws of the first. -/
theorem bind (hx : Throwing x P B)
    (hf : ∀ throws a, P throws a →
      Throwing (f a) (fun more => Q (throws ++ more)) fun more => B' (throws ++ more))
    (hB : ∀ throws, B throws → B' throws) : Throwing (x >>= f) Q B' := by
  refine Ensures.bind hx (fun cs a ⟨throws, hcs, ha⟩ =>
    Ensures.mono (hf throws a ha) fun ds r hr => ?_) fun cs e he hin => ?_
  · cases r with
    | ok b =>
      obtain ⟨more, hds, hb⟩ := hr
      exact ⟨throws ++ more, List.rel_append hcs hds, hb⟩
    | error e =>
      intro hin
      obtain ⟨he, more, hds, hbad⟩ := hr (List.forall_mem_append.mp hin).2
      exact ⟨he, throws ++ more, List.rel_append hcs hds, hbad⟩
  · obtain ⟨he, throws, hcs, hbad⟩ := he hin
    exact ⟨he, throws, hcs, hB throws hbad⟩

end Throwing

/-! ## Throwing dice -/

theorem throwDie_ensures (d : SymbolDie) :
    Ensures (throwDie d : Rolling σ Face) fun cs r =>
      ∃ n, cs = [⟨1, d.sides, n⟩] ∧ r = match d.face? n.toInt with
        | some f => .ok f
        | none => .error (.outOfRange n 1 d.sides) := by
  refine (Ensures.ask d.sides).bind ?_ (by simp)
  rintro _ n ⟨_, rfl, hn⟩
  cases hn
  cases hface : d.face? n.toInt with
  | some f => exact .pure ⟨n, rfl, by rw [hface]⟩
  | none => exact .throw ⟨n, rfl, by rw [hface]⟩

theorem throwDie_throwing (d : SymbolDie) :
    Throwing (throwDie d : Rolling σ Face) (fun throws f => throws = [⟨d, f⟩]) fun _ => False := by
  refine Ensures.mono (throwDie_ensures d) ?_
  rintro _ _ ⟨n, rfl, rfl⟩
  cases hface : d.face? n.toInt with
  | some f => exact ⟨_, .cons ⟨rfl, rfl, hface⟩ .nil, rfl⟩
  | none =>
    intro hin
    obtain ⟨hlow, hhigh⟩ := hin ⟨1, d.sides, n⟩ List.mem_cons_self
    obtain ⟨f, hf⟩ := d.exists_face? hlow hhigh
    rw [hface] at hf
    cases hf

/-- The faces of dice are added to the tally one by one, until one of them makes a counter too
large. -/
theorem throwDice_throwing (d : SymbolDie) (n : Nat) {tally : Tally} (htally : tally.IsNatural) :
    Throwing (throwDice d n tally : Rolling σ (List Face × Tally))
      (fun throws r => throws = r.1.map (Throw.mk d) ∧ throws.map Throw.die = List.replicate n d ∧
        ∀ s, (r.2.get s).toInt = (tally.get s).toInt + shownSymbols throws s)
      fun throws => throws.map Throw.die <+: List.replicate n d ∧
        ∃ s, Int64.maxValue.toInt < (tally.get s).toInt + shownSymbols throws s := by
  induction n generalizing tally with
  | zero => exact .pure ⟨rfl, rfl, fun s => (Int.add_zero _).symm⟩
  | succ n ih =>
    refine (throwDie_throwing d).bind ?_ nofun
    rintro _ face rfl
    refine Throwing.bind (P := fun throws sum => throws = [] ∧ tally.add? face.tally = some sum)
      (B := fun throws => throws = [] ∧ tally.add? face.tally = none)
      (.orOverflow (fun sum hsum => ⟨rfl, hsum⟩) fun hnone => ⟨rfl, hnone⟩) ?_ ?_
    · rintro _ sum ⟨rfl, hsum⟩
      refine (ih (htally.add face.tally_nonneg hsum)).bind ?_ ?_
      · rintro throws ⟨faces, tally'⟩ ⟨rfl, hdice, htally'⟩
        refine .pure ⟨by simp, by simp [List.replicate_succ, ← hdice], fun s => ?_⟩
        rw [htally', Tally.get_of_add? hsum, Int.add_assoc]
        simp [shownSymbols]
      · rintro throws ⟨hdice, s, hs⟩
        refine ⟨by simpa [List.replicate_succ] using hdice, s, ?_⟩
        rw [Tally.get_of_add? hsum, Int.add_assoc] at hs
        simpa [shownSymbols] using hs
    · rintro _ ⟨rfl, hnone⟩
      obtain ⟨s, hs⟩ := Tally.exists_lt_of_checked_eq_none
        (fun s => Int.add_nonneg (htally s) (face.tally_nonneg s)) hnone
      exact ⟨by simp [List.replicate_succ], s, by simpa [shownSymbols] using hs⟩

/-! ## Rolling terms -/

section

variable {config : Config} {resolve : Resolver}

/-- Dice are charged for before they are thrown. -/
theorem rollTerm_dice_throwing {count : Count} (hcount : count.IsNatural resolve) (d : SymbolDie)
    {o : Outcome} {spent : Nat} (ho : o.tally.IsNatural)
    (hmax : spent + count.amount resolve ≤ config.maxDice) :
    Throwing (rollTerm config resolve o spent (.dice count d) : Rolling σ (Outcome × Nat))
      (fun throws r => r.2 = spent + count.amount resolve ∧
        o.AddsUp resolve [.dice count d] [] throws r.1)
      fun throws => o.Overflows resolve [.dice count d] throws := by
  rw [rollTerm, Count.value_of_isNatural hcount]
  change Throwing (if config.maxDice < spent + count.amount resolve then _ else _) _ _
  rw [if_neg (by omega)]
  refine (throwDice_throwing d _ ho).bind ?_ ?_
  · rintro _ ⟨faces, tally⟩ ⟨rfl, hdice, htally⟩
    rw [map_die_map_mk] at hdice
    have hlength : faces.length = count.amount resolve := by
      simpa using congrArg List.length hdice
    exact .pure ⟨rfl, by simpa using .ofDice count hlength htally⟩
  · rintro throws ⟨hdice, s, hs⟩
    exact ⟨by rwa [thrownDice_dice], s, by rwa [symbolTotal, addedSymbols_dice, Int.add_zero]⟩

/-- Symbols are added at once. -/
theorem rollTerm_symbols_throwing {count : Count} (hcount : count.IsNatural resolve) (f : Face)
    {o : Outcome} (spent : Nat) (ho : o.tally.IsNatural) :
    Throwing (rollTerm config resolve o spent (.symbols count f) : Rolling σ (Outcome × Nat))
      (fun throws r => r.2 = spent ∧ o.AddsUp resolve [.symbols count f] [] throws r.1)
      fun throws => o.Overflows resolve [.symbols count f] throws := by
  rw [rollTerm, Count.value_of_isNatural hcount]
  change Throwing (Rolling.orOverflow
    ((f.tally.scale? (count.amount resolve)).bind o.tally.add?) >>= _) _ _
  refine Throwing.bind (P := fun throws tally => throws = [] ∧
      (f.tally.scale? (count.amount resolve)).bind o.tally.add? = some tally)
    (.orOverflow (fun tally htally => ⟨rfl, htally⟩) fun hnone => ?_) ?_ fun _ => id
  · obtain ⟨s, hs⟩ := Tally.exists_lt_of_add_scale ho f.tally_nonneg hnone
    refine ⟨List.nil_prefix, s, ?_⟩
    rwa [symbolTotal, shownSymbols_nil, Int.zero_add, addedSymbols_symbols, Int.mul_comm]
  · rintro _ tally ⟨rfl, hadd⟩
    obtain ⟨added, hscale, hsum⟩ := Option.bind_eq_some_iff.mp hadd
    refine .pure ⟨rfl, .ofSymbols count fun s => ?_⟩
    rw [Tally.get_of_add? hsum, Tally.get_of_scale? hscale, addedSymbols_symbols, Int.mul_comm]

/-- The terms of a group start from an outcome of their own, which is then added. -/
theorem rollTerm_group_throwing (name : String) {terms : List Term} {o : Outcome} {spent n : Nat}
    (ho : o.tally.IsNatural)
    (h : Throwing (rollTerms config resolve (.start terms) spent terms : Rolling σ (Outcome × Nat))
      (fun throws r => r.2 = n ∧ (Outcome.start terms).AddsUp resolve (termsItems terms)
        (termsClosings resolve terms throws) throws r.1)
      fun throws => (Outcome.start terms).Overflows resolve (termsItems terms) throws) :
    Throwing (rollTerm config resolve o spent (.group name terms) : Rolling σ (Outcome × Nat))
      (fun throws r => r.2 = n ∧ o.AddsUp resolve (termsItems terms)
        (termsClosings resolve terms throws ++ [⟨name, terms, throws⟩]) throws r.1)
      fun throws => o.Overflows resolve (termsItems terms) throws := by
  rw [rollTerm]
  refine h.bind ?_ fun throws hover => hover.of_start ho
  rintro throws ⟨inner, spent'⟩ ⟨rfl, hinner⟩
  refine Throwing.bind (P := fun more o' => more = [] ∧ o.addGroup? name inner = some o')
    (.orOverflow (fun o' ho' => ⟨rfl, ho'⟩) fun hnone => ?_) ?_ fun _ => id
  · rw [List.append_nil]
    exact hinner.overflows_addGroup ho hnone
  · rintro _ o' ⟨rfl, hadd⟩
    exact .pure ⟨rfl, by simpa using hinner.addGroup hadd⟩

mutual

theorem rollTerm_throwing (term : Term) (hcounts : ∀ i ∈ term.items, i.count.IsNatural resolve)
    {o : Outcome} {spent : Nat} (ho : o.tally.IsNatural)
    (hmax : spent + (thrownDice resolve term.items).length ≤ config.maxDice) :
    Throwing (rollTerm config resolve o spent term : Rolling σ (Outcome × Nat))
      (fun throws r => r.2 = spent + (thrownDice resolve term.items).length ∧
        o.AddsUp resolve term.items (term.closings resolve throws) throws r.1)
      fun throws => o.Overflows resolve term.items throws := by
  cases term with
  | dice count d =>
    rw [Term.items, thrownDice_dice, List.length_replicate] at hmax ⊢
    exact rollTerm_dice_throwing (hcounts (.dice count d) List.mem_cons_self) d ho hmax
  | symbols count f =>
    exact rollTerm_symbols_throwing (hcounts (.symbols count f) List.mem_cons_self) f spent ho
  | group name terms =>
    exact rollTerm_group_throwing name ho
      (rollTerms_throwing terms hcounts Tally.isNatural_zero hmax)

/-- Terms are rolled one after the other, and the first that overflows is the last. -/
theorem rollTerms_throwing (terms : List Term)
    (hcounts : ∀ i ∈ termsItems terms, i.count.IsNatural resolve)
    {o : Outcome} {spent : Nat} (ho : o.tally.IsNatural)
    (hmax : spent + (thrownDice resolve (termsItems terms)).length ≤ config.maxDice) :
    Throwing (rollTerms config resolve o spent terms : Rolling σ (Outcome × Nat))
      (fun throws r => r.2 = spent + (thrownDice resolve (termsItems terms)).length ∧
        o.AddsUp resolve (termsItems terms) (termsClosings resolve terms throws) throws r.1)
      fun throws => o.Overflows resolve (termsItems terms) throws := by
  cases terms with
  | nil =>
    rw [rollTerms]
    exact .pure ⟨rfl, .refl o⟩
  | cons term terms =>
    rw [rollTerms, termsItems]
    rw [termsItems, thrownDice_append, List.length_append, ← Nat.add_assoc] at hmax
    obtain ⟨hterm, hterms⟩ := List.forall_mem_append.mp hcounts
    refine (rollTerm_throwing term hterm ho (by omega)).bind ?_ fun throws h => h.append_right _
    rintro throws ⟨o₁, spent₁⟩ ⟨rfl, hadds⟩
    refine (rollTerms_throwing terms hterms (hadds.isNatural ho) hmax).mono ?_ fun more hover =>
      hadds.overflows_append hover
    rintro more ⟨o₂, spent₂⟩ ⟨rfl, hrest⟩
    rw [termsClosings_cons_append hadds.dice]
    exact ⟨by rw [thrownDice_append, List.length_append, Nat.add_assoc], hadds.append hrest⟩

end

/-! ## Rolls -/

/-- A roll whose counts are natural and ask for few enough dice makes one call for each die, in
reading order, as long as the answers are in range. If the exact numbers of all symbols fit their
counters, it succeeds, and it and the groups in it have counted just these; otherwise it
overflows. -/
theorem roll_exact {terms : List Term}
    (hcounts : ∀ i ∈ termsItems terms, i.count.IsNatural resolve)
    (hmax : (thrownDice resolve (termsItems terms)).length ≤ config.maxDice) (t : Tray σ) :
    ∃ cs, t.Adds cs (t.roll (roll config resolve terms)).2 ∧
      ((∀ c ∈ cs, c.InRange) →
        ∃ throws, List.Forall₂ Selects cs throws ∧
          throws.map Throw.die <+: thrownDice resolve (termsItems terms) ∧
          ((∀ s, symbolTotal resolve (termsItems terms) throws s ≤ Int64.maxValue.toInt) →
            ∃ o, (t.roll (roll config resolve terms)).1 = .ok o ∧ o.Exact resolve terms throws) ∧
          ((∃ s, Int64.maxValue.toInt < symbolTotal resolve (termsItems terms) throws s) →
            (t.roll (roll config resolve terms)).1 = .error .overflow)) := by
  have hroll : Throwing (roll config resolve terms : Rolling σ Outcome)
      (fun throws o => o.Exact resolve terms throws)
      fun throws => (Outcome.start terms).Overflows resolve (termsItems terms) throws := by
    have hnatural : (Outcome.start terms).tally.IsNatural := Tally.isNatural_zero
    have hspent : 0 + (thrownDice resolve (termsItems terms)).length ≤ config.maxDice := by omega
    refine (rollTerms_throwing terms hcounts hnatural hspent).bind ?_ fun _ => id
    rintro throws ⟨o, spent⟩ ⟨-, hadds⟩
    exact .pure (by simpa using hadds.exact)
  obtain ⟨cs, hcs, h⟩ := hroll t
  refine ⟨cs, hcs, fun hin => ?_⟩
  generalize (t.roll (roll config resolve terms)).1 = r at h ⊢
  cases r with
  | ok o =>
    obtain ⟨throws, hselects, hexact⟩ := h
    refine ⟨throws, hselects, hexact.map_die ▸ List.prefix_rfl, fun _ => ⟨o, rfl, hexact⟩,
      fun ⟨s, hs⟩ => ?_⟩
    have := hexact.symbolTotal_le s
    omega
  | error e =>
    obtain ⟨rfl, throws, hselects, hdice, s, hs⟩ := h hin
    rw [Outcome.start, Tally.get_zero, Int64.toInt_zero, Int.zero_add] at hs
    refine ⟨throws, hselects, hdice, fun hfits => ?_, fun _ => rfl⟩
    have := hfits s
    omega

/-- Two dice show three successes, and a group adds three triumphs and a die with one success. -/
theorem roll_exact_group :
    let terms : List Term := [.dice (.literal 2) .ability,
      .group "Aim" [.symbols (.literal 3) .triumph, .dice (.literal 1) .boost]]
    let run := (Tray.ofSource (Script.ofList [4, 2, 3])).roll (roll default .empty terms)
    (∀ i ∈ termsItems terms, i.count.IsNatural .empty) ∧
      (thrownDice .empty (termsItems terms)).length ≤ (default : Config).maxDice ∧
      ∃ o throws, run.1 = .ok o ∧ o.Exact .empty terms throws ∧
        throws.map Throw.die = [.ability, .ability, .boost] ∧ o.tally.success = 7 := by
  have hcounts : ∀ i ∈ termsItems [.dice (.literal 2) .ability,
      .group "Aim" [.symbols (.literal 3) .triumph, .dice (.literal 1) .boost]],
      i.count.IsNatural .empty := by
    simp only [termsItems, Term.items, List.singleton_append, List.append_nil,
      List.forall_mem_cons, Item.count]
    exact ⟨⟨2, rfl, by decide⟩, ⟨3, rfl, by decide⟩, ⟨1, rfl, by decide⟩, by simp⟩
  have hmax : (thrownDice .empty (termsItems [.dice (.literal 2) .ability,
      .group "Aim" [.symbols (.literal 3) .triumph, .dice (.literal 1) .boost]])).length ≤
      (default : Config).maxDice := by decide
  obtain ⟨cs, ⟨hcalls, -⟩, h⟩ := roll_exact hcounts hmax
    (Tray.ofSource (Script.ofList [4, 2, 3]))
  have hcs : cs = [⟨1, 8, 4⟩, ⟨1, 8, 2⟩, ⟨1, 6, 3⟩] := by
    rw [← List.nil_append cs]
    exact hcalls.symm.trans rfl
  obtain ⟨throws, -, -, hfits, hover⟩ := h (by simp [hcs, Call.InRange])
  obtain ⟨o, hrun, hsuccess⟩ : ∃ o, ((Tray.ofSource (Script.ofList [4, 2, 3])).roll
      (roll default .empty [.dice (.literal 2) .ability,
        .group "Aim" [.symbols (.literal 3) .triumph, .dice (.literal 1) .boost]])).1 = .ok o ∧
      o.tally.success = 7 := ⟨_, rfl, rfl⟩
  rw [hrun] at hfits hover
  obtain ⟨_, hr, hexact⟩ := hfits fun s => Int.not_lt.mp fun hs => nomatch hover ⟨s, hs⟩
  cases hr
  exact ⟨hcounts, hmax, o, throws, hrun, hexact, hexact.map_die.trans rfl, hsuccess⟩

end

end Tabletop.Narrative
