import Tabletop.Proofs.Narrative.Items
import Mathlib.Algebra.Order.BigOperators.Group.List
import Mathlib.Data.List.Infix

/-!
# Exact outcomes

The tally of narrative terms over unbounded integers, and outcomes that have it.

* `Tally.exists_lt_of_checked_eq_none`: natural counters that are no tally are too large.
* `Outcome.Exact`: an outcome has the dice and the tally of its terms, and so has the outcome of
  each group in it.
* `Outcome.AddsUp`: what some terms add to the outcome of those before them.
* `Outcome.Overflows`: the dice of some terms show too many of a symbol.
-/

namespace Tabletop.Narrative

/-! ## Tallies -/

/-- A face counts for a symbol by those of its own that count as it. -/
theorem Face.toInt_get_tally (f : Face) (s : Symbol) :
    (f.tally.get s).toInt = f.symbols.countP (·.countsAs s) := by
  have hsymbols : f.symbols.length ≤ 2 := by cases f <;> decide
  have hcount := List.countP_le_length (p := (·.countsAs s)) (l := f.symbols)
  rw [Face.tally, Tally.get_ofCounters, Int64.toInt_ofNat_of_lt (by omega)]

/-- A face shows no symbol a negative number of times. -/
theorem Face.tally_nonneg (f : Face) (s : Symbol) : 0 ≤ (f.tally.get s).toInt :=
  f.toInt_get_tally s ▸ Int.natCast_nonneg _

namespace Tally

@[simp] theorem get_zero (s : Symbol) : zero.get s = 0 :=
  get_ofCounters _ s

/-- Natural numbers that are not the counters of a tally include one that is too large. -/
theorem exists_lt_of_checked_eq_none {f : Symbol → Int} (hf : ∀ s, 0 ≤ f s)
    (h : checked f = none) : ∃ s, Int64.maxValue.toInt < f s := by
  by_contra hsmall
  have hrange : ∀ s, f s ≤ Int64.maxValue.toInt := fun s => Int.not_lt.mp fun hs => hsmall ⟨s, hs⟩
  have hmax : Int64.maxValue.toInt < 2 ^ 63 := by decide
  have hcounters : checked f = some (ofCounters fun s => Int64.ofInt (f s)) :=
    checked_eq_some_iff.mpr fun s => by
      have := hf s
      have := hrange s
      rw [get_ofCounters, Int64.toInt_ofInt_of_le (by omega) (by omega)]
  rw [h] at hcounters
  cases hcounters

theorem get_of_add? {t u v : Tally} (h : t.add? u = some v) (s : Symbol) :
    (v.get s).toInt = (t.get s).toInt + (u.get s).toInt :=
  checked_eq_some_iff.mp h s

theorem get_of_scale? {t u : Tally} {n : Nat} (h : t.scale? n = some u) (s : Symbol) :
    (u.get s).toInt = (t.get s).toInt * n :=
  checked_eq_some_iff.mp h s

/-- No counter is negative. -/
def IsNatural (t : Tally) : Prop :=
  ∀ s, 0 ≤ (t.get s).toInt

theorem isNatural_zero : zero.IsNatural := fun s => by simp

theorem IsNatural.add {t u v : Tally} (ht : t.IsNatural) (hu : u.IsNatural)
    (h : t.add? u = some v) : v.IsNatural := fun s => by
  rw [get_of_add? h]
  exact Int.add_nonneg (ht s) (hu s)

/-- A multiple is added, or some sum is too large. -/
theorem exists_lt_of_add_scale {t u : Tally} {n : Nat} (ht : t.IsNatural) (hu : u.IsNatural)
    (h : (u.scale? n).bind t.add? = none) :
    ∃ s, Int64.maxValue.toInt < (t.get s).toInt + (u.get s).toInt * n := by
  have hmul : ∀ s, 0 ≤ (u.get s).toInt * n := fun s => Int.mul_nonneg (hu s) (Int.natCast_nonneg n)
  cases hscale : u.scale? n with
  | none =>
    obtain ⟨s, hs⟩ := exists_lt_of_checked_eq_none hmul hscale
    have := ht s
    exact ⟨s, by omega⟩
  | some multiple =>
    rw [hscale, Option.bind_some] at h
    have hget := get_of_scale? hscale
    obtain ⟨s, hs⟩ := exists_lt_of_checked_eq_none
      (fun s => Int.add_nonneg (ht s) (hget s ▸ hmul s)) h
    exact ⟨s, hget s ▸ hs⟩

end Tally

/-! ## Groups by name -/

theorem keys_insertKey {α : Type} (key : String) (a : α) (l : List (String × α)) (k : String) :
    k ∈ (insertKey key a l).map Prod.fst ↔ k = key ∨ k ∈ l.map Prod.fst := by
  fun_induction insertKey key a l with
  | case1 => simp
  | case2 => simp
  | case3 b rest _ => simp
  | case4 k' b rest _ _ ih =>
    rw [List.map_cons, List.mem_cons, ih, List.map_cons, List.mem_cons]
    exact or_left_comm

theorem mem_of_mem_insertKey {α : Type} {key : String} {a : α} {l : List (String × α)}
    {p : String × α} (h : p ∈ insertKey key a l) : p = (key, a) ∨ p ∈ l := by
  fun_induction insertKey key a l with
  | case1 => simpa using h
  | case2 => simpa using h
  | case3 b rest _ =>
    rcases List.mem_cons.mp h with h | h
    · exact .inl h
    · exact .inr (List.mem_cons_of_mem _ h)
  | case4 k b rest _ _ ih =>
    rcases List.mem_cons.mp h with rfl | h
    · exact .inr List.mem_cons_self
    · exact (ih h).imp id (List.mem_cons_of_mem _)

namespace Outcome

/-- What the outcome of a group adds to that of the terms before it. -/
theorem addGroup?_eq_some_iff {o o' inner : Outcome} {name : String} :
    o.addGroup? name inner = some o' ↔ ∃ tally, o.tally.add? inner.tally = some tally ∧
      o' = { o with
        throws := o.throws ++ inner.throws
        tally
        groups := insertKey name inner
          (inner.groups.foldl (fun groups (k, g) => insertKey k g groups) o.groups) } := by
  rw [addGroup?, Option.bind_eq_bind, Option.bind_eq_some_iff]
  simp only [Option.pure_def, Option.some.injEq, eq_comm]

theorem keys_addGroup? {o o' inner : Outcome} {name : String}
    (h : o.addGroup? name inner = some o') (k : String) :
    k ∈ o'.groups.map Prod.fst ↔
      k ∈ o.groups.map Prod.fst ∨ k ∈ inner.groups.map Prod.fst ∨ k = name := by
  obtain ⟨tally, -, rfl⟩ := addGroup?_eq_some_iff.mp h
  have hfold : ∀ (l groups : List (String × Outcome)),
      k ∈ (l.foldl (fun groups (k, g) => insertKey k g groups) groups).map Prod.fst ↔
        k ∈ groups.map Prod.fst ∨ k ∈ l.map Prod.fst := by
    intro l
    induction l with
    | nil => simp
    | cons p l ih =>
      intro groups
      rw [List.foldl_cons, ih, keys_insertKey, List.map_cons, List.mem_cons]
      exact or_right_comm.trans or_comm
  rw [keys_insertKey, hfold]
  exact or_comm.trans or_assoc

theorem mem_groups_of_addGroup? {o o' inner : Outcome} {name : String}
    (h : o.addGroup? name inner = some o') {p : String × Outcome} (hp : p ∈ o'.groups) :
    p ∈ o.groups ∨ p ∈ inner.groups ∨ p = (name, inner) := by
  obtain ⟨tally, -, rfl⟩ := addGroup?_eq_some_iff.mp h
  have hfold : ∀ (l groups : List (String × Outcome)),
      p ∈ l.foldl (fun groups (k, g) => insertKey k g groups) groups → p ∈ groups ∨ p ∈ l := by
    intro l
    induction l with
    | nil => simp
    | cons q l ih =>
      intro groups hp
      rcases ih _ hp with hp | hp
      · rcases mem_of_mem_insertKey hp with rfl | hp
        · exact .inr List.mem_cons_self
        · exact .inl hp
      · exact .inr (List.mem_cons_of_mem _ hp)
  rcases mem_of_mem_insertKey hp with rfl | hp
  · exact .inr (.inr rfl)
  · exact (hfold _ _ hp).imp id .inl

end Outcome

/-! ## Exact outcomes -/

mutual

/-- The outcome has the throws and counts exactly their symbols and those added by the terms; its
groups are those of the terms, and the outcome of each is exact in the same way. -/
inductive Outcome.Exact (resolve : Resolver) : List Term → List Throw → Outcome → Prop
  | intro {terms : List Term} {throws : List Throw} {o : Outcome}
    (throws_eq : o.throws.toList = throws)
    (dice : throws.map Throw.die = thrownDice resolve (termsItems terms))
    (tally : ∀ s, (o.tally.get s).toInt = symbolTotal resolve (termsItems terms) throws s)
    (names : ∀ name, name ∈ o.groups.map Prod.fst ↔
      name ∈ (termsClosings resolve terms throws).map Closing.name)
    (groups : ∀ p ∈ o.groups,
      Outcome.ExactIn resolve (termsClosings resolve terms throws) p.1 p.2) :
    Outcome.Exact resolve terms throws o

/-- The outcome is exact for a group with that name. -/
inductive Outcome.ExactIn (resolve : Resolver) : List Closing → String → Outcome → Prop
  | intro {closings : List Closing} {closing : Closing} {o : Outcome} (mem : closing ∈ closings)
    (exact : Outcome.Exact resolve closing.terms closing.throws o) :
    Outcome.ExactIn resolve closings closing.name o

end

theorem Outcome.Exact.map_die {resolve : Resolver} {terms : List Term} {throws : List Throw}
    {o : Outcome} (h : o.Exact resolve terms throws) :
    throws.map Throw.die = thrownDice resolve (termsItems terms) := by
  cases h with
  | intro throws_eq dice tally names groups => exact dice

theorem Outcome.Exact.symbolTotal_le {resolve : Resolver} {terms : List Term}
    {throws : List Throw} {o : Outcome} (h : o.Exact resolve terms throws) (s : Symbol) :
    symbolTotal resolve (termsItems terms) throws s ≤ Int64.maxValue.toInt := by
  cases h with
  | intro throws_eq dice tally names groups => exact tally s ▸ Int64.toInt_le _

theorem Outcome.ExactIn.mono {resolve : Resolver} {closings more : List Closing} {name : String}
    {o : Outcome} (h : ExactIn resolve closings name o) (hsub : closings ⊆ more) :
    ExactIn resolve more name o := by
  cases h with
  | intro mem exact => exact .intro (hsub mem) exact

/-- What terms with the items and the groups add to an outcome. -/
structure Outcome.AddsUp (resolve : Resolver) (items : List Item) (closings : List Closing)
    (throws : List Throw) (o o' : Outcome) : Prop where
  throws_eq : o'.throws.toList = o.throws.toList ++ throws
  dice : throws.map Throw.die = thrownDice resolve items
  tally : ∀ s, (o'.tally.get s).toInt = (o.tally.get s).toInt + symbolTotal resolve items throws s
  names : ∀ name, name ∈ o'.groups.map Prod.fst ↔
    name ∈ o.groups.map Prod.fst ∨ name ∈ closings.map Closing.name
  groups : ∀ p ∈ o'.groups, p ∈ o.groups ∨ ExactIn resolve closings p.1 p.2

theorem map_die_map_mk (d : SymbolDie) (faces : List Face) :
    (faces.map (Throw.mk d)).map Throw.die = List.replicate faces.length d := by
  rw [List.map_map]
  exact List.map_const'

section

variable {resolve : Resolver} {items is js : List Item} {closings : List Closing}
  {throws more : List Throw} {o o₁ o₂ : Outcome}

theorem shownSymbols_nonneg (throws : List Throw) (s : Symbol) : 0 ≤ shownSymbols throws s := by
  refine List.sum_nonneg fun x hx => ?_
  obtain ⟨th, -, rfl⟩ := List.mem_map.mp hx
  exact th.face.tally_nonneg s

theorem addedSymbols_nonneg (resolve : Resolver) (items : List Item) (s : Symbol) :
    0 ≤ addedSymbols resolve items s := by
  refine List.sum_nonneg fun x hx => ?_
  obtain ⟨i, -, rfl⟩ := List.mem_map.mp hx
  cases i with
  | dice count d => exact Int.le_refl 0
  | symbols count f => exact Int.mul_nonneg (Int.natCast_nonneg _) (f.tally_nonneg s)

namespace Outcome

/-- The dice of the items are thrown in order until a counter would be too large. -/
def Overflows (resolve : Resolver) (items : List Item) (throws : List Throw) (o : Outcome) :
    Prop :=
  throws.map Throw.die <+: thrownDice resolve items ∧
    ∃ s, Int64.maxValue.toInt < (o.tally.get s).toInt + symbolTotal resolve items throws s

/-- Terms behind those that overflow add no negative number. -/
theorem Overflows.append_right (h : o.Overflows resolve is throws) (js : List Item) :
    o.Overflows resolve (is ++ js) throws := by
  obtain ⟨hdice, s, hs⟩ := h
  refine ⟨hdice.trans ?_, s, ?_⟩
  · rw [thrownDice_append]
    exact List.prefix_append _ _
  · have := addedSymbols_nonneg resolve js s
    rw [symbolTotal] at hs
    rw [symbolTotal, addedSymbols_append]
    omega

/-- What overflows by itself overflows behind other terms. -/
theorem Overflows.of_start {terms : List Term}
    (h : (start terms).Overflows resolve items throws) (ho : o.tally.IsNatural) :
    o.Overflows resolve items throws := by
  obtain ⟨hdice, s, hs⟩ := h
  rw [start, Tally.get_zero, Int64.toInt_zero, Int.zero_add] at hs
  have := ho s
  exact ⟨hdice, s, by omega⟩

namespace AddsUp

theorem append {closings' : List Closing} (h : o.AddsUp resolve is closings throws o₁)
    (h' : o₁.AddsUp resolve js closings' more o₂) :
    o.AddsUp resolve (is ++ js) (closings ++ closings') (throws ++ more) o₂ where
  throws_eq := by rw [h'.throws_eq, h.throws_eq, List.append_assoc]
  dice := by rw [List.map_append, h.dice, h'.dice, thrownDice_append]
  tally s := by
    rw [h'.tally, h.tally, symbolTotal_append]
    omega
  names name := by rw [h'.names, h.names, List.map_append, List.mem_append, or_assoc]
  groups p hp := by
    rcases h'.groups p hp with hp | hp
    · exact (h.groups p hp).imp id fun hin => hin.mono (List.subset_append_left _ _)
    · exact .inr (hp.mono (List.subset_append_right _ _))

theorem overflows_append (h : o.AddsUp resolve is closings throws o₁)
    (h' : o₁.Overflows resolve js more) : o.Overflows resolve (is ++ js) (throws ++ more) := by
  obtain ⟨hdice, s, hs⟩ := h'
  refine ⟨?_, s, ?_⟩
  · rw [List.map_append, h.dice, thrownDice_append]
    exact (List.prefix_append_right_inj _).mpr hdice
  · rw [h.tally] at hs
    rw [symbolTotal_append]
    omega

theorem isNatural (h : o.AddsUp resolve items closings throws o₁) (ho : o.tally.IsNatural) :
    o₁.tally.IsNatural := fun s => by
  have := ho s
  have := shownSymbols_nonneg throws s
  have := addedSymbols_nonneg resolve items s
  rw [h.tally, symbolTotal]
  omega

/-- What terms add to nothing is exact for them. -/
theorem exact {terms : List Term} (h : (start terms).AddsUp resolve (termsItems terms)
    (termsClosings resolve terms throws) throws o) : o.Exact resolve terms throws := by
  refine .intro h.throws_eq h.dice (fun s => ?_) (fun name => ?_) fun p hp =>
    (h.groups p hp).resolve_left List.not_mem_nil
  · rw [h.tally, start, Tally.get_zero]
    exact Int.zero_add _
  · rw [h.names]
    exact or_iff_right List.not_mem_nil

theorem ofDice (count : Count) {d : SymbolDie} {faces : List Face} {tally : Tally}
    (hlength : faces.length = count.amount resolve)
    (htally : ∀ s, (tally.get s).toInt =
      (o.tally.get s).toInt + shownSymbols (faces.map (Throw.mk d)) s) :
    o.AddsUp resolve [.dice count d] [] (faces.map (Throw.mk d))
      { o with throws := o.throws ++ faces.map (Throw.mk d), tally } where
  throws_eq := Array.toList_appendList
  dice := by rw [map_die_map_mk, hlength, thrownDice_dice]
  tally s := by rw [htally, symbolTotal, addedSymbols_dice, Int.add_zero]
  names _ := (or_iff_left List.not_mem_nil).symm
  groups _ hp := .inl hp

theorem ofSymbols (count : Count) {f : Face} {tally : Tally}
    (htally : ∀ s, (tally.get s).toInt =
      (o.tally.get s).toInt + addedSymbols resolve [.symbols count f] s) :
    o.AddsUp resolve [.symbols count f] [] [] { o with tally } where
  throws_eq := (List.append_nil _).symm
  dice := rfl
  tally s := by rw [htally, symbolTotal, shownSymbols_nil, Int.zero_add]
  names _ := (or_iff_left List.not_mem_nil).symm
  groups _ hp := .inl hp

protected theorem refl (o : Outcome) : o.AddsUp resolve [] [] [] o where
  throws_eq := (List.append_nil _).symm
  dice := rfl
  tally _ := (Int.add_zero _).symm
  names _ := (or_iff_left List.not_mem_nil).symm
  groups _ hp := .inl hp

/-- A group adds what its terms come to, and stands behind the groups in it. -/
theorem addGroup {terms : List Term} {name : String} {inner o' : Outcome}
    (h : (start terms).AddsUp resolve (termsItems terms) (termsClosings resolve terms throws)
      throws inner)
    (hadd : o.addGroup? name inner = some o') :
    o.AddsUp resolve (termsItems terms)
      (termsClosings resolve terms throws ++ [⟨name, terms, throws⟩]) throws o' := by
  obtain ⟨hthrows, hdice, htally, hnames, hgroups⟩ := h.exact
  have hsplit := addGroup?_eq_some_iff.mp hadd
  refine ⟨?_, hdice, fun s => ?_, fun k => ?_, fun p hp => ?_⟩
  · obtain ⟨tally, -, rfl⟩ := hsplit
    rw [Array.toList_append, hthrows]
  · obtain ⟨tally, hsum, rfl⟩ := hsplit
    rw [Tally.get_of_add? hsum, htally]
  · rw [keys_addGroup? hadd, hnames, List.map_append, List.mem_append, List.map_singleton,
      List.mem_singleton]
  · rcases mem_groups_of_addGroup? hadd hp with hp | hp | rfl
    · exact .inl hp
    · exact .inr ((hgroups p hp).mono (List.subset_append_left _ _))
    · have hlast : (⟨name, terms, throws⟩ : Closing) ∈
          termsClosings resolve terms throws ++ [⟨name, terms, throws⟩] :=
        List.mem_append_right _ List.mem_cons_self
      exact .inr (.intro hlast h.exact)

theorem overflows_addGroup {terms : List Term} {name : String} {inner : Outcome}
    (h : (start terms).AddsUp resolve (termsItems terms) closings throws inner)
    (ho : o.tally.IsNatural) (hadd : o.addGroup? name inner = none) :
    o.Overflows resolve (termsItems terms) throws := by
  have hsum : o.tally.add? inner.tally = none := by
    rw [addGroup?, Option.bind_eq_bind, Option.bind_eq_none_iff] at hadd
    exact Option.eq_none_iff_forall_ne_some.mpr fun tally htally => nomatch hadd tally htally
  have hinner := h.isNatural Tally.isNatural_zero
  obtain ⟨s, hs⟩ := Tally.exists_lt_of_checked_eq_none
    (fun s => Int.add_nonneg (ho s) (hinner s)) hsum
  refine ⟨h.dice ▸ List.prefix_rfl, s, ?_⟩
  rw [h.tally, start, Tally.get_zero, Int64.toInt_zero, Int.zero_add] at hs
  exact hs

end AddsUp

end Outcome

end

end Tabletop.Narrative
