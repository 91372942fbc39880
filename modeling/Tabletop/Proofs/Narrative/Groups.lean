import Tabletop.Proofs.Narrative.Gap
import Mathlib.Order.Lattice
import Mathlib.Data.String.Basic

/-!
# The groups of an outcome

An outcome keeps one outcome for each name that a group in it has. Groups are closed from the inside
out and from left to right, and of several groups of one name the one that is closed last is kept.

* `termsSites`: the groups in a list of terms, in the order in which they are closed.
* `Outcome.Logs o log o'`: the groups of `o'` are those of `o` after the entries of the log have
  been written, one after the other.
* `Site.Rolled`: what the group at a site comes to when a roll has reached it.
* `Outcome.Filed`: under each name there is what the last group of that name has come to, and the
  throws that were made for it are a block of the throws of the outcome; and the same is so within.
* `roll_filed`: the outcome of a roll is filed so.
-/

namespace Tabletop.Narrative

/-! ## Sorted by name -/

section

variable {α : Type}

/-- The names are in order, so that each of them stands once. -/
def SortedKeys (l : List (String × α)) : Prop :=
  (l.map Prod.fst).Pairwise (· < ·)

theorem List.lookup_cons_entry (key : String) (a : α) (l : List (String × α)) (k : String) :
    ((key, a) :: l).lookup k = if k = key then some a else l.lookup k := by
  rw [List.lookup_cons]
  by_cases hk : k = key
  · rw [beq_iff_eq.mpr hk, if_pos hk]
  · rw [beq_eq_false_iff_ne.mpr hk, if_neg hk]

/-- Writing an entry changes what stands under its name, and nothing else. -/
theorem lookup_insertKey (key : String) (a : α) (l : List (String × α)) (k : String) :
    (insertKey key a l).lookup k = if k = key then some a else l.lookup k := by
  fun_induction insertKey key a l with
  | case1 => exact List.lookup_cons_entry key a [] k
  | case2 k' b rest _ => exact List.lookup_cons_entry key a _ k
  | case3 b rest _ =>
    rw [List.lookup_cons_entry, List.lookup_cons_entry]
    split <;> rfl
  | case4 k' b rest _ hne ih =>
    rw [List.lookup_cons_entry, ih, List.lookup_cons_entry]
    by_cases hk : k = key
    · rw [if_pos hk, if_pos hk, if_neg (hk ▸ hne)]
    · rw [if_neg hk, if_neg hk]

theorem SortedKeys.insertKey (key : String) (a : α) {l : List (String × α)} (h : SortedKeys l) :
    SortedKeys (insertKey key a l) := by
  fun_induction Narrative.insertKey key a l with
  | case1 => simp [SortedKeys]
  | case2 k b rest hlt =>
    obtain ⟨hk, -⟩ := List.pairwise_cons.mp h
    refine List.pairwise_cons.mpr ⟨fun k' hk' => ?_, h⟩
    rcases List.mem_cons.mp hk' with rfl | hk'
    · exact hlt
    · exact lt_trans hlt (hk k' hk')
  | case3 b rest _ => exact h
  | case4 k b rest hlt hne ih =>
    obtain ⟨hk, hrest⟩ := List.pairwise_cons.mp h
    refine List.pairwise_cons.mpr ⟨fun k' hk' => ?_, ih hrest⟩
    rcases (keys_insertKey key a rest k').mp hk' with rfl | hk'
    · exact lt_of_le_of_ne (not_lt.mp hlt) (Ne.symm hne)
    · exact hk k' hk'

/-- Entries are written one after the other; what was there before stands where none has its
name. -/
theorem lookup_foldl_insertKey {l : List (String × α)} (h : SortedKeys l)
    (groups : List (String × α)) (k : String) :
    (l.foldl (fun groups (k, a) => insertKey k a groups) groups).lookup k =
      (l.lookup k).or (groups.lookup k) := by
  induction l generalizing groups with
  | nil => rfl
  | cons p l ih =>
    obtain ⟨key, a⟩ := p
    obtain ⟨hkey, hrest⟩ := List.pairwise_cons.mp h
    rw [List.foldl_cons, ih hrest, lookup_insertKey, List.lookup_cons_entry]
    by_cases hk : k = key
    · have hnone : l.lookup k = none := by
        refine List.lookup_eq_none_iff.mpr fun p hp => bne_iff_ne.mpr ?_
        exact hk ▸ (hkey p.1 (List.mem_map_of_mem hp)).ne
      rw [hnone, if_pos hk, if_pos hk, Option.none_or, Option.some_or]
    · rw [if_neg hk, if_neg hk]

theorem List.isSome_lookup_iff {l : List (String × α)} {k : String} :
    (l.lookup k).isSome = true ↔ k ∈ l.map Prod.fst := by
  rw [List.lookup_isSome_iff, List.mem_map]
  exact exists_congr fun p => and_congr_right fun _ => beq_iff_eq.trans eq_comm

/-- The last entry of a name is the first from behind. -/
theorem List.lookup_reverse_of_last {earlier later : List (String × α)} {k : String} (a : α)
    (h : ∀ p ∈ later, p.1 ≠ k) : (earlier ++ (k, a) :: later).reverse.lookup k = some a := by
  refine List.lookup_eq_some_iff.mpr ⟨later.reverse, earlier.reverse, by simp, fun p hp => ?_⟩
  exact bne_iff_ne.mpr (h p (List.mem_reverse.mp hp)).symm

theorem SortedKeys.foldl_insertKey (l : List (String × α)) {groups : List (String × α)}
    (h : SortedKeys groups) :
    SortedKeys (l.foldl (fun groups (k, a) => Narrative.insertKey k a groups) groups) := by
  induction l generalizing groups with
  | nil => exact h
  | cons p l ih => exact ih (h.insertKey p.1 p.2)

end

/-- The groups of `o'` are those of `o` after the entries have been written, the later over the
earlier. -/
structure Outcome.Logs (o : Outcome) (log : List (String × Outcome)) (o' : Outcome) : Prop where
  sorted : SortedKeys o.groups → SortedKeys o'.groups
  lookup : ∀ k, o'.groups.lookup k = (log.reverse.lookup k).or (o.groups.lookup k)

namespace Outcome.Logs

variable {o o₁ o₂ inner : Outcome} {log log' : List (String × Outcome)}

theorem of_groups_eq (h : o₁.groups = o.groups) : o.Logs [] o₁ :=
  ⟨fun hsorted => h ▸ hsorted, fun k => by rw [h]; rfl⟩

theorem append (h : o.Logs log o₁) (h' : o₁.Logs log' o₂) : o.Logs (log ++ log') o₂ where
  sorted hsorted := h'.sorted (h.sorted hsorted)
  lookup k := by
    rw [h'.lookup, h.lookup, List.reverse_append, List.lookup_append, Option.or_assoc]

/-- A group is written behind the groups in it. -/
theorem addGroup {terms : List Term} {name : String} (h : (start terms).Logs log inner)
    (hadd : o.addGroup? name inner = some o₁) : o.Logs (log ++ [(name, inner)]) o₁ := by
  obtain ⟨tally, -, rfl⟩ := addGroup?_eq_some_iff.mp hadd
  have hinner : SortedKeys inner.groups := h.sorted .nil
  refine ⟨fun hsorted => (hsorted.foldl_insertKey _).insertKey _ _, fun k => ?_⟩
  rw [lookup_insertKey, lookup_foldl_insertKey hinner, h.lookup, List.reverse_append,
    List.reverse_singleton, List.singleton_append, List.lookup_cons_entry]
  by_cases hk : k = name
  · rw [if_pos hk, if_pos hk, Option.some_or]
  · rw [if_neg hk, if_neg hk, start, List.lookup_nil, Option.or_none]

end Outcome.Logs

/-! ## Sites -/

/-- A group in a list of terms, with its place. -/
structure Site where
  gap : Gap
  name : String
  terms : List Term

namespace Site

/-- The group as a term. -/
def term (s : Site) : Term :=
  .group s.name s.terms

/-- The site as it is in a list in which its own list is the group `name`. -/
def within (before : List Term) (name : String) (after : List Term) (s : Site) : Site :=
  { s with gap := .within before name s.gap after }

end Site

mutual

/-- The groups in a term that stands between two lists of terms, in the order in which they are
closed: a group stands behind those in it. -/
def Term.sites (before after : List Term) : Term → List Site
  | .dice .. => []
  | .symbols .. => []
  | .group name terms =>
    (termsSites [] terms).map (Site.within before name after) ++
      [⟨.between before after, name, terms⟩]

/-- The groups in terms that stand behind others, in the order in which they are closed. -/
def termsSites (before : List Term) : List Term → List Site
  | [] => []
  | t :: terms => t.sites before terms ++ termsSites (before ++ [t]) terms

end

mutual

theorem fill_of_mem_sites {before after : List Term} {term : Term} {s : Site}
    (h : s ∈ term.sites before after) : s.gap.fill [s.term] = before ++ term :: after := by
  cases term with
  | dice count d => exact absurd h List.not_mem_nil
  | symbols count f => exact absurd h List.not_mem_nil
  | group name terms =>
    rw [Term.sites] at h
    rcases List.mem_append.mp h with h | h
    · obtain ⟨s', hs', rfl⟩ := List.mem_map.mp h
      change before ++ .group name (s'.gap.fill [s'.term]) :: after = _
      rw [fill_of_mem_termsSites hs', List.nil_append]
    · obtain rfl := List.mem_singleton.mp h
      simp [Gap.fill, Site.term]

/-- With its group in it, the gap of a site is the list of terms. -/
theorem fill_of_mem_termsSites {before terms : List Term} {s : Site}
    (h : s ∈ termsSites before terms) : s.gap.fill [s.term] = before ++ terms := by
  cases terms with
  | nil => exact absurd h List.not_mem_nil
  | cons term terms =>
    rw [termsSites] at h
    rcases List.mem_append.mp h with h | h
    · exact fill_of_mem_sites h
    · rw [fill_of_mem_termsSites h, List.append_assoc, List.singleton_append]

end

theorem sites_subset (before terms : List Term) (term : Term) (after : List Term) :
    term.sites (before ++ terms) after ⊆ termsSites before (terms ++ term :: after) := by
  induction terms generalizing before with
  | nil =>
    rw [List.append_nil, List.nil_append, termsSites]
    exact List.subset_append_left _ _
  | cons t terms ih =>
    rw [List.cons_append, termsSites]
    have hrest := ih (before ++ [t])
    rw [List.append_assoc, List.singleton_append] at hrest
    exact List.subset_append_of_subset_right _ hrest

/-- The sites are the groups at any depth. -/
theorem mem_termsSites_iff {terms : List Term} {s : Site} :
    s ∈ termsSites [] terms ↔ terms = s.gap.fill [s.term] := by
  constructor
  · intro h
    rw [fill_of_mem_termsSites h, List.nil_append]
  · rintro rfl
    obtain ⟨g, name, inner⟩ := s
    change _ ∈ termsSites [] (g.fill [.group name inner])
    induction g with
    | between before after =>
      rw [Gap.fill, List.append_assoc]
      refine sites_subset [] before _ after ?_
      rw [Term.sites]
      exact List.mem_append_right _ List.mem_cons_self
    | within before name' g after ih =>
      refine sites_subset [] before _ after ?_
      rw [Term.sites]
      exact List.mem_append_left _ (List.mem_map_of_mem (f := Site.within before name' after) ih)

/-- The terms of a group are smaller than those that the group is among. -/
theorem sizeOf_lt_fill (g : Gap) (name : String) (terms : List Term) :
    sizeOf terms < sizeOf (g.fill [.group name terms]) := by
  have hgroup : ∀ (name : String) (inner terms : List Term), .group name inner ∈ terms →
      sizeOf inner < sizeOf terms := by
    intro name inner terms h
    have := List.sizeOf_lt_of_mem h
    rw [Term.group.sizeOf_spec] at this
    omega
  induction g with
  | between before after => exact hgroup name _ _ (by simp [Gap.fill])
  | within before name' g after ih => exact ih.trans (hgroup name' _ _ (by simp [Gap.fill]))

/-! ## What groups come to -/

section

variable {σ : Type} [Source σ] {config : Config} {resolve : Resolver}

/-- A roll that goes on from `o` and the tray `t` reaches the site, where it has charged for `paid`
dice and has left the tray `t₁`. There the group comes to `r`, which leaves the tray `t₂`. -/
def Site.Rolled (config : Config) (resolve : Resolver) (o : Outcome) (spent : Nat) (t : Tray σ)
    (s : Site) (paid : Nat) (t₁ : Tray σ) (r : Outcome) (t₂ : Tray σ) : Prop :=
  ∃ o₁ paid₂, t.roll (s.gap.reach config resolve [s.term] o spent) = (.ok (o₁, paid), t₁) ∧
    t₁.roll (rollTerms config resolve (.start s.terms) paid s.terms) = (.ok (r, paid₂), t₂)

/-- What is in a group is rolled when the terms before the group have been. -/
theorem Site.Rolled.within {o o₁ : Outcome} {spent spent₁ paid : Nat} {t t₁ t₂ t₃ : Tray σ}
    {s : Site} {r : Outcome} {before after terms : List Term} {name : String}
    (hs : s ∈ termsSites [] terms)
    (hbefore : t.roll (rollTerms config resolve o spent before) = (.ok (o₁, spent₁), t₁))
    (h : s.Rolled config resolve (.start terms) spent₁ t₁ paid t₂ r t₃) :
    (s.within before name after).Rolled config resolve o spent t paid t₂ r t₃ := by
  obtain ⟨o₂, paid₂, hreach, hroll⟩ := h
  rw [mem_termsSites_iff.mp hs] at hreach
  exact ⟨o₂, paid₂, (Tray.roll_bind_of_ok hbefore _).trans hreach, hroll⟩

mutual

theorem exists_log_of_rollTerm {o₀ o o' : Outcome} {spent₀ spent paid : Nat} {t₀ t t' : Tray σ}
    {before : List Term} {term : Term} (after : List Term)
    (hbefore : t₀.roll (rollTerms config resolve o₀ spent₀ before) = (.ok (o, spent), t))
    (h : t.roll (rollTerm config resolve o spent term) = (.ok (o', paid), t')) :
    ∃ log : List (Site × Outcome), log.map Prod.fst = term.sites before after ∧
      o.Logs (log.map fun (s, r) => (s.name, r)) o' ∧
      ∀ p ∈ log, ∃ paid t₁ t₂, p.1.Rolled config resolve o₀ spent₀ t₀ paid t₁ p.2 t₂ := by
  cases term with
  | dice count d =>
    obtain ⟨_, _, rfl⟩ := eq_of_roll_dice h
    exact ⟨[], rfl, .of_groups_eq rfl, nofun⟩
  | symbols count f =>
    obtain ⟨_, rfl⟩ := eq_of_roll_symbols h
    exact ⟨[], rfl, .of_groups_eq rfl, nofun⟩
  | group name terms =>
    obtain ⟨inner, hinner, hadd⟩ := roll_group_eq_ok_iff.mp h
    obtain ⟨log, hsites, hlog, hrolled⟩ :=
      exists_log_of_rollTerms (roll_rollTerms_nil t (.start terms) spent) hinner
    refine ⟨log.map (fun p => (p.1.within before name after, p.2)) ++
      [(⟨.between before after, name, terms⟩, inner)], ?_, ?_, ?_⟩
    · rw [Term.sites, ← hsites, List.map_append, List.map_map, List.map_map]
      rfl
    · have hadded := hlog.addGroup hadd
      rw [List.map_append, List.map_map]
      exact hadded
    · refine List.forall_mem_append.mpr ⟨fun p hp => ?_, fun p hp => ?_⟩
      · obtain ⟨q, hq, rfl⟩ := List.mem_map.mp hp
        obtain ⟨paid, t₁, t₂, hroll⟩ := hrolled q hq
        have hmem : q.1 ∈ termsSites [] terms := hsites ▸ List.mem_map_of_mem hq
        exact ⟨paid, t₁, t₂, .within hmem hbefore hroll⟩
      · obtain rfl := List.mem_singleton.mp hp
        exact ⟨spent, t, t', o, paid, hbefore, hinner⟩

/-- Terms that are rolled write what their groups come to, in the order in which these are
closed. -/
theorem exists_log_of_rollTerms {o₀ o o' : Outcome} {spent₀ spent paid : Nat} {t₀ t t' : Tray σ}
    {before terms : List Term}
    (hbefore : t₀.roll (rollTerms config resolve o₀ spent₀ before) = (.ok (o, spent), t))
    (h : t.roll (rollTerms config resolve o spent terms) = (.ok (o', paid), t')) :
    ∃ log : List (Site × Outcome), log.map Prod.fst = termsSites before terms ∧
      o.Logs (log.map fun (s, r) => (s.name, r)) o' ∧
      ∀ p ∈ log, ∃ paid t₁ t₂, p.1.Rolled config resolve o₀ spent₀ t₀ paid t₁ p.2 t₂ := by
  cases terms with
  | nil =>
    rw [rollTerms] at h
    cases h
    exact ⟨[], rfl, .of_groups_eq rfl, nofun⟩
  | cons term terms =>
    rw [rollTerms] at h
    obtain ⟨⟨o₁, spent₁⟩, t₁, hterm, hterms⟩ := Tray.roll_bind_eq_ok_iff.mp h
    obtain ⟨log, hsites, hlog, hrolled⟩ := exists_log_of_rollTerm terms hbefore hterm
    have hbehind : t₀.roll (rollTerms config resolve o₀ spent₀ (before ++ [term])) =
        (.ok (o₁, spent₁), t₁) := by
      rw [rollTerms_append, Tray.roll_bind_of_ok hbefore]
      dsimp only
      rw [rollTerms_singleton, hterm]
    obtain ⟨log', hsites', hlog', hrolled'⟩ := exists_log_of_rollTerms hbehind hterms
    refine ⟨log ++ log', ?_, ?_, List.forall_mem_append.mpr ⟨hrolled, hrolled'⟩⟩
    · rw [List.map_append, hsites, hsites', termsSites]
    · rw [List.map_append]
      exact hlog.append hlog'

end

/-! ## Filed outcomes -/

mutual

/-- The outcome `o` of terms that were rolled from the tray `t`, with `spent` dice charged for
before, to the tray `t'`: it has the text of the terms, and an entry for each name of a group in
them, at any depth, which is that of the last such group. -/
inductive Outcome.Filed (config : Config) (resolve : Resolver) :
    List Term → Nat → Tray σ → Outcome → Tray σ → Prop
  | intro {terms : List Term} {spent : Nat} {t t' : Tray σ} {o : Outcome}
    (text : o.text = termsText terms)
    (sorted : SortedKeys o.groups)
    (names : ∀ name, name ∈ o.groups.map Prod.fst ↔
      ∃ (g : Gap) (inner : List Term), terms = g.fill [.group name inner])
    (last : ∀ (earlier : List Site) (s : Site) (later : List Site),
      termsSites [] terms = earlier ++ s :: later → (∀ s' ∈ later, s'.name ≠ s.name) →
      Outcome.FiledAt config resolve terms spent t s o t') :
    Outcome.Filed config resolve terms spent t o t'

/-- The entry in `o` of the group at the site: what the group has come to there, from the tray `t₁`
to the tray `t₂`, with the block of the throws that was made then. -/
inductive Outcome.FiledAt (config : Config) (resolve : Resolver) :
    List Term → Nat → Tray σ → Site → Outcome → Tray σ → Prop
  | intro {terms : List Term} {spent paid : Nat} {t t₁ t₂ t' : Tray σ} {s : Site} {o r : Outcome}
    {throws more : List Throw}
    (rolled : s.Rolled config resolve (.start terms) spent t paid t₁ r t₂)
    (entry : (s.name, r) ∈ o.groups)
    (before : t.Throws throws t₁)
    (within : t₁.Throws r.throws.toList t₂)
    (after : t₂.Throws more t')
    (block : o.throws.toList = throws ++ r.throws.toList ++ more)
    (filed : Outcome.Filed config resolve s.terms paid t₁ r t₂) :
    Outcome.FiledAt config resolve terms spent t s o t'

end

/-- The throws of the group at a site are a block of all throws. -/
theorem Site.Rolled.block {s : Site} {terms : List Term} {o r : Outcome} {spent paid paid₁ : Nat}
    {t t₁ t₂ t' : Tray σ} (hs : s ∈ termsSites [] terms)
    (h : t.roll (rollTerms config resolve (.start terms) spent terms) = (.ok (o, paid), t'))
    (hrolled : s.Rolled config resolve (.start terms) spent t paid₁ t₁ r t₂) :
    ∃ throws more, t.Throws throws t₁ ∧ t₁.Throws r.throws.toList t₂ ∧ t₂.Throws more t' ∧
      o.throws.toList = throws ++ r.throws.toList ++ more := by
  obtain ⟨o₁, paid₂, hreach, hroll⟩ := hrolled
  have hfill : t.roll (rollTerms config resolve (.start terms) spent (s.gap.fill [s.term])) =
      (.ok (o, paid), t') := by rw [← mem_termsSites_iff.mp hs, h]
  obtain ⟨_, _, _, o₂, _, _, hreach', hterm, throws, mid, more, hbefore, hmid, hafter, heq,
    hthrows⟩ := Gap.roll_fill_of_ok hfill
  cases hreach.symm.trans hreach'
  rw [rollTerms_singleton] at hterm
  obtain ⟨inner, hinner, hadd⟩ := roll_group_eq_ok_iff.mp hterm
  cases hroll.symm.trans hinner
  obtain ⟨tally, -, rfl⟩ := Outcome.addGroup?_eq_some_iff.mp hadd
  obtain rfl : r.throws.toList = mid :=
    List.append_cancel_left (Array.toList_append.symm.trans heq)
  exact ⟨throws, more, hbefore, hmid, hafter, hthrows⟩

section

variable {terms : List Term} {o : Outcome} {log log' : List (Site × Outcome)}

/-- There is an entry for a name if it has been written, that is if a group has it. -/
theorem mem_names_iff_of_lookup (hsites : log.map Prod.fst = termsSites [] terms)
    (hentry : ∀ k, o.groups.lookup k = (log.map fun (s, r) => (s.name, r)).reverse.lookup k)
    (name : String) :
    name ∈ o.groups.map Prod.fst ↔
      ∃ (g : Gap) (inner : List Term), terms = g.fill [.group name inner] := by
  have hnames : (log.map fun (s, r) => (s.name, r)).map Prod.fst =
      (termsSites [] terms).map Site.name := by
    rw [← hsites, List.map_map, List.map_map]
    rfl
  rw [← List.isSome_lookup_iff, hentry, List.isSome_lookup_iff, List.map_reverse,
    List.mem_reverse, hnames, List.mem_map]
  constructor
  · rintro ⟨s, hs, rfl⟩
    exact ⟨s.gap, s.terms, mem_termsSites_iff.mp hs⟩
  · rintro ⟨g, inner, hfill⟩
    exact ⟨⟨g, name, inner⟩, mem_termsSites_iff.mpr hfill, rfl⟩

/-- What was written last under a name is the entry. -/
theorem mem_groups_of_last {s : Site} {r : Outcome}
    (hentry : ∀ k, o.groups.lookup k =
      ((log ++ (s, r) :: log').map fun (s, r) => (s.name, r)).reverse.lookup k)
    (hlast : ∀ s' ∈ log'.map Prod.fst, s'.name ≠ s.name) : (s.name, r) ∈ o.groups := by
  have hfound := hentry s.name
  rw [List.map_append, List.map_cons, List.lookup_reverse_of_last] at hfound
  · obtain ⟨l₁, l₂, hgroups, -⟩ := List.lookup_eq_some_iff.mp hfound
    rw [hgroups]
    exact List.mem_append_right _ List.mem_cons_self
  · intro p hp
    obtain ⟨q, hq, rfl⟩ := List.mem_map.mp hp
    exact hlast q.1 (List.mem_map_of_mem hq)

end

/-- Terms that are rolled from nothing come to an outcome that is filed. -/
theorem filed_of_rollTerms (terms : List Term) {spent paid : Nat} {t t' : Tray σ} {o : Outcome}
    (h : t.roll (rollTerms config resolve (.start terms) spent terms) = (.ok (o, paid), t')) :
    o.Filed config resolve terms spent t t' := by
  obtain ⟨log, hsites, ⟨hsorted, hlookup⟩, hrolled⟩ :=
    exists_log_of_rollTerms (roll_rollTerms_nil t (.start terms) spent) h
  have hentry : ∀ k, o.groups.lookup k =
      (log.map fun (s, r) => (s.name, r)).reverse.lookup k := fun k => by
    rw [hlookup, Outcome.start, List.lookup_nil, Option.or_none]
  refine .intro (text_of_rollTerms h) (hsorted .nil) (mem_names_iff_of_lookup hsites hentry)
    fun earlier s later hsplit hlast => ?_
  rw [hsplit] at hsites
  obtain ⟨log₁, log₂, rfl, -, hlog₂⟩ := List.map_eq_append_iff.mp hsites
  obtain ⟨⟨s', r⟩, log₃, rfl, rfl, rfl⟩ := List.map_eq_cons_iff.mp hlog₂
  obtain ⟨paid₁, t₁, t₂, hroll⟩ := hrolled (s', r) (by simp)
  have hmem : s' ∈ termsSites [] terms := by simp [hsplit]
  obtain ⟨throws, more, hbefore, hwithin, hafter, hblock⟩ := hroll.block hmem h
  refine .intro hroll (mem_groups_of_last hentry hlast) hbefore hwithin hafter hblock ?_
  obtain ⟨_, _, _, hgroup⟩ := hroll
  exact filed_of_rollTerms s'.terms hgroup
termination_by sizeOf terms
decreasing_by
  rw [mem_termsSites_iff.mp hmem]
  exact sizeOf_lt_fill _ _ _

/-- In the outcome of a roll, and within the outcome of every group of it, there is an entry for a
name just if some group has that name, and it is what the last of these groups to be closed has come
to: it has the text of the terms of that group, and its throws are a block of all throws, made while
that group was rolled. -/
theorem roll_filed {terms : List Term} {t t' : Tray σ} {o : Outcome}
    (h : t.roll (roll config resolve terms) = (.ok o, t')) :
    o.Filed config resolve terms 0 t t' := by
  obtain ⟨⟨o₁, paid⟩, t₁, hterms, h⟩ := Tray.roll_bind_eq_ok_iff.mp h
  cases h
  exact filed_of_rollTerms terms hterms

/-- Of two groups of one name, the one in another group is closed last. -/
theorem roll_filed_repeated :
    let terms : List Term := [.group "b" [.dice (.literal 1) .ability],
      .group "a" [.group "b" [.dice (.literal 1) .boost], .symbols (.literal 2) .success]]
    ∃ (o : Outcome) (t' : Tray Script),
      (Tray.ofSource (Script.ofList [2, 3])).roll (roll default .empty terms) = (.ok o, t') ∧
      (o.groups.map fun (name, g) => (name, g.throws.toList)) =
        [("a", [⟨.boost, .success⟩]), ("b", [⟨.boost, .success⟩])] ∧
      o.Filed default .empty terms 0 (Tray.ofSource (Script.ofList [2, 3])) t' :=
  ⟨_, _, rfl, rfl, roll_filed rfl⟩

end

end Tabletop.Narrative
