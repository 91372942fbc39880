import Tabletop.Proofs.Dice.Checking

/-!
# Drawing that ends

The check for modifiers that could draw forever looks at the condition and at the number of sides
alone. It is exact: a modifier that it refuses never comes to an end, on any source, and of one that
it passes there is a face that ends it at once.

* `AlwaysGives s face`: whatever the source is asked for, it answers with the face.
* `Pool.Chaining.extend_ne_ok`, `Pool.generations_ne_ok`: where every face asks for another, nothing
  comes to an end.
* `Pool.Chaining.exists_extend_eq_ok`, `Pool.exists_generations_eq_ok`: where the face drawn asks
  for no other, there is one draw for each die that meets the condition.
* `Modifier.endless_exact`: both for every modifier that is checked.
-/

namespace Tabletop

variable {σ : Type} [Source σ] {t t' : Tray σ} {sides face : Int64}

/-! ## Sources with one answer -/

/-- Whatever the source is asked for from now on, it answers with the face. -/
def AlwaysGives (s : σ) (face : Int64) : Prop :=
  ∀ (cs : List Call) (s' : σ), Answers s cs s' → ∀ c ∈ cs, c.value = face

/-- From such a source any number of dice can be drawn that have the face. -/
theorem AlwaysGives.exists_draws (h : AlwaysGives t.source face) (hlow : 1 ≤ face)
    (hhigh : face ≤ sides) (n : Nat) : ∃ t', t.Draws sides (List.replicate n face) t' := by
  induction n generalizing t with
  | zero => exact ⟨t, Tray.draws_nil t sides⟩
  | succ n ih =>
    obtain ⟨hcalls, hanswers⟩ := Tray.call_eq_iff.mp (rfl : t.call 1 sides = _)
    have hvalue : (t.call 1 sides).1 = face := h _ _ hanswers _ List.mem_cons_self
    have hlater : AlwaysGives (t.call 1 sides).2.source face := fun cs s' hcs c hc =>
      h _ s' (answers_append_iff.mpr ⟨_, hanswers, hcs⟩) c (List.mem_append_right _ hc)
    obtain ⟨t', hdraws⟩ := ih hlater
    have hface : t.roll (Rolling.draw sides) = (.ok face, (t.call 1 sides).2) :=
      Tray.roll_draw_eq_ok_iff.mpr ⟨Prod.ext hvalue rfl, hlow, hhigh⟩
    exact ⟨t', Tray.draws_cons_iff.mpr ⟨_, hface, hdraws⟩⟩

/-- A script of one number gives that number over and over again. -/
theorem Script.constant_alwaysGives (face : Int64) : AlwaysGives (Script.constant face) face := by
  suffices h : ∀ k, AlwaysGives (⟨#[face], k⟩ : Script) face from h 0
  intro k cs
  induction cs generalizing k with
  | nil => simp
  | cons c cs ih =>
    have hnext : Source.next (⟨#[face], k⟩ : Script) c.low c.high = (face, ⟨#[face], k + 1⟩) := by
      change Script.next ⟨#[face], k⟩ c.low = _
      simp [Script.next, Nat.mod_one]
    rintro s' ⟨hvalue, hcs⟩
    rw [hnext] at hvalue hcs
    exact List.forall_mem_cons.mpr ⟨hvalue.symm, ih (k + 1) s' hcs⟩

namespace Pool

variable {c : Comparison} {p p' : Pool} {d : Die} {limit n : Nat}

/-! ## Drawing without an end -/

/-- If every face asks for another, a chain never ends, so nothing comes of the dice of which one
meets the condition. -/
theorem Chaining.extend_ne_ok {f : Die → Rolling σ (Die × List Die)} {R : Die → List Int64 → Prop}
    {a : Die → List Int64 → Die} {b : List Int64 → List Die} (h : Chaining c p.sides f R a b)
    (hR : ∀ d faces, R d faces → CompleteChain c.accepts faces)
    (hall : ∀ face, 1 ≤ face → face ≤ p.sides → c.accepts face = true) (hd : d ∈ p.dice)
    (hmeets : d.meets c = true) : t.roll (p.extend c f) ≠ (.ok p', t') := by
  intro hok
  obtain ⟨chains, hchains, hdraws, -⟩ := h.extend_eq_ok_iff.mp hok
  obtain ⟨i, hi⟩ := List.mem_iff_getElem?.mp hd
  have hlt : i < chains.length := hchains.length_eq ▸ (List.getElem?_eq_some_iff.mp hi).1
  have hfaces := drawnFor_of_getElem? hchains hi (List.getElem?_eq_getElem hlt)
  obtain ⟨init, last, hchain, -, hlast⟩ := hR d _ ((drawnFor_of_meets hmeets).mp hfaces)
  have hmem : last ∈ chains.flatten :=
    List.mem_flatten.mpr ⟨chains[i], List.getElem_mem hlt, by simp [hchain]⟩
  obtain ⟨hlow, hhigh⟩ := hdraws.mem last hmem
  rw [hall last hlow hhigh] at hlast
  cases hlast

/-- If every face asks for another, each generation brings a next one, up to the last that there
may be. -/
theorem generations_ne_ok {dice ds : List Die}
    (hall : ∀ face, 1 ≤ face → face ≤ sides → c.accepts face = true)
    (h : dice.countP (Die.meets c) ≠ 0) :
    t.roll (generations c sides limit n dice) ≠ (.ok ds, t') := by
  intro hok
  induction n generalizing t dice ds with
  | zero =>
    rw [generations_zero h, Tray.roll_throw] at hok
    cases hok
  | succ n ih =>
    obtain ⟨hzero, -⟩ | ⟨-, _, faces, later, t₁, ⟨⟩, hfaces, hlater, -⟩ :=
      generations_eq_ok_iff.mp hok
    · exact h hzero
    · obtain ⟨hlength, hdraws⟩ := Rolling.draws_of_drawFaces hfaces
      have hagain : (faces.map (Die.drawn sides .kept)).countP (Die.meets c) = faces.length := by
        refine List.countP_map.trans (List.countP_eq_length.mpr fun face hface => ?_)
        obtain ⟨hlow, hhigh⟩ := hdraws.mem face hface
        simp [Die.meets, Die.isKept, Die.drawn, hall face hlow hhigh]
      exact ih (by rwa [hagain, hlength]) hlater

/-! ## Drawing that ends at once -/

/-- One and the same face drawn for each die that meets the condition. -/
theorem exists_drawnFor_single {R : Die → List Int64 → Prop} {dice : List Die}
    (h : ∀ d ∈ dice, d.meets c = true → R d [face]) :
    ∃ chains, List.Forall₂ (DrawnFor c R) dice chains ∧
      chains.flatten = List.replicate (dice.countP (Die.meets c)) face := by
  induction dice with
  | nil => exact ⟨[], .nil, rfl⟩
  | cons d dice ih =>
    obtain ⟨hfirst, hrest⟩ := List.forall_mem_cons.mp h
    obtain ⟨chains, hchains, hflatten⟩ := ih hrest
    by_cases hd : d.meets c = true
    · refine ⟨[face] :: chains, .cons ((drawnFor_of_meets hd).mpr (hfirst hd)) hchains, ?_⟩
      rw [List.countP_cons_of_pos hd, List.replicate_succ, List.flatten_cons, hflatten]
      rfl
    · refine ⟨[] :: chains, .cons ((drawnFor_of_not_meets hd).mpr rfl) hchains, ?_⟩
      rw [List.countP_cons_of_neg hd, List.flatten_cons, hflatten]
      rfl

/-- If one face is a chain for every die that meets the condition, one draw is made for each. -/
theorem Chaining.exists_extend_eq_ok {f : Die → Rolling σ (Die × List Die)}
    {R : Die → List Int64 → Prop} {a : Die → List Int64 → Die} {b : List Int64 → List Die}
    (h : Chaining c p.sides f R a b) (hR : ∀ d ∈ p.dice, d.meets c = true → R d [face])
    (hdraws : t.Draws p.sides (List.replicate (p.dice.countP (Die.meets c)) face) t') :
    ∃ p', t.roll (p.extend c f) = (.ok p', t') := by
  obtain ⟨chains, hchains, hflatten⟩ := exists_drawnFor_single hR
  exact ⟨_, h.extend_eq_ok_iff.mpr ⟨chains, hchains, hflatten ▸ hdraws, rfl⟩⟩

/-- If the face asks for no other, the first generation is the last one. -/
theorem exists_generations_eq_ok {dice : List Die} (limit : Nat) (hn : 1 ≤ n)
    (hquiet : c.accepts face = false)
    (hdraws : t.Draws sides (List.replicate (dice.countP (Die.meets c)) face) t') :
    ∃ ds, t.roll (generations c sides limit n dice) = (.ok ds, t') := by
  obtain ⟨m, rfl⟩ := Nat.exists_eq_add_of_le' hn
  by_cases hzero : dice.countP (Die.meets c) = 0
  · rw [hzero, List.replicate_zero, Tray.draws_nil_iff] at hdraws
    rw [generations_quiet hzero, hdraws]
    exact ⟨dice, rfl⟩
  · have hfaces := Rolling.drawFaces_of_draws hdraws
    rw [List.length_replicate] at hfaces
    have hlast : ((List.replicate (dice.countP (Die.meets c)) face).map
        (Die.drawn sides .kept)).countP (Die.meets c) = 0 := by
      simp [List.countP_replicate, Die.meets, Die.drawn, hquiet]
    have hlater : t'.roll (generations c sides limit m _) = (.ok _, t') :=
      (congrArg t'.roll (generations_quiet hlast)).trans (Tray.roll_pure t' _)
    exact ⟨_, generations_eq_ok_iff.mpr (.inr ⟨hzero, m, _, _, t', rfl, hfaces, hlater, rfl⟩)⟩

/-- If the face asks for no other, one is added onto each die that meets the condition, up to the
first die that has no room for it. -/
theorem compound_single (hquiet : c.accepts face = false) (hlimit : 1 ≤ limit) (hlow : 1 ≤ face)
    (hhigh : face ≤ p.sides) (hgives : AlwaysGives t.source face) :
    (∃ p' t', t.roll (p.compound c limit) = (.ok p', t') ∧
      t.Draws p.sides (List.replicate (p.dice.countP (Die.meets c)) face) t') ∨
    ∃ earlier d later t', p.dice = earlier ++ d :: later ∧ d.meets c = true ∧
      Int64.maxValue.toInt < d.face.toInt + face.toInt ∧
      t.roll (p.compound c limit) = (.error .overflow, t') ∧
      t.Draws p.sides (List.replicate (earlier.countP (Die.meets c) + 1) face) t' := by
  have hone : 1 ≤ face.toInt := Int64.le_iff_toInt_le.mp hlow
  -- a die with room for the face takes it over, and that is its whole chain
  have hadds (d : Die) (hroom : ¬Int64.maxValue.toInt < d.face.toInt + face.toInt) :
      AddsOnto c limit d [face] := by
    have hfits : d.face.toInt + (face.toInt + 0) ≤ Int64.maxValue.toInt := by omega
    obtain ⟨total, -, htotal⟩ := exists_checked_add hone (Int.le_refl 0) hfits
    exact ⟨completeChain_singleton hquiet, hlimit, total, by simpa using htotal⟩
  cases hfull : p.dice.find? fun d =>
      d.meets c && decide (Int64.maxValue.toInt < d.face.toInt + face.toInt) with
  | none =>
    have hroom : ∀ d ∈ p.dice, d.meets c = true → AddsOnto c limit d [face] := by
      intro d hd hmeets
      have hnot := List.find?_eq_none.mp hfull d hd
      exact hadds d (by simpa [hmeets] using hnot)
    obtain ⟨t', hdraws⟩ := hgives.exists_draws hlow hhigh (p.dice.countP (Die.meets c))
    obtain ⟨p', hok⟩ := (compound_chaining c limit p.sides).exists_extend_eq_ok hroom hdraws
    exact .inl ⟨p', t', hok, hdraws⟩
  | some d =>
    obtain ⟨hd, earlier, later, hdice, hearlier⟩ := List.find?_eq_some_iff_append.mp hfull
    rw [Bool.and_eq_true, decide_eq_true_eq] at hd
    have hroom : ∀ d ∈ earlier, d.meets c = true → AddsOnto c limit d [face] := by
      intro d hd hmeets
      have hnot := hearlier d hd
      exact hadds d (by simpa [hmeets] using hnot)
    obtain ⟨chains, hchains, hflatten⟩ := exists_drawnFor_single hroom
    obtain ⟨t', hdraws⟩ := hgives.exists_draws hlow hhigh (earlier.countP (Die.meets c) + 1)
    refine .inr ⟨earlier, d, later, t', hdice, hd.1, hd.2, ?_, hdraws⟩
    rw [List.replicate_succ', ← hflatten] at hdraws
    refine compound_eq_overflow_iff.mpr ⟨earlier, d, later, chains, [face], hdice, hd.1, hchains,
      ⟨[], face, rfl, hlimit, by simp, ?_, ?_⟩, hdraws⟩
    · simpa using d.face.toInt_le
    · simpa using hd.2

end Pool

/-! ## The check -/

namespace Modifier

variable {m : Modifier} {c : Comparison} {p p' : Pool} {config : Config}

/-- A modifier that could draw forever comes to nothing where a die sets it off. -/
theorem modify_ne_ok_of_endless (hm : m.Endless p.sides c) {d : Die} (hd : d ∈ p.dice)
    (hmeets : d.meets c = true) : t.roll (p.modify config m) ≠ (.ok p', t') := by
  obtain ⟨hdraws, hall⟩ := hm
  obtain ⟨r, own, rfl, hrepeats, rfl⟩ := drawsWhile_iff.mp hdraws
  cases r with
  | reroll =>
    refine (Pool.reroll_chaining _ false config.maxChain p.sides).extend_ne_ok ?_ hall hd hmeets
    rintro d faces ⟨hchain, -⟩
    rwa [Pool.rerollsAgain_false] at hchain
  | rerollOnce => cases hrepeats
  | explode =>
    intro hok
    obtain ⟨ds, t₁, hds, -⟩ := Tray.roll_bind_eq_ok_iff.mp hok
    have hpos : p.dice.countP (Die.meets (own.getD (.equalTo p.sides))) ≠ 0 :=
      Nat.pos_iff_ne_zero.mp (List.countP_pos_iff.mpr ⟨d, hd, hmeets⟩)
    exact Pool.generations_ne_ok hall hpos hds
  | compound =>
    exact (Pool.compound_chaining _ config.maxChain p.sides).extend_ne_ok
      (fun d faces hfaces => hfaces.1) hall hd hmeets

/-- The check of a modifier that goes on drawing is exact. If it fails, the modifier fails on every
pool with a die that sets it off, whatever the source answers. If it passes, there is a face of the
die with which the modifier makes one draw for each die that sets it off, and no more. It succeeds
then, but for a compounding explosion of a die that has no room for the face: that overflows with
the draw for the first such die. -/
theorem endless_exact (hsides : 1 ≤ sides) (hm : m.DrawsWhile sides c) :
    (m.endless? sides ≠ none →
      ∀ (σ : Type) [Source σ] (config : Config) (p : Pool) (t : Tray σ), p.sides = sides →
        (∃ d ∈ p.dice, d.meets c = true) → ∃ e, (t.roll (p.modify config m)).1 = .error e) ∧
    (m.endless? sides = none → ∃ face : Int64, 1 ≤ face ∧ face ≤ sides ∧
      ∀ (σ : Type) [Source σ] (config : Config) (p : Pool) (t : Tray σ), p.sides = sides →
        1 ≤ config.maxChain → AlwaysGives t.source face →
        (∃ p' t', t.roll (p.modify config m) = (.ok p', t') ∧
          t.Draws sides (List.replicate (p.dice.countP (Die.meets c)) face) t') ∨
        ∃ own earlier d later t', m = .redraw .compound own ∧ p.dice = earlier ++ d :: later ∧
          d.meets c = true ∧ Int64.maxValue.toInt < d.face.toInt + face.toInt ∧
          t.roll (p.modify config m) = (.error .overflow, t') ∧
          t.Draws sides (List.replicate (earlier.countP (Die.meets c) + 1) face) t') := by
  constructor
  · rintro hsome σ _ config p t rfl ⟨d, hd, hmeets⟩
    have hall : ∀ face, 1 ≤ face → face ≤ p.sides → c.accepts face = true := by
      by_contra hnot
      refine hsome ((endless?_eq_none_iff hsides).mpr fun c' hc' => hnot ?_)
      rw [hm.unique hc'.1]
      exact hc'.2
    cases hrun : (t.roll (p.modify config m)).1 with
    | error e => exact ⟨e, rfl⟩
    | ok p' =>
      have hok : t.roll (p.modify config m) = (.ok p', (t.roll (p.modify config m)).2) :=
        Prod.ext hrun rfl
      exact absurd hok (modify_ne_ok_of_endless ⟨hm, hall⟩ hd hmeets)
  · intro hnone
    obtain ⟨face, hlow, hhigh, hquiet⟩ : ∃ face, 1 ≤ face ∧ face ≤ sides ∧
        c.accepts face = false := by
      have hnot := (endless?_eq_none_iff hsides).mp hnone c
      simpa [Endless, hm] using hnot
    refine ⟨face, hlow, hhigh, ?_⟩
    rintro σ _ config p t rfl hlimit hgives
    obtain ⟨t', hdraws⟩ := hgives.exists_draws hlow hhigh (p.dice.countP (Die.meets c))
    obtain ⟨r, own, rfl, hrepeats, rfl⟩ := drawsWhile_iff.mp hm
    cases r with
    | reroll =>
      obtain ⟨p', hok⟩ := (Pool.reroll_chaining _ false config.maxChain
        p.sides).exists_extend_eq_ok
          (fun _ _ _ => ⟨Pool.completeChain_singleton hquiet, hlimit⟩) hdraws
      exact .inl ⟨p', t', hok, hdraws⟩
    | rerollOnce => cases hrepeats
    | explode =>
      obtain ⟨ds, hds⟩ := Pool.exists_generations_eq_ok config.maxChain hlimit hquiet hdraws
      exact .inl ⟨_, t', Tray.roll_bind_of_ok hds _, hdraws⟩
    | compound =>
      obtain hok | ⟨earlier, d, later, t', hrest⟩ :=
        Pool.compound_single hquiet hlimit hlow hhigh hgives
      · exact .inl hok
      · exact .inr ⟨own, earlier, d, later, t', rfl, hrest⟩

/-- A thirteen on a die with six sides meets the condition to be one at least, and so do all faces
that could be added onto it. Of two sixes and a two, the sixes explode once each where the face
drawn is no six. -/
theorem endless_exact_six : ∃ (p q q' : Pool) (face : Int64) (t t' : Tray Script),
    p = ⟨6, [⟨13, 6, .kept, true⟩], none⟩ ∧ t = Tray.ofSource (Script.ofList [6, 1, 3]) ∧
    (redraw .compound (some ⟨.ge, 1⟩)).endless? 6 ≠ none ∧
    (∃ e, (t.roll (p.modify ⟨9, 2, .truncate⟩ (.redraw .compound (some ⟨.ge, 1⟩)))).1 =
      .error e) ∧
    q = .ofFaces 6 [6, 2, 6] ∧ (redraw .explode none).endless? 6 = none ∧ 1 ≤ face ∧ face ≤ 6 ∧
    (Tray.ofSource (Script.constant face)).roll
      (q.modify ⟨9, 1, .truncate⟩ (.redraw .explode none)) = (.ok q', t') ∧
    t'.calls = #[⟨1, 6, face⟩, ⟨1, 6, face⟩] := by
  have hsome : (redraw .compound (some ⟨.ge, 1⟩)).endless? 6 ≠ none := by decide
  have hnone : (redraw .explode none).endless? 6 = none := by decide
  obtain ⟨hfails, -⟩ := endless_exact (by decide : (1 : Int64) ≤ 6)
    (.written (by decide) ⟨.ge, 1⟩ : (redraw .compound (some ⟨.ge, 1⟩)).DrawsWhile 6 ⟨.ge, 1⟩)
  obtain ⟨-, hends⟩ := endless_exact (by decide : (1 : Int64) ≤ 6) .explode
  obtain ⟨face, hlow, hhigh, hruns⟩ := hends hnone
  obtain ⟨q', t', hok, hdraws⟩ | ⟨_, _, _, _, _, hcompound, -⟩ := hruns Script ⟨9, 1, .truncate⟩
    (.ofFaces 6 [6, 2, 6]) (.ofSource (.constant face)) rfl (by decide)
    (Script.constant_alwaysGives face)
  · have hcalls : t'.calls = #[⟨1, 6, face⟩, ⟨1, 6, face⟩] := Array.toList_inj.mp hdraws.adds.1
    have herror := hfails hsome Script ⟨9, 2, .truncate⟩ ⟨6, [⟨13, 6, .kept, true⟩], none⟩
      (.ofSource (Script.ofList [6, 1, 3])) rfl ⟨_, List.mem_singleton_self _, rfl⟩
    exact ⟨_, _, q', face, _, t', rfl, rfl, hsome, herror, rfl, hnone, hlow, hhigh, hok, hcalls⟩
  · cases hcompound

end Modifier

end Tabletop
