import Tabletop.Proofs.Notation.Longest
import Tabletop.Proofs.Notation.Marking

/-!
# Splitting a text into tokens

Splitting loses nothing of a text, and stops at the first character that cannot be right.

* `settle_append`, `settle_eq_error`: tokens are settled from left to right, up to the first dice
  marker without sides.
* `reads_of_tokenize`: the tokens of a text are the lexemes that are read off it, settled.
* `Splits text ts`: the tokens are the text, but for white space.
* `Refuses text e`: the text is split up to the error, where no token starts or the sides of a dice
  marker are missing.
* `tokenize_splits_or_refuses`: every text is split into its tokens or refused.
-/

namespace Tabletop

/-- The text of the lexeme, and where it stands. -/
def Lexeme.place {κ : Type} (l : Lexeme κ) : String × Nat := (l.text, l.position)

namespace Notation

variable {t : Tracker} {fault : Option LexError} {l : Token} {ls ms us : List Token}

/-! ## Settling from left to right -/

/-- The tracker behind settled tokens. -/
def Tracker.follow (t : Tracker) (us : List Token) : Tracker :=
  us.foldl (fun t u => t.step u.kind) t

@[simp] theorem Tracker.follow_nil (t : Tracker) : t.follow [] = t := rfl

@[simp] theorem Tracker.follow_cons (t : Tracker) (u : Token) (us : List Token) :
    t.follow (u :: us) = (t.step u.kind).follow us := rfl

theorem Tracker.read_eq_dice_iff {k : Kind} :
    t.read k = .dice ↔ k = .dice ∧ t.place ≠ .complete := by
  unfold Tracker.read
  split
  · next h => simp [h.2]
  · next h => exact ⟨fun hk => ⟨hk, fun hp => h ⟨hk, hp⟩⟩, fun h => h.1⟩

/-- A token is settled where it is no dice marker without sides, and the rest behind it is. -/
theorem settle_cons_eq_ok_iff : settle t fault (l :: ls) = .ok us ↔
    (t.read l.kind = .dice → ls.head?.any (·.kind.startsSides) = true) ∧
      ∃ vs, settle (t.step (t.read l.kind)) fault ls = .ok vs ∧
        us = { l with kind := t.read l.kind } :: vs := by
  by_cases hsides : t.read l.kind = .dice ∧ (!(ls.head?.any (·.kind.startsSides))) = true
  · simp only [settle, if_pos hsides]
    simp only [Bool.not_eq_true', reduceCtorEq, false_iff] at hsides ⊢
    rintro ⟨hsome, -⟩
    rw [hsome hsides.1] at hsides
    cases hsides.2
  · simp only [settle, if_neg hsides, Except.map_eq_ok_iff, eq_comm (a := us)]
    simp only [Bool.not_eq_true', not_and, Bool.not_eq_false] at hsides
    exact (and_iff_right hsides).symm

theorem settle_place (h : settle t fault ls = .ok us) :
    us.map Lexeme.place = ls.map Lexeme.place := by
  induction ls generalizing t us with
  | nil => cases fault <;> cases h; rfl
  | cons l ls ih =>
    obtain ⟨-, vs, hvs, rfl⟩ := settle_cons_eq_ok_iff.mp h
    rw [List.map_cons, List.map_cons, ih hvs]
    rfl

/-- Behind every dice marker is a token that may start the sides. -/
theorem settle_sides (h : settle t fault ls = .ok us) {i : Nat} {u : Token} (hu : us[i]? = some u)
    (hk : u.kind = .dice) : ∃ v, us[i + 1]? = some v ∧ v.kind.startsSides = true := by
  induction ls generalizing t us i with
  | nil => cases fault <;> cases h; simp at hu
  | cons l ls ih =>
    obtain ⟨hsides, vs, hvs, rfl⟩ := settle_cons_eq_ok_iff.mp h
    cases i with
    | succ i => exact ih hvs hu
    | zero =>
      cases hu
      specialize hsides hk
      cases ls with
      | nil => cases hsides
      | cons l' ls =>
        obtain ⟨-, vs', -, rfl⟩ := settle_cons_eq_ok_iff.mp hvs
        refine ⟨_, rfl, ?_⟩
        have hl : l'.kind.startsSides = true := hsides
        have hne : l'.kind ≠ .dice := fun he => by rw [he] at hl; cases hl
        simpa [Tracker.read, hne] using hl

/-- Behind settled tokens the others are settled as they are by the tracker there. -/
theorem settle_append (h : settle t none ls = .ok us) (fault : Option LexError) (ms : List Token) :
    settle t fault (ls ++ ms) = (settle (t.follow us) fault ms).map (us ++ ·) := by
  induction ls generalizing t us with
  | nil =>
    cases h
    rw [List.nil_append, Tracker.follow_nil]
    cases settle t fault ms <;> rfl
  | cons l ls ih =>
    obtain ⟨hsides, vs, hvs, rfl⟩ := settle_cons_eq_ok_iff.mp h
    have hif : ¬(t.read l.kind = .dice ∧
        (!((ls ++ ms).head?.any (·.kind.startsSides))) = true) := by
      rintro ⟨hdice, hnone⟩
      specialize hsides hdice
      cases ls with
      | nil => cases hsides
      | cons l' ls =>
        have hl : l'.kind.startsSides = true := hsides
        simp [hl] at hnone
    simp only [List.cons_append, settle, if_neg hif, ih hvs, Tracker.follow_cons]
    cases settle ((t.step (t.read l.kind)).follow vs) fault ms <;> rfl

/-- Where settling fails, the tokens before are settled: all of them, or those before a dice marker
without sides. -/
theorem settle_eq_error {e : LexError} (h : settle t fault ls = .error e) :
    (fault = some e ∧ ∃ us, settle t none ls = .ok us) ∨
      ∃ ls₁ l ls₂ us, ls = ls₁ ++ l :: ls₂ ∧ settle t none ls₁ = .ok us ∧
        (t.follow us).read l.kind = .dice ∧ ls₂.head?.any (·.kind.startsSides) = false ∧
        e = ⟨l.position, l.text.toList.headD 'd'⟩ := by
  induction ls generalizing t with
  | nil =>
    cases fault with
    | none => cases h
    | some f => cases h; exact .inl ⟨rfl, [], rfl⟩
  | cons l ls ih =>
    simp only [settle] at h
    split at h
    · next hsides =>
      cases h
      exact .inr ⟨[], l, ls, [], rfl, rfl, hsides.1, by simpa using hsides.2, rfl⟩
    · next hsides =>
      have hl : t.read l.kind = .dice → ls.head?.any (·.kind.startsSides) = true := by
        simpa using hsides
      cases hrest : settle (t.step (t.read l.kind)) fault ls with
      | ok vs => rw [hrest] at h; cases h
      | error e' =>
        rw [hrest] at h
        cases h
        rcases ih hrest with ⟨rfl, us, hus⟩ | ⟨ls₁, m, ls₂, us, rfl, hus, hm, hnone, rfl⟩
        · exact .inl ⟨rfl, _, settle_cons_eq_ok_iff.mpr ⟨hl, us, hus, rfl⟩⟩
        · refine .inr ⟨l :: ls₁, m, ls₂, _, rfl,
            settle_cons_eq_ok_iff.mpr ⟨fun hdice => ?_, us, hus, rfl⟩, hm, hnone, rfl⟩
          specialize hl hdice
          cases ls₁ with
          | cons l' ls₁ => exact hl
          | nil =>
            have hkind := (Tracker.read_eq_dice_iff.mp hm).1
            simp [hkind, Kind.startsSides] at hl

/-! ## The tokens of a text -/

variable {text : String} {ts : List Token}

/-- The tokens of a text are what is read off it, settled. -/
theorem reads_of_tokenize (h : tokenize text = .ok ts) :
    ∃ ls q, lexicon.Reads 0 text.toList ls q [] ∧ settle .start none ls = .ok ts := by
  obtain ⟨⟨ws, hws⟩, -⟩ := spells_of_tokenize h
  have hfault := (Scan.words?_eq_some_iff.mp hws).1
  obtain ⟨q, rest, hread, hstop⟩ := Lexicon.reads_scan lawful_lexicon 0 text.toList
  rw [hfault] at hstop
  cases hstop
  simp only [tokenize, hfault] at h
  exact ⟨_, q, hread, h⟩

/-- A text that is read to its end is split into what is read, settled. -/
theorem tokenize_of_reads {cs : List Char} {q : Nat} (h : lexicon.Reads 0 cs ls q []) :
    tokenize (String.ofList cs) = settle .start none ls := by
  have hscan := h.scan_eq
  rw [Lexicon.scan, List.append_nil] at hscan
  simp only [tokenize, String.toList_ofList, hscan]

theorem exists_place_of_settle (h : settle t fault ls = .ok us) {u : Token} (hu : u ∈ us) :
    ∃ l ∈ ls, l.text = u.text ∧ l.position = u.position := by
  have hmem : u.place ∈ ls.map Lexeme.place := by
    rw [← settle_place h]
    exact List.mem_map_of_mem hu
  obtain ⟨l, hl, hplace⟩ := List.mem_map.mp hmem
  exact ⟨l, hl, (Prod.mk.inj hplace).1, (Prod.mk.inj hplace).2⟩

/-- What is read stands in the text, and no token that stands there is longer. -/
theorem longest_of_reads {q : Nat} {rest : List Char}
    (h : lexicon.Reads 0 text.toList ls q rest) (hl : l ∈ ls) :
    StandsAt text l.position l.text ∧ ∀ (k : Kind) (w : String), k.Spells w.toList →
      StandsAt text l.position w → w.length ≤ l.text.length := by
  obtain ⟨before, after, rfl⟩ := List.append_of_mem hl
  obtain ⟨-, -, rest', -, -, hread, hlongest, -⟩ := h.split
  obtain ⟨cs, hcs, hp⟩ := hread.placed.exists_append
  rw [Nat.zero_add] at hp
  rw [hp]
  refine ⟨(standsAt_iff_isPrefix hcs).mpr (List.prefix_append ..), fun k w hk hw => ?_⟩
  obtain ⟨k', n, hn, hle⟩ := exists_longest?_of_isPrefix hk ((standsAt_iff_isPrefix hcs).mp hw)
  rw [show longest? _ = _ from hlongest, Option.some.injEq, Prod.mk.injEq] at hn
  rwa [← hn.2, String.length_toList, String.length_toList] at hle

/-- Every token stands in the text. -/
theorem standsAt_of_mem_tokenize (h : tokenize text = .ok ts) {u : Token} (hu : u ∈ ts) :
    StandsAt text u.position u.text := by
  obtain ⟨ls, q, hread, hsettle⟩ := reads_of_tokenize h
  obtain ⟨l, hl, htext, hposition⟩ := exists_place_of_settle hsettle hu
  rw [← htext, ← hposition]
  exact (longest_of_reads hread hl).1

/-- The tokens stand one behind the other. -/
theorem ordered_of_tokenize (h : tokenize text = .ok ts) :
    ts.Pairwise fun t u => t.stop ≤ u.position := by
  obtain ⟨ls, q, hread, hsettle⟩ := reads_of_tokenize h
  have hplaces : (ls.map Lexeme.place).Pairwise fun a b => a.2 + a.1.utf8ByteSize ≤ b.2 :=
    List.pairwise_map.mpr hread.placed.ordered.1
  rw [← settle_place hsettle] at hplaces
  exact List.pairwise_map.mp hplaces

/-- A character that no token covers is white space. -/
theorem isSpace_of_uncovered (h : tokenize text = .ok ts) {p : Nat} {c : Char}
    (hp : StandsAt text p (String.singleton c)) (hout : ∀ t ∈ ts, p < t.position ∨ t.stop ≤ p) :
    isSpace c = true := by
  obtain ⟨ls, q, hread, hsettle⟩ := reads_of_tokenize h
  obtain ⟨before, after, htext, rfl⟩ := standsAt_iff.mp hp
  rw [String.toList_singleton] at htext
  obtain ⟨all, hall, hq⟩ := hread.placed.exists_append
  rw [List.append_nil] at hall
  have hlt : 0 + bytes before < q := by
    have hc := c.utf8Size_pos
    rw [hq, ← hall, htext, bytes_append, List.singleton_append, bytes_cons]
    omega
  refine (hread.covers htext hlt).resolve_right ?_
  rintro ⟨l, hl, hle, hlt⟩
  rw [Nat.zero_add] at hle hlt
  have hmem : l.place ∈ ts.map Lexeme.place := by
    rw [settle_place hsettle]
    exact List.mem_map_of_mem hl
  obtain ⟨t, ht, hplace⟩ := List.mem_map.mp hmem
  obtain ⟨htext, hposition⟩ := Prod.mk.inj hplace
  have hstop : t.stop = l.stop := by rw [Lexeme.stop, Lexeme.stop, htext, hposition]
  rcases hout t ht with h | h <;> omega

/-- The tokens are the text, but for white space. -/
structure Splits (text : String) (ts : List Token) : Prop where
  /-- The tokens stand one behind the other. -/
  ordered : ts.Pairwise fun t u => t.stop ≤ u.position
  /-- The text of a token is what stands at its position. -/
  stands : ∀ t ∈ ts, StandsAt text t.position t.text
  spelled : ∀ t ∈ ts, t.kind.Spells t.text.toList
  /-- No token that is spelled where a token stands is longer. -/
  longest : ∀ t ∈ ts, ∀ (k : Kind) (w : String), k.Spells w.toList →
    StandsAt text t.position w → w.length ≤ t.text.length
  /-- Behind a dice marker is a token that may start the sides. -/
  sides : ∀ i t, ts[i]? = some t → t.kind = .dice →
    ∃ u, ts[i + 1]? = some u ∧ u.kind.startsSides = true
  /-- A character that no token covers is white space. -/
  space : ∀ p c, StandsAt text p (String.singleton c) →
    (∀ t ∈ ts, p < t.position ∨ t.stop ≤ p) → isSpace c = true

/-- A text is split into its tokens. -/
theorem splits_of_tokenize (h : tokenize text = .ok ts) : Splits text ts := by
  obtain ⟨ls, q, hread, hsettle⟩ := reads_of_tokenize h
  refine ⟨ordered_of_tokenize h, fun t => standsAt_of_mem_tokenize h, (spells_of_tokenize h).2,
    fun t ht => ?_, fun i t => settle_sides hsettle, fun p c => isSpace_of_uncovered h⟩
  obtain ⟨l, hl, htext, hposition⟩ := exists_place_of_settle hsettle ht
  rw [← htext, ← hposition]
  exact (longest_of_reads hread hl).2

/-! ## Where a text is refused -/

/-- Neither white space nor a token starts at the error. -/
structure StartsNothing (text : String) (e : LexError) : Prop where
  space : isSpace e.char = false
  token : ∀ (k : Kind) (w : String), k.Spells w.toList → ¬StandsAt text e.position w

/-- Between `before`, whose tokens are `us`, and `after`, the character is a dice marker without
sides. -/
structure LacksSides (before : String) (us : List Token) (c : Char) (after : String) : Prop where
  spelled : c = 'd' ∨ c = 'D'
  /-- With sides behind it, it would be a dice marker rather than drop the lowest die. -/
  marks : tokenize (before ++ String.singleton c ++ "%") =
    .ok (us ++ [⟨.dice, String.singleton c, before.utf8ByteSize⟩,
      ⟨.percent, "%", before.utf8ByteSize + 1⟩])
  /-- The character is not the start of a longer token. -/
  single : ∀ (k : Kind) (w : String), k.Spells w.toList →
    w.toList <+: c :: after.toList → w.length ≤ 1
  /-- No token that stands next may start the sides. -/
  sideless : ∀ (k : Kind) (w : String), k.Spells w.toList →
    w.toList <+: after.toList.dropWhile isSpace → k.startsSides = false

/-- The text is refused at the error: the text before it is split into tokens, and the character
there starts nothing, or is a dice marker without sides. -/
def Refuses (text : String) (e : LexError) : Prop :=
  ∃ before after us, text = before ++ String.singleton e.char ++ after ∧
    before.utf8ByteSize = e.position ∧ tokenize before = .ok us ∧
      (StartsNothing text e ∨ LacksSides before us e.char after)

/-- The first token behind a dice marker that is not settled is not the sides. -/
theorem sideless_of_scan {p : Nat} {cs : List Char}
    (h : (lexicon.scan p cs).lexemes.head?.any (·.kind.startsSides) = false) (k : Kind)
    (w : List Char) (hk : k.Spells w) (hw : w <+: cs.dropWhile isSpace) :
    k.startsSides = false := by
  rw [Bool.eq_false_iff]
  intro hsides
  obtain ⟨c, w, rfl, hc⟩ := hk.head
  obtain ⟨rest, hrest⟩ := hw
  obtain ⟨p', hskip⟩ := lexicon.exists_scan_dropWhile p cs
  obtain ⟨k', n, hl, hn⟩ := exists_longest?_of_isPrefix hk (List.prefix_append (c :: w) rest)
  obtain ⟨n, rfl⟩ := Nat.exists_eq_add_one.mpr (Nat.lt_of_lt_of_le (Nat.succ_pos w.length) hn)
  -- The token that is found starts with the same character, so it may start the sides as well.
  have hk' : k'.startsSides = true := by
    have hs := spells_of_longest? hl
    rw [List.cons_append, List.take_succ_cons] at hs
    exact hs.startsSides_iff.mpr (hk.startsSides_iff.mp hsides)
  have hhead : (lexicon.scan p cs).lexemes.head?.map (·.kind) = some k' := by
    rw [hskip, show cs.dropWhile lexicon.separates = _ from hrest.symm]
    exact Lexicon.head?_scan hc hl
  cases hls : (lexicon.scan p cs).lexemes with
  | nil => rw [hls] at hhead; cases hhead
  | cons l ls =>
    rw [hls] at hhead h
    cases hhead
    rw [List.head?_cons, Option.any_some, hk'] at h
    cases h

/-- A text in which no token starts behind those that are read is refused there. -/
theorem refuses_of_fault {e : LexError} (hfault : (lexicon.scan 0 text.toList).fault = some e)
    (hus : settle .start none (lexicon.scan 0 text.toList).lexemes = .ok us) : Refuses text e := by
  obtain ⟨q, rest, hread, hstop⟩ := Lexicon.reads_scan lawful_lexicon 0 text.toList
  rw [hfault] at hstop
  obtain ⟨hq, hhead, hspace, hnone⟩ := hstop
  obtain ⟨before, hcs, hp⟩ := hread.placed.exists_append
  obtain ⟨after, rfl⟩ : ∃ after, rest = e.char :: after := List.head?_eq_some_iff.mp hhead
  rw [Nat.zero_add] at hp
  have halone := hread.alone lawful_lexicon hcs
  refine ⟨String.ofList before, String.ofList after, us, ?_, (hq.trans hp).symm,
    (tokenize_of_reads halone).trans hus, .inl ⟨hspace, fun k w hk hw => ?_⟩⟩
  · rw [← String.toList_inj, hcs]
    simp
  · rw [hq, hp] at hw
    obtain ⟨k', n, hl, hn⟩ := exists_longest?_of_isPrefix hk ((standsAt_iff_isPrefix hcs).mp hw)
    obtain ⟨c, w', hw', -⟩ := hk.head
    rw [hw'] at hn
    obtain ⟨n, rfl⟩ := Nat.exists_eq_add_one.mpr (Nat.lt_of_lt_of_le (Nat.succ_pos w'.length) hn)
    exact hnone k' n hl

/-- A dice marker with a percent sign for its sides. -/
theorem reads_percent {c : Char} (hc : c = 'd' ∨ c = 'D') (p : Nat) :
    lexicon.Reads p [c, '%'] [⟨.dice, String.singleton c, p⟩, ⟨.percent, "%", p + 1⟩]
      (p + 1 + 1) [] := by
  have hpercent : lexicon.Reads (p + 1) ['%'] [⟨.percent, "%", p + 1⟩] (p + 1 + 1) [] :=
    .lexeme (w := []) rfl rfl .done
  rcases hc with rfl | rfl
  · exact .lexeme (w := []) rfl rfl hpercent
  · exact .lexeme (w := []) rfl rfl hpercent

/-- A lone `d` outside of dice terms lacks its sides where what is read next is none. -/
theorem lacksSides_of_reads {before after : List Char} {c : Char} {q : Nat}
    (hread : lexicon.Reads 0 (before ++ c :: after) ls (bytes before) (c :: after))
    (hus : settle .start none ls = .ok us) (hplace : (Tracker.start.follow us).place ≠ .complete)
    (hc : c = 'd' ∨ c = 'D') (hlongest : longest? (c :: after) = some (.dice, 1))
    (hnext : (lexicon.scan q after).lexemes.head?.any (·.kind.startsSides) = false) :
    LacksSides (String.ofList before) us c (String.ofList after) := by
  refine ⟨hc, ?_, fun k w hk hw => ?_, fun k w hk hw => ?_⟩
  · have hmarker : lexicon.Reads 0 (before ++ [c, '%']) ls (bytes before) [c, '%'] :=
      hread.behind lawful_lexicon rfl (by simp)
    have htokens := tokenize_of_reads (hmarker.trans (reads_percent hc _))
    have hsettle : settle (Tracker.start.follow us) none
        [⟨.dice, String.singleton c, bytes before⟩, ⟨.percent, "%", bytes before + 1⟩] =
        .ok [⟨.dice, String.singleton c, bytes before⟩, ⟨.percent, "%", bytes before + 1⟩] := by
      simp [settle, Tracker.read, hplace, Kind.startsSides, Except.map]
    have htext : String.ofList (before ++ [c, '%']) =
        String.ofList before ++ String.singleton c ++ "%" := by
      rw [← String.toList_inj]
      simp
    rwa [settle_append hus, hsettle, htext] at htokens
  · rw [String.toList_ofList] at hw
    obtain ⟨k', n, hn, hle⟩ := exists_longest?_of_isPrefix hk hw
    rw [hlongest, Option.some.injEq, Prod.mk.injEq] at hn
    rwa [← hn.2, String.length_toList] at hle
  · rw [String.toList_ofList] at hw
    exact sideless_of_scan hnext k w.toList hk hw

/-- A text with a dice marker without sides behind settled tokens is refused there. -/
theorem refuses_of_marker (hls : (lexicon.scan 0 text.toList).lexemes = ls ++ l :: ms)
    (hus : settle .start none ls = .ok us) (hl : (Tracker.start.follow us).read l.kind = .dice)
    (hms : ms.head?.any (·.kind.startsSides) = false) :
    Refuses text ⟨l.position, l.text.toList.headD 'd'⟩ := by
  obtain ⟨q, rest, hread, -⟩ := Lexicon.reads_scan lawful_lexicon 0 text.toList
  rw [hls] at hread
  have hrest : (lexicon.scan q rest).lexemes = [] := by
    have hall := congrArg Scan.lexemes hread.scan_eq
    rw [hls] at hall
    simpa using hall
  obtain ⟨c, w, after, hw, -, hbefore, hlongest, hafter⟩ := hread.split
  have hnext : (lexicon.scan l.stop after).lexemes = ms := by
    rw [hafter.scan_eq, hrest, List.append_nil]
  obtain ⟨hkind, hplace⟩ := Tracker.read_eq_dice_iff.mp hl
  have hspell := spells_of_longest?_append hlongest
  rw [hkind] at hspell hlongest
  obtain ⟨hc, rfl⟩ : (c = 'd' ∨ c = 'D') ∧ w = [] := by
    rw [hw] at hspell
    rcases hspell with h | h <;> cases h <;> simp
  rw [hw] at hbefore hlongest
  obtain ⟨before, hcs, hp⟩ := hbefore.placed.exists_append
  rw [Nat.zero_add] at hp
  have halone := hbefore.alone lawful_lexicon hcs
  rw [hcs, hp] at hbefore
  rw [hw, hp]
  refine ⟨String.ofList before, String.ofList after, us, ?_, rfl,
    (tokenize_of_reads halone).trans hus,
    .inr (lacksSides_of_reads hbefore hus hplace hc hlongest (hnext ▸ hms))⟩
  rw [← String.toList_inj, hcs]
  simp

/-- Every text is split into its tokens, or refused. -/
theorem tokenize_splits_or_refuses (text : String) :
    match tokenize text with
    | .ok ts => Splits text ts
    | .error e => Refuses text e := by
  cases h : tokenize text with
  | ok ts => exact splits_of_tokenize h
  | error e =>
    rcases settle_eq_error h with ⟨hfault, us, hus⟩ | ⟨ls, l, ms, us, hls, hus, hl, hms, rfl⟩
    · exact refuses_of_fault hfault hus
    · exact refuses_of_marker hls hus hl hms

end Notation

end Tabletop
