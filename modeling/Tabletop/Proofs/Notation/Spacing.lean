import Mathlib
import Tabletop.Proofs.Notation.Splitting

/-!
# Spacing

White space between tokens has no meaning: a text with more of it is split into the same tokens, but
for their positions, and read as the same expression.

* `Spaced ts cs cs'`: the text `cs'` is the text `cs` of the tokens with more white space between
  them.
* `Spaced.words?_eq`: both are scanned as the same words.
* `spaced_of_tokenize`: every text is its tokens with white space between them.
* `settle_words`: how tokens are settled does not depend on where they stand.
* `tokenize_spaced`: both texts are split into the same tokens and read as the same expressions.
-/

namespace Tabletop.Notation

variable {t : Tracker} {ls ms us ts : List Token} {cs cs' : List Char}

/-- The text `cs` is the tokens with white space before, between and behind them, and the text
`cs'` is the same with more white space in any of these places. -/
inductive Spaced : List Token → List Char → List Char → Prop where
  | nil {gap gap' : List Char} (hg : ∀ c ∈ gap', isSpace c = true) (hs : gap.Sublist gap') :
      Spaced [] gap gap'
  | cons {t : Token} {ts : List Token} {gap gap' cs cs' : List Char}
      (hg : ∀ c ∈ gap', isSpace c = true) (hs : gap.Sublist gap') (h : Spaced ts cs cs') :
      Spaced (t :: ts) (gap ++ (t.text.toList ++ cs)) (gap' ++ (t.text.toList ++ cs'))

/-- White space in front of both texts. -/
theorem Spaced.blank {c : Char} (hc : isSpace c = true) (h : Spaced ts cs cs') :
    Spaced ts (c :: cs) (c :: cs') := by
  cases h with
  | nil hg hs => exact .nil (List.forall_mem_cons.mpr ⟨hc, hg⟩) (hs.cons_cons c)
  | cons hg hs h =>
    rw [← List.cons_append, ← List.cons_append]
    exact .cons (List.forall_mem_cons.mpr ⟨hc, hg⟩) (hs.cons_cons c) h

theorem spaced_of_reads {p q : Nat} {rest : List Char} (h : lexicon.Reads p cs ls q rest)
    (hrest : rest = []) (ht : ts.map (·.text) = ls.map (·.text)) : Spaced ts cs cs := by
  induction h generalizing ts with
  | done =>
    rw [List.map_eq_nil_iff.mp ht, hrest]
    exact .nil (by simp) .slnil
  | separator hc _ ih => exact (ih hrest ht).blank hc
  | @lexeme p q c w cs rest k ls _ _ _ ih =>
    obtain ⟨t, ts, rfl, htext, hts⟩ := List.map_eq_cons_iff.mp ht
    have hspaced := @Spaced.cons t ts [] [] cs cs (by simp) .slnil (ih hrest hts)
    rwa [htext, String.toList_ofList] at hspaced

/-- Every text is its tokens with white space between them. -/
theorem spaced_of_tokenize {text : String} (h : tokenize text = .ok ts) :
    Spaced ts text.toList text.toList := by
  obtain ⟨ls, q, hread, hsettle⟩ := reads_of_tokenize h
  have hplaces := congrArg (List.map Prod.fst) (settle_place hsettle)
  rw [List.map_map, List.map_map] at hplaces
  exact spaced_of_reads hread rfl hplaces

/-! ## Words of a spaced text -/

theorem words?_gap {gap : List Char} (hg : ∀ c ∈ gap, isSpace c = true) (cs : List Char) :
    lexicon.words? (gap ++ cs) = lexicon.words? cs := by
  induction gap with
  | nil => rfl
  | cons c gap ih =>
    obtain ⟨hc, hg⟩ := List.forall_mem_cons.mp hg
    rw [List.cons_append, Lexicon.words?_separator hc, ih hg]

/-- A wider gap starts with white space, unless both are empty. -/
theorem head_gap {gap gap' : List Char} (hg : ∀ c ∈ gap', isSpace c = true)
    (hs : gap.Sublist gap') (h : ∀ c ∈ cs'.head?, isSpace c = true ∨ c ∈ cs.head?) :
    ∀ c ∈ (gap' ++ cs').head?, isSpace c = true ∨ c ∈ (gap ++ cs).head? := by
  cases gap' with
  | nil =>
    rw [List.sublist_nil.mp hs]
    exact h
  | cons x gap' =>
    intro c hc
    cases hc
    exact .inl (hg x List.mem_cons_self)

/-- A spaced text starts with white space, or as it did. -/
theorem Spaced.head (h : Spaced ts cs cs') :
    ∀ c ∈ cs'.head?, isSpace c = true ∨ c ∈ cs.head? := by
  induction h with
  | @nil gap gap' hg hs =>
    simpa using @head_gap [] [] gap gap' hg hs (by simp)
  | @cons t ts gap gap' cs cs' hg hs _ ih =>
    refine head_gap hg hs ?_
    cases t.text.toList with
    | nil => exact ih
    | cons x w => exact fun c hc => .inr hc

/-- The first word of a text is the longest token there, and the others are the words behind. -/
theorem longest?_of_words? {k k' : Kind} {s : String} {ws : List Word}
    (hs : k'.Spells s.toList) (h : lexicon.words? (s.toList ++ cs) = some ((k, s) :: ws)) :
    longest? (s.toList ++ cs) = some (k, s.toList.length) ∧ lexicon.words? cs = some ws := by
  obtain ⟨c, w, hw, hc⟩ := hs.head
  rw [hw, List.cons_append] at h ⊢
  obtain ⟨n, hl, hword, hws⟩ := Lexicon.words?_eq_some_cons hc h
  have hn : n = w.length := by
    have hle : n ≤ (w ++ cs).length := Nat.le_of_succ_le_succ (length_le_of_longest? hl)
    rw [hword, String.toList_ofList, List.cons.injEq] at hw
    rw [← hw.2, List.length_take_of_le hle]
  subst hn
  rw [List.drop_left] at hws
  exact ⟨hl, hws⟩

/-- More white space between the tokens does not change the words. -/
theorem Spaced.words?_eq (h : Spaced ts cs cs') (hs : ∀ t ∈ ts, t.kind.Spells t.text.toList)
    (hw : lexicon.words? cs = some (ts.map fun t => scannedWord t.word)) :
    lexicon.words? cs' = some (ts.map fun t => scannedWord t.word) := by
  induction h with
  | @nil gap gap' hg _ =>
    have hgap := words?_gap hg []
    rwa [List.append_nil, Lexicon.words?_nil] at hgap
  | @cons t ts gap gap' cs cs' hg hsub h ih =>
    obtain ⟨ht, hts⟩ := List.forall_mem_cons.mp hs
    obtain ⟨c, w, htext, hc⟩ := ht.head
    rw [words?_gap fun c hc => hg c (hsub.subset hc)] at hw
    obtain ⟨hlongest, hcs⟩ := longest?_of_words? ht hw
    -- What stopped the token before stops it now, or white space does.
    have hstops : Stops t.text.toList cs' := fun x hx =>
      (h.head x hx).elim not_extends_space (stops_of_longest? hlongest x)
    rw [words?_gap hg, words?_spelled ht hstops, ih hts hcs, String.ofList_toList]
    rfl

/-! ## Tokens of a spaced text -/

/-- A token that is settled is scanned as it was. -/
theorem scanned_read {k : Kind} {w : List Char} (hs : k.Spells w) (h : scanned k w = k) :
    scanned (t.read k) w = k := by
  unfold Tracker.read
  split
  · next hk =>
    obtain ⟨rfl, -⟩ := hk
    exact if_pos hs
  · exact h

/-- What is settled is scanned as it was read. -/
theorem scannedWord_of_settle (h : settle t none ls = .ok us)
    (hls : ∀ l ∈ ls, l.kind.Spells l.text.toList ∧ scanned l.kind l.text.toList = l.kind) :
    us.map (fun u => scannedWord u.word) = ls.map Lexeme.word := by
  induction ls generalizing t us with
  | nil => cases h; rfl
  | cons l ls ih =>
    obtain ⟨-, vs, hvs, rfl⟩ := settle_cons_eq_ok_iff.mp h
    obtain ⟨⟨hspell, hscan⟩, hls⟩ := List.forall_mem_cons.mp hls
    rw [List.map_cons, List.map_cons, ih hvs hls]
    simp only [Lexeme.word, scannedWord, scanned_read hspell hscan]

/-- The words of a text are its tokens, as they are scanned. -/
theorem words?_of_tokenize {text : String} (h : tokenize text = .ok ts) :
    lexicon.words? text.toList = some (ts.map fun t => scannedWord t.word) := by
  obtain ⟨ls, q, hread, hsettle⟩ := reads_of_tokenize h
  have hscan := hread.scan_eq
  rw [Lexicon.scan, List.append_nil] at hscan
  refine Scan.words?_eq_some_iff.mpr ⟨by rw [hscan], ?_⟩
  rw [hscan, scannedWord_of_settle hsettle]
  intro l hl
  obtain ⟨before, after, rfl⟩ := List.append_of_mem hl
  obtain ⟨-, -, rest, -, -, -, hlongest, -⟩ := hread.split
  exact ⟨spells_of_longest?_append hlongest, scanned_of_longest? hlongest⟩

/-- How tokens are settled does not depend on where they stand. -/
theorem settle_words (h : settle t none ls = .ok us)
    (hw : ms.map Lexeme.word = ls.map Lexeme.word) :
    ∃ vs, settle t none ms = .ok vs ∧ vs.map Lexeme.word = us.map Lexeme.word := by
  induction ls generalizing t ms us with
  | nil =>
    cases h
    rw [List.map_eq_nil_iff.mp hw]
    exact ⟨[], rfl, rfl⟩
  | cons l ls ih =>
    obtain ⟨hsides, vs, hvs, rfl⟩ := settle_cons_eq_ok_iff.mp h
    obtain ⟨m, ms, rfl, hm, hms⟩ := List.map_eq_cons_iff.mp hw
    obtain ⟨hkind, htext⟩ := Prod.mk.inj hm
    obtain ⟨us, hus, hwords⟩ := ih hvs hms
    rw [← hkind] at hsides hus ⊢
    refine ⟨_, settle_cons_eq_ok_iff.mpr ⟨fun hdice => ?_, us, hus, rfl⟩, ?_⟩
    · have hheads : ∀ xs : List Token, xs.head?.any (·.kind.startsSides) =
          (xs.map Lexeme.word).head?.any (·.1.startsSides) := fun xs => by cases xs <;> rfl
      rw [hheads, hms, ← hheads]
      exact hsides hdice
    · simp [Lexeme.word, htext, hwords]

/-- Texts of the same words are split into the same tokens, but for their positions. -/
theorem tokenize_of_words?_eq {text text' : String} (h : tokenize text = .ok ts)
    (hw : lexicon.words? text'.toList = lexicon.words? text.toList) :
    ∃ us, tokenize text' = .ok us ∧ us.map Lexeme.word = ts.map Lexeme.word := by
  obtain ⟨⟨ws, hws⟩, -⟩ := spells_of_tokenize h
  obtain ⟨hfault, hwords⟩ := Scan.words?_eq_some_iff.mp hws
  obtain ⟨hfault', hwords'⟩ := Scan.words?_eq_some_iff.mp (hw.trans hws)
  simp only [tokenize, hfault, hfault'] at h ⊢
  exact settle_words h (hwords'.trans hwords.symm)

/-- Texts of the same tokens, but for their positions, are read as the same expressions. -/
theorem ofText_congr {text text' : String} {us : List Token} (h : tokenize text = .ok ts)
    (h' : tokenize text' = .ok us) (hw : us.map Lexeme.word = ts.map Lexeme.word) (e : Expr) :
    Expr.ofText text' = .ok e ↔ Expr.ofText text = .ok e := by
  simp only [Expr.ofText_eq_ok_iff, h, h', Except.ok.injEq, exists_eq_left', hw]

/-- More white space before, between and behind the tokens of a text changes neither their kinds and
texts nor what is read. -/
theorem tokenize_spaced {text text' : String} (h : tokenize text = .ok ts)
    (hs : Spaced ts text.toList text'.toList) :
    (∃ us, tokenize text' = .ok us ∧ us.map Lexeme.word = ts.map Lexeme.word) ∧
      ∀ e, Expr.ofText text' = .ok e ↔ Expr.ofText text = .ok e := by
  have hw := words?_of_tokenize h
  have hw' := hs.words?_eq (spells_of_tokenize h).2 hw
  obtain ⟨us, hus, hwords⟩ := tokenize_of_words?_eq h (hw'.trans hw.symm)
  exact ⟨⟨us, hus, hwords⟩, ofText_congr h hus hwords⟩

/-- Two explosions stay apart where there is more space between them. -/
theorem tokenize_spaced_bangs :
    (∃ us, tokenize " 2d\t6!\n ! " = .ok us ∧ us.map Lexeme.word =
        [(.int, "2"), (.dice, "d"), (.int, "6"), (.redraw .explode, "!"),
          (.redraw .explode, "!")]) ∧
      ∀ e, Expr.ofText " 2d\t6!\n ! " = .ok e ↔ Expr.ofText "2d6! !" = .ok e := by
  refine @tokenize_spaced [⟨.int, "2", 0⟩, ⟨.dice, "d", 1⟩, ⟨.int, "6", 2⟩,
    ⟨.redraw .explode, "!", 3⟩, ⟨.redraw .explode, "!", 5⟩] "2d6! !" " 2d\t6!\n ! " (by cbv) ?_
  have hspaced :=
    @Spaced.cons ⟨.int, "2", 0⟩ _ [] [' '] _ _ (by simp [isSpace]) (by simp) <|
    @Spaced.cons ⟨.dice, "d", 1⟩ _ [] [] _ _ (by simp [isSpace]) (by simp) <|
    @Spaced.cons ⟨.int, "6", 2⟩ _ [] ['\t'] _ _ (by simp [isSpace]) (by simp) <|
    @Spaced.cons ⟨.redraw .explode, "!", 3⟩ _ [] [] _ _ (by simp [isSpace]) (by simp) <|
    @Spaced.cons ⟨.redraw .explode, "!", 5⟩ _ [' '] ['\n', ' '] _ _ (by simp [isSpace])
      (by simp) <|
    @Spaced.nil [] [' '] (by simp [isSpace]) (by simp)
  simpa using hspaced

end Tabletop.Notation
