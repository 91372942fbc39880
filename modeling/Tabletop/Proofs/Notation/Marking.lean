import Tabletop.Proofs.Notation.Reading
import Tabletop.Proofs.Notation.Spelling

/-!
# Dice markers and the reader

A tracker decides what a `d` is from kinds alone, and a reader from the expression read so far. They
agree: the place of a reader and the slots of its open parentheses are a tracker (`Reader.tracker`),
and the two go side by side (`Reader.step_tracker`). So a text whose tokens are accepted is settled
as those tokens.

* `settle_accepted`: scanned tokens are settled as the accepted tokens they are scanned from.
* `spells_of_tokenize`: the tokens of a text are spelled as their kinds say.
* `tokenize_intercalate`: tokens that are accepted are read back from their texts, written
  with a space between two of them.
-/

namespace Tabletop.Notation

/-- The slot is for the sides of dice. -/
def Slot.isSides : Slot → Bool
  | .operand => false
  | .sides _ => true

/-- Where the focus is in a dice term. -/
def Focus.place : Focus → Place
  | .slot .operand | .atom _ => .outside
  | .slot (.sides _) => .marker
  | .dice _ | .select .. | .redraw .. | .threshold .. => .complete

namespace Reader

/-- What a tracker knows where the reader is. -/
def tracker (r : Reader) : Tracker :=
  ⟨r.focus.place, r.outer.map fun (_, s) => s.isSides⟩

variable {r r' : Reader} {k : Kind} {t : String}

theorem place_fill (s : Slot) (e : Expr) :
    (s.fill e).place = if s.isSides then .complete else .outside := by
  cases s <;> rfl

theorem stepAtom_tracker {s : Slot} (hf : r.focus = .slot s) (h : r.stepAtom s k t = .ok r') :
    r.tracker.step k = r'.tracker := by
  unfold stepAtom at h
  split at h
  · obtain ⟨n, -, h⟩ := Except.bind_eq_ok_iff.mp h
    cases h
    cases s <;> simp [tracker, Tracker.step, hf, Focus.place, Slot.fill]
  · cases h
    cases s <;> simp [tracker, Tracker.step, hf, Focus.place, Slot.fill]
  · cases h
    cases s <;> simp [tracker, Tracker.step, hf, Focus.place, Slot.isSides]
  · cases h

theorem stepSlot_tracker {s : Slot} (hf : r.focus = .slot s) (h : r.stepSlot s k t = .ok r') :
    r.tracker.step k = r'.tracker := by
  unfold stepSlot at h
  split at h
  · split at h
    · cases h
      simp [tracker, Tracker.step, hf, Focus.place]
    · cases h
  · cases h
    simp [tracker, Tracker.step, Focus.place]
  · cases h
    simp [tracker, Tracker.step, hf, Focus.place]
  · exact stepAtom_tracker hf h

theorem stepOperand_tracker {e : Expr} (h : r.stepOperand e k = .ok r') :
    r.tracker.step k = r'.tracker := by
  unfold stepOperand at h
  split at h
  · cases h
    simp [tracker, Tracker.step, Focus.place]
  · next hout =>
    cases h
    simp [tracker, Tracker.step, hout, place_fill]
  · cases h
  · cases h

theorem stepDice_tracker {d : DiceTerm} (hf : r.focus.place = .complete)
    (h : r.stepDice d k = .ok r') : r.tracker.step k = r'.tracker := by
  unfold stepDice at h
  split at h
  · cases h
    simp only [tracker, Tracker.step, hf]
    rfl
  · cases h
    simp only [tracker, Tracker.step, hf]
    rfl
  · cases h
    simp only [tracker, Tracker.step, hf]
    rfl
  · exact stepOperand_tracker h

/-- The tracker goes where the reader goes. -/
theorem step_tracker (h : r.step k t = .ok r') : r.tracker.step k = r'.tracker := by
  unfold step at h
  split at h
  · next s hf => exact stepSlot_tracker hf h
  · next e hf =>
    unfold stepCount at h
    split at h
    · next hk =>
      subst hk
      cases h
      simp [tracker, Tracker.step, Focus.place]
    · split at h
      · cases h
      · exact stepOperand_tracker h
  · next d hf => exact stepDice_tracker (by rw [hf]; rfl) h
  · next d s hf =>
    split at h
    · obtain ⟨n, -, h⟩ := Except.bind_eq_ok_iff.mp h
      cases h
      simp [tracker, Tracker.step, hf, Focus.place]
    · exact stepDice_tracker (by rw [hf]; rfl) h
  · next d m hf =>
    split at h
    · obtain ⟨n, -, h⟩ := Except.bind_eq_ok_iff.mp h
      cases h
      simp [tracker, Tracker.step, hf, Focus.place]
    · cases h
      simp [tracker, Tracker.step, hf, Focus.place]
    · exact stepDice_tracker (by rw [hf]; rfl) h
  · next d m c hf =>
    split at h
    · obtain ⟨n, -, h⟩ := Except.bind_eq_ok_iff.mp h
      cases h
      simp [tracker, Tracker.step, hf, Focus.place]
    · cases h

/-! ## What a `d` is where the reader is -/

/-- No operand ends before a dice marker, so it does not stand behind a dice term. -/
theorem stepOperand_dice_ne (e : Expr) : r.stepOperand e .dice ≠ .ok r' := by
  unfold stepOperand
  rcases r.outer with _ | ⟨_, _⟩ <;> simp

/-- A dice marker is read outside of dice terms, and leads into the sides. -/
theorem step_dice (h : r.step .dice t = .ok r') :
    r.focus.place ≠ .complete ∧ ∃ c, r'.focus = .slot (.sides c) := by
  unfold step at h
  split at h
  · next s hf =>
    cases s with
    | operand => cases h; exact ⟨by simp [hf, Focus.place], _, rfl⟩
    | sides c => cases h
  · next e hf => cases h; exact ⟨by simp [hf, Focus.place], e, rfl⟩
  · exact absurd h (stepOperand_dice_ne _)
  · exact absurd h (stepOperand_dice_ne _)
  · exact absurd h (stepOperand_dice_ne _)
  · cases h

/-- A keep or drop is read in dice terms alone. -/
theorem step_select {s : Selection} (h : r.step (.select s) t = .ok r') :
    r.focus.place = .complete := by
  unfold step at h
  split at h
  · next s hf => cases s <;> cases h
  · next e hf => cases h
  · next d hf => rw [hf]; rfl
  · next d s hf => rw [hf]; rfl
  · next d m hf => rw [hf]; rfl
  · next d m c hf => cases h

/-- What is read for sides may follow a dice marker. -/
theorem startsSides_of_step {c : Expr} (hf : r.focus = .slot (.sides c))
    (h : r.step k t = .ok r') : k.startsSides = true := by
  simp only [step, hf] at h
  cases k <;> first | rfl | cases h

/-- The tracker takes a scanned token for what the reader takes it for. -/
theorem read_scanned {cs : List Char} (h : r.step k t = .ok r') (hs : k.Spells cs) :
    r.tracker.read (scanned k cs) = k := by
  unfold scanned
  split
  · next hcs =>
    rcases hs.eq_dice_or_drop hcs with rfl | rfl
    · exact if_neg fun hp => (step_dice h).1 hp.2
    · exact if_pos ⟨rfl, step_select h⟩
  · next hcs =>
    have hk : k ≠ .dice := fun he => hcs (by subst he; exact hs)
    exact if_neg fun hp => hk hp.1

/-- No expression ends behind a dice marker. -/
theorem finish_sides_ne {c e : Expr} (hf : r.focus = .slot (.sides c)) : r.finish ≠ .ok e := by
  simp [finish, hf, Focus.operand?]

end Reader

/-! ## Settling accepted tokens -/

/-- The word of a scanned token. -/
def scannedWord (w : Word) : Word := (scanned w.1 w.2.toList, w.2)

/-- Scanned tokens are settled as the accepted ones that they are scanned from. -/
theorem settle_accepted {ws : List Word} {r r' : Reader} {e : Expr} {ls : List Token}
    (hrun : readWords Reader.step r ws = .ok r') (hfin : r'.finish = .ok e)
    (hs : ∀ w ∈ ws, w.1.Spells w.2.toList) (hl : ls.map Lexeme.word = ws.map scannedWord) :
    ∃ us, settle r.tracker none ls = .ok us ∧ us.map Lexeme.word = ws := by
  induction ws generalizing r ls with
  | nil =>
    rw [List.map_nil, List.map_eq_nil_iff] at hl
    subst hl
    exact ⟨[], rfl, rfl⟩
  | cons w ws ih =>
    obtain ⟨l, ls, rfl, hw, hl⟩ := List.map_eq_cons_iff.mp hl
    rw [readWords_cons, Except.bind_eq_ok_iff] at hrun
    obtain ⟨r₁, hstep, hrun⟩ := hrun
    obtain ⟨us, hus, hwords⟩ := ih hrun (fun u hu => hs u (List.mem_cons_of_mem _ hu)) hl
    have hkind : l.kind = scanned w.1 w.2.toList := congrArg Prod.fst hw
    have htext : l.text = w.2 := congrArg Prod.snd hw
    have hread : r.tracker.read l.kind = w.1 := by
      rw [hkind]
      exact Reader.read_scanned hstep (hs w List.mem_cons_self)
    -- A dice marker is followed by a token that may start its sides.
    have hsides : ¬(w.1 = .dice ∧ (!(ls.head?.any (·.kind.startsSides))) = true) := by
      rintro ⟨hdice, hnone⟩
      rw [hdice] at hstep
      obtain ⟨-, c, hc⟩ := Reader.step_dice hstep
      cases ws with
      | nil =>
        cases hrun
        exact Reader.finish_sides_ne hc hfin
      | cons u ws =>
        obtain ⟨l', ls, rfl, hu, -⟩ := List.map_eq_cons_iff.mp hl
        rw [readWords_cons, Except.bind_eq_ok_iff] at hrun
        obtain ⟨r₂, hstep', -⟩ := hrun
        have hk := Reader.startsSides_of_step hc hstep'
        have hl' : l'.kind = scanned u.1 u.2.toList := congrArg Prod.fst hu
        have hsu := hs u (by simp)
        have hne : ¬(u.2.toList = ['d'] ∨ u.2.toList = ['D']) := fun hd => by
          rcases hsu.eq_dice_or_drop hd with he | he <;> rw [he] at hk <;> cases hk
        rw [scanned, if_neg hne] at hl'
        simp [hl', hk] at hnone
    refine ⟨{ l with kind := w.1 } :: us, ?_, by simp [Lexeme.word, htext, hwords]⟩
    rw [← Reader.step_tracker hstep] at hus
    simp only [settle, hread, if_neg hsides, hus]
    rfl

/-- A text that is scanned as the tokens of an accepted sequence is split into that sequence. -/
theorem tokenize_of_words? {ws : List Word} {e : Expr} {text : String}
    (hw : lexicon.words? text.toList = some (ws.map scannedWord))
    (hs : ∀ w ∈ ws, w.1.Spells w.2.toList) (h : Derives .sum ws e) :
    ∃ us, tokenize text = .ok us ∧ us.map Lexeme.word = ws := by
  obtain ⟨hfault, hl⟩ := Scan.words?_eq_some_iff.mp hw
  obtain ⟨r, hrun, hfin⟩ := h.readWords_start
  simp only [tokenize, hfault]
  exact settle_accepted hrun hfin hs hl

/-! ## Settled tokens -/

/-- A `d` that is settled is a token of its new kind. -/
theorem Kind.Spells.read {k : Kind} {cs : List Char} (h : k.Spells cs) (t : Tracker) :
    (t.read k).Spells cs := by
  unfold Tracker.read
  split
  · next hk =>
    obtain ⟨rfl, -⟩ := hk
    rcases h with rfl | rfl
    · exact .inl rfl
    · exact .inr (.inl rfl)
  · exact h

theorem settle_spells {t : Tracker} {fault : Option LexError} {ls us : List Token}
    (h : settle t fault ls = .ok us) (hs : ∀ l ∈ ls, l.kind.Spells l.text.toList) :
    fault = none ∧ ∀ u ∈ us, u.kind.Spells u.text.toList := by
  induction ls generalizing t us with
  | nil =>
    cases fault <;> cases h
    exact ⟨rfl, by simp⟩
  | cons l ls ih =>
    obtain ⟨hl, hls⟩ := List.forall_mem_cons.mp hs
    simp only [settle] at h
    split at h
    · cases h
    · cases hrest : settle (t.step (t.read l.kind)) fault ls with
      | error e => rw [hrest] at h; cases h
      | ok vs =>
        rw [hrest] at h
        cases h
        obtain ⟨hf, hvs⟩ := ih hrest hls
        exact ⟨hf, List.forall_mem_cons.mpr ⟨hl.read t, hvs⟩⟩

/-- A text that is split into tokens has words, and the tokens are spelled. -/
theorem spells_of_tokenize {text : String} {us : List Token} (h : tokenize text = .ok us) :
    (∃ ws, lexicon.words? text.toList = some ws) ∧ ∀ u ∈ us, u.kind.Spells u.text.toList :=
  Lexicon.spells_of_settle (settle .start) spells_of_longest? settle_spells h

/-! ## Texts with spaces -/

/-- No fixed spelling has white space. -/
theorem not_isSpace_of_mem_spellings : ∀ a ∈ spellings, ∀ c ∈ a.1, isSpace c = false := by
  simp [spellings, isSpace]

/-- No token goes on with white space. -/
theorem not_extends_space {cs : List Char} {c : Char} (hc : isSpace c = true) :
    ¬Extends cs c := by
  rintro (⟨hd, -⟩ | hm)
  · simp only [isSpace, Bool.or_eq_true, beq_iff_eq] at hc
    rcases hc with ((rfl | rfl) | rfl) | rfl <;> cases hd
  · obtain ⟨a, ha, he⟩ := List.mem_map.mp hm
    rw [not_isSpace_of_mem_spellings a ha c (by simp [he])] at hc
    cases hc

theorem stops_space (cs rest : List Char) : Stops cs (' ' :: rest) := by
  intro c hc
  cases hc
  exact not_extends_space rfl

theorem stops_nil (cs : List Char) : Stops cs [] := by
  intro c hc
  cases hc

/-- A text of tokens with a space between two of them is scanned as just these. -/
theorem words?_intercalate {ws : List Word} (hs : ∀ w ∈ ws, w.1.Spells w.2.toList) :
    lexicon.words? (" ".intercalate (ws.map Prod.snd)).toList = some (ws.map scannedWord) := by
  induction ws with
  | nil => exact Lexicon.words?_nil
  | cons w ws ih =>
    have hw := hs w List.mem_cons_self
    specialize ih fun u hu => hs u (List.mem_cons_of_mem _ hu)
    cases ws with
    | nil =>
      have h := words?_spelled hw (stops_nil _)
      rw [List.append_nil] at h
      simpa [scannedWord] using h
    | cons u ws =>
      have h := words?_spelled hw (stops_space _ (" ".intercalate ((u :: ws).map Prod.snd)).toList)
      rw [words?_space, ih] at h
      simpa [scannedWord] using h

/-- Tokens that are accepted are read back, with the same kinds and texts, from their texts with a
space between two of them. -/
theorem tokenize_intercalate {ts : List Token} {e : Expr} (h : parseTokens ts = .ok e)
    (hs : ∀ t ∈ ts, t.kind.Spells t.text.toList) :
    ∃ us, tokenize (" ".intercalate (ts.map (·.text))) = .ok us ∧
      us.map Lexeme.word = ts.map Lexeme.word := by
  have hs : ∀ w ∈ ts.map Lexeme.word, w.1.Spells w.2.toList := by
    simpa [Lexeme.word] using hs
  refine tokenize_of_words? ?_ hs (parseTokens_eq_ok_iff.mp h)
  have hw := words?_intercalate hs
  simpa [Lexeme.word, Function.comp_def] using hw

/-- Dice in the count of the sides of dice, with a drop and a dice marker that look alike. -/
theorem tokenize_nested_sides :
    ∃ us, tokenize (" ".intercalate ["2", "d", "(", "(", "3", ")", "D", "4", ")", "d", "1"]) =
        .ok us ∧
      us.map Lexeme.word = [(.int, "2"), (.dice, "d"), (.leftParen, "("), (.leftParen, "("),
        (.int, "3"), (.rightParen, ")"), (.dice, "D"), (.int, "4"), (.rightParen, ")"),
        (.select .dropLowest, "d"), (.int, "1")] := by
  exact @tokenize_intercalate
    [⟨.int, "2", 0⟩, ⟨.dice, "d", 1⟩, ⟨.leftParen, "(", 2⟩, ⟨.leftParen, "(", 3⟩, ⟨.int, "3", 4⟩,
      ⟨.rightParen, ")", 5⟩, ⟨.dice, "D", 6⟩, ⟨.int, "4", 7⟩, ⟨.rightParen, ")", 8⟩,
      ⟨.select .dropLowest, "d", 9⟩, ⟨.int, "1", 10⟩]
    (.dice (.literal 2) (.group (.dice (.group (.literal 3)) (.literal 4) []))
      [.select .dropLowest 1])
    (by rfl) (by simp [Kind.Spells])

end Tabletop.Notation
