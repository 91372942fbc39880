import Tabletop.Narrative.Token
import Tabletop.Proofs.Notation.Spelling
import Tabletop.Proofs.Text.Reading

/-!
# Spellings of narrative tokens

How pieces and tokens of narrative notation are spelled, and what tokens a sequence of pieces
stands for. Integers and references are spelled as in the notation of dice.

* `Piece.Spells.scans`: a spelled piece that the text does not make longer is scanned as itself.
* `Settles ps ws`: the pieces `ps` stand for the tokens `ws`.
* `spells_of_tokenize`: every token of a text is spelled, and the whole text is scanned.
-/

namespace Tabletop.Narrative

/-- A kind of piece, and its characters. -/
abbrev PieceWord := Piece × String

/-- A kind of token, and its characters. -/
abbrev Word := Kind × String

/-- The characters are a word. -/
def IsWord (cs : List Char) : Prop :=
  cs ≠ [] ∧ ∀ c ∈ cs, isWordChar c = true

/-! ## Pieces -/

namespace Piece

/-- The characters are a piece of the kind. -/
def Spells : Piece → List Char → Prop
  | .int, cs => Notation.Kind.Spells .int cs
  | .reference, cs => Notation.Kind.Spells .reference cs
  | .word, cs => IsWord cs
  | .colon, cs => cs = [':']
  | .leftParen, cs => cs = ['(']
  | .rightParen, cs => cs = [')']

/-- Behind a piece of the kind, the character makes a longer one. -/
def goesOn : Piece → Char → Bool
  | .int, c => c.isDigit
  | .word, c => isWordChar c
  | _, _ => false

end Piece

/-- The text does not go on with a character that makes the piece longer. -/
def Stops (p : Piece) (rest : List Char) : Prop :=
  ∀ c ∈ rest.head?, p.goesOn c = false

theorem longest?_int {c : Char} {cs : List Char} (hc : c.isDigit = true) :
    longest? (c :: cs) = some (.int, Lexicon.run Char.isDigit (c :: cs)) := by
  have hne : c ≠ ':' ∧ c ≠ '(' ∧ c ≠ ')' := by
    refine ⟨?_, ?_, ?_⟩ <;> rintro rfl <;> cases hc
  simp [longest?, hne, hc]

theorem not_isDigit_of_isWordChar {c : Char} (hc : isWordChar c = true) : c.isDigit = false := by
  rw [isWordChar, Bool.or_eq_true, beq_iff_eq] at hc
  rcases hc with hc | rfl
  · change (decide (65 ≤ c.val ∧ c.val ≤ 90) || decide (97 ≤ c.val) && decide (c.val ≤ 122)) = true
      at hc
    simp only [Bool.or_eq_true, Bool.and_eq_true, decide_eq_true_eq] at hc
    simp only [Char.isDigit, Bool.and_eq_false_iff, decide_eq_false_iff_not, ge_iff_le,
      UInt32.le_iff_toNat_le] at hc ⊢
    simp at hc ⊢
    omega
  · rfl

theorem longest?_word {c : Char} {cs : List Char} (hc : isWordChar c = true) :
    longest? (c :: cs) = some (.word, Lexicon.run isWordChar (c :: cs)) := by
  have hne : c ≠ ':' ∧ c ≠ '(' ∧ c ≠ ')' := by
    refine ⟨?_, ?_, ?_⟩ <;> rintro rfl <;> cases hc
  simp [longest?, hne, hc, not_isDigit_of_isWordChar hc]

theorem longest?_reference {name rest : List Char} (hne : name ≠ []) (hb : '\x7d' ∉ name) :
    longest? ('$' :: '\x7b' :: (name ++ '\x7d' :: rest)) =
      some (.reference, name.length + 3) := by
  change (Lexicon.reference? _).map _ = _
  rw [Lexicon.reference?_braces hne hb]
  rfl

/-- A spelled piece that the text does not make longer is the longest one. -/
theorem Piece.Spells.longest?_append {p : Piece} {cs rest : List Char} (h : p.Spells cs)
    (hs : Stops p rest) : longest? (cs ++ rest) = some (p, cs.length) := by
  cases p with
  | int =>
    obtain ⟨hne, hd⟩ := h
    obtain ⟨c, w, rfl⟩ := List.exists_cons_of_ne_nil hne
    rw [List.cons_append, longest?_int (hd c List.mem_cons_self), ← List.cons_append,
      Lexicon.run_append hd hs]
  | word =>
    obtain ⟨hne, hw⟩ := h
    obtain ⟨c, w, rfl⟩ := List.exists_cons_of_ne_nil hne
    rw [List.cons_append, longest?_word (hw c List.mem_cons_self), ← List.cons_append,
      Lexicon.run_append hw hs]
  | reference =>
    obtain ⟨name, hne, hb, rfl⟩ := h
    have hlongest : longest? ('$' :: '\x7b' :: (name ++ '\x7d' :: rest)) = _ :=
      longest?_reference hne hb
    simpa using hlongest
  | colon | leftParen | rightParen =>
    cases h
    rfl

/-- A separator makes no piece longer. -/
theorem goesOn_separator (p : Piece) {c : Char} (hc : isSeparator c = true) :
    p.goesOn c = false := by
  simp only [isSeparator, Bool.or_eq_true, beq_iff_eq] at hc
  rcases hc with (((rfl | rfl) | rfl) | rfl) | rfl <;> cases p <;> rfl

/-- No piece starts with a separator. -/
theorem Piece.Spells.head {p : Piece} {cs : List Char} (h : p.Spells cs) :
    ∃ c w, cs = c :: w ∧ isSeparator c = false := by
  have hseparator : ∀ {q : Piece} {c : Char}, q.goesOn c = true → isSeparator c = false :=
    fun hc => Bool.eq_false_iff.mpr fun hs => by
      rw [goesOn_separator _ hs] at hc
      cases hc
  cases p with
  | int =>
    obtain ⟨hne, hd⟩ := h
    obtain ⟨c, w, rfl⟩ := List.exists_cons_of_ne_nil hne
    exact ⟨c, w, rfl, @hseparator .int c (hd c List.mem_cons_self)⟩
  | word =>
    obtain ⟨hne, hw⟩ := h
    obtain ⟨c, w, rfl⟩ := List.exists_cons_of_ne_nil hne
    exact ⟨c, w, rfl, @hseparator .word c (hw c List.mem_cons_self)⟩
  | reference =>
    obtain ⟨name, -, -, rfl⟩ := h
    exact ⟨'$', _, rfl, rfl⟩
  | colon | leftParen | rightParen =>
    cases h
    exact ⟨_, _, rfl, rfl⟩

/-- A spelled piece that the text does not make longer is scanned as itself. -/
theorem Piece.Spells.scans {p : Piece} {t : String} {rest : List Char} (h : p.Spells t.toList)
    (hs : Stops p rest) : lexicon.Scans t.toList (some [(p, t)]) rest := by
  obtain ⟨c, w, hw, hc⟩ := h.head
  exact .lexeme hw hc (h.longest?_append hs)

/-- Every piece that a scan finds is spelled. -/
theorem spells_of_longest? {cs : List Char} {p : Piece} {n : Nat}
    (h : longest? cs = some (p, n)) : p.Spells (cs.take n) := by
  have hrun : ∀ {q : Char → Bool} {c : Char} {cs : List Char}, q c = true →
      (c :: cs).take (Lexicon.run q (c :: cs)) ≠ [] ∧
        ∀ x ∈ (c :: cs).take (Lexicon.run q (c :: cs)), q x = true := by
    intro q c cs hc
    rw [Lexicon.take_run]
    exact ⟨by simp [hc], List.all_eq_true.mp List.all_takeWhile⟩
  unfold longest? at h
  split at h
  · cases h
  · next c cs =>
    split at h
    · next hc => cases h; exact congrArg ([·]) hc
    split at h
    · next hc => cases h; exact congrArg ([·]) hc
    split at h
    · next hc => cases h; exact congrArg ([·]) hc
    split at h
    · next hc => cases h; exact hrun hc
    split at h
    · next hc => cases h; exact hrun hc
    · obtain ⟨n, hn, h⟩ := Option.map_eq_some_iff.mp h
      cases h
      exact Notation.spells_of_reference? hn

/-- Behind a piece that a scan finds, the text does not make it longer. -/
theorem stops_of_longest? {cs : List Char} {p : Piece} {n : Nat}
    (h : longest? cs = some (p, n)) : Stops p (cs.drop n) := by
  have hrun : ∀ (q : Char → Bool) (cs : List Char),
      ∀ c ∈ (cs.drop (Lexicon.run q cs)).head?, q c = false := by
    intro q cs
    obtain ⟨xs, ys, rfl, hn, -, hys⟩ := Lexicon.run_splits q cs
    rwa [hn, List.drop_left]
  unfold longest? at h
  split at h
  · cases h
  · next c cs =>
    split at h
    · cases h; exact fun _ _ => rfl
    split at h
    · cases h; exact fun _ _ => rfl
    split at h
    · cases h; exact fun _ _ => rfl
    split at h
    · cases h; exact hrun _ _
    split at h
    · cases h; exact hrun _ _
    · obtain ⟨n, -, h⟩ := Option.map_eq_some_iff.mp h
      cases h
      exact fun _ _ => rfl

/-! ## Tokens -/

/-- The characters are a token of the kind. -/
def Kind.Spells : Kind → List Char → Prop
  | .int, cs => Notation.Kind.Spells .int cs
  | .reference, cs => Notation.Kind.Spells .reference cs
  | .groupName, cs => IsWord cs
  | .leftParen, cs => cs = ['(']
  | .rightParen, cs => cs = [')']
  | k, cs => ∃ c, Kind.ofLetter? c = some k ∧ cs = [c]

theorem spells_of_ofLetter? {c : Char} {k : Kind} (h : Kind.ofLetter? c = some k) :
    k.Spells [c] := by
  unfold Kind.ofLetter? at h
  split at h
  · next d hd =>
    cases h
    exact ⟨c, by rw [Kind.ofLetter?, hd], rfl⟩
  · next hd =>
    obtain ⟨f, hf, rfl⟩ := Option.map_eq_some_iff.mp h
    exact ⟨c, by rw [Kind.ofLetter?, hd, hf]; rfl, rfl⟩

theorem isWordChar_of_ofLetter? {c : Char} {k : Kind} (h : Kind.ofLetter? c = some k) :
    isWordChar c = true := by
  unfold Kind.ofLetter? at h
  split at h
  · next d hd =>
    unfold SymbolDie.ofLetter? at hd
    split at hd <;> first | rfl | cases hd
  · obtain ⟨f, hf, -⟩ := Option.map_eq_some_iff.mp h
    unfold Face.ofLetter? at hf
    split at hf <;> first | rfl | cases hf

/-- The letters of a word are tokens each. -/
theorem spells_of_spell {position : Nat} {cs : List Char} {us : List Token}
    (h : spell position cs = .ok us) : ∀ u ∈ us, u.kind.Spells u.text.toList := by
  induction cs generalizing position us with
  | nil =>
    cases h
    simp
  | cons c cs ih =>
    unfold spell at h
    split at h
    · cases h
    · next k hk =>
      obtain ⟨vs, hvs, rfl⟩ := Except.map_eq_ok_iff.mp h
      exact List.forall_mem_cons.mpr ⟨by simpa using spells_of_ofLetter? hk, ih hvs⟩

/-- The tokens of spelled pieces are spelled. -/
theorem settle_spells {fault : Option LexError} {ls : List (Lexeme Piece)} {us : List Token}
    (h : settle fault ls = .ok us) (hs : ∀ l ∈ ls, l.kind.Spells l.text.toList) :
    fault = none ∧ ∀ u ∈ us, u.kind.Spells u.text.toList := by
  fun_induction settle fault ls generalizing us with
  | case1 hf =>
    cases h
    exact ⟨hf, by simp⟩
  | case2 => cases h
  | case3 t position rest ih | case4 t position rest ih | case5 t position rest ih
  | case6 t position rest ih =>
    obtain ⟨vs, hvs, rfl⟩ := Except.map_eq_ok_iff.mp h
    obtain ⟨hl, hrest⟩ := List.forall_mem_cons.mp hs
    exact (ih hvs hrest).imp id fun hus => List.forall_mem_cons.mpr ⟨hl, hus⟩
  | case7 => cases h
  | case8 t position t' position' rest ih =>
    obtain ⟨vs, hvs, rfl⟩ := Except.map_eq_ok_iff.mp h
    obtain ⟨hl, hrest⟩ := List.forall_mem_cons.mp hs
    exact (ih hvs (List.forall_mem_cons.mp hrest).2).imp id fun hus =>
      List.forall_mem_cons.mpr ⟨hl, hus⟩
  | case9 t position rest _ ih =>
    obtain ⟨letters, hletters, h⟩ := Except.bind_eq_ok_iff.mp h
    obtain ⟨vs, hvs, rfl⟩ := Except.map_eq_ok_iff.mp h
    exact (ih hvs (List.forall_mem_cons.mp hs).2).imp id fun hus =>
      List.forall_mem_append.mpr ⟨spells_of_spell hletters, hus⟩

/-- A text that is split into tokens is scanned to its end, and the tokens are spelled. -/
theorem spells_of_tokenize {text : String} {us : List Token} (h : tokenize text = .ok us) :
    (∃ ps, lexicon.words? text.toList = some ps) ∧ ∀ u ∈ us, u.kind.Spells u.text.toList :=
  Lexicon.spells_of_settle settle spells_of_longest? settle_spells h

/-! ## Pieces that stand for tokens -/

/-- The token that a piece is by itself. -/
def Piece.token? : Piece → Option Kind
  | .int => some .int
  | .reference => some .reference
  | .leftParen => some .leftParen
  | .rightParen => some .rightParen
  | .word | .colon => none

/-- The pieces stand for the tokens, wherever they are. -/
def Settles (ps : List PieceWord) (ws : List Word) : Prop :=
  ∀ ls : List (Lexeme Piece), ls.map Lexeme.word = ps →
    ∃ us, settle none ls = .ok us ∧ us.map Lexeme.word = ws

namespace Settles

variable {ps : List PieceWord} {ws : List Word}

theorem nil : Settles [] [] := by
  intro ls hls
  cases List.map_eq_nil_iff.mp hls
  exact ⟨[], rfl, rfl⟩

theorem exists_lexeme {ls : List (Lexeme Piece)} {p : Piece} {t : String}
    (h : ls.map Lexeme.word = (p, t) :: ps) :
    ∃ position rest, ls = ⟨p, t, position⟩ :: rest ∧ rest.map Lexeme.word = ps := by
  obtain ⟨⟨q, t', position⟩, rest, rfl, hl, hrest⟩ := List.map_eq_cons_iff.mp h
  cases hl
  exact ⟨position, rest, rfl, hrest⟩

theorem plain {p : Piece} {k : Kind} (h : Settles ps ws) (hk : p.token? = some k) (t : String) :
    Settles ((p, t) :: ps) ((k, t) :: ws) := by
  intro ls hls
  obtain ⟨position, rest, rfl, hrest⟩ := exists_lexeme hls
  obtain ⟨us, hus, rfl⟩ := h rest hrest
  refine ⟨⟨k, t, position⟩ :: us, ?_, rfl⟩
  cases p with
  | word | colon => cases hk
  | int | reference | leftParen | rightParen =>
    cases hk
    rw [settle, hus]
    rfl

/-- A word with a colon behind it is the name of a group. -/
theorem groupName (h : Settles ps ws) (name t : String) :
    Settles ((.word, name) :: (.colon, t) :: ps) ((.groupName, name) :: ws) := by
  intro ls hls
  obtain ⟨position, behind, rfl, hbehind⟩ := exists_lexeme hls
  obtain ⟨position', rest, rfl, hrest⟩ := exists_lexeme hbehind
  obtain ⟨us, hus, rfl⟩ := h rest hrest
  exact ⟨⟨.groupName, name, position⟩ :: us, by rw [settle, hus]; rfl, rfl⟩

/-- A letter is a die or a symbol, unless a colon follows it. -/
theorem letter {c : Char} {k : Kind} (h : Settles ps ws) (hc : Kind.ofLetter? c = some k)
    (hps : ∀ p ∈ ps.head?, p.1 ≠ .colon) :
    Settles ((.word, c.toString) :: ps) ((k, c.toString) :: ws) := by
  intro ls hls
  obtain ⟨position, rest, rfl, hrest⟩ := exists_lexeme hls
  obtain ⟨us, hus, rfl⟩ := h rest hrest
  have hspell : spell position c.toString.toList = .ok [⟨k, c.toString, position⟩] := by
    rw [Char.toString, String.toList_singleton, spell, hc]
    rfl
  refine ⟨⟨k, c.toString, position⟩ :: us, ?_, rfl⟩
  rw [settle, hspell, hus]
  · rfl
  · rintro t p rest rfl
    rw [← hrest] at hps
    exact hps _ rfl rfl

end Settles

/-- A text with pieces that stand for tokens is split into these. -/
theorem tokenize_of_settles {text : String} {ps : List PieceWord} {ws : List Word}
    (h : lexicon.words? text.toList = some ps) (hs : Settles ps ws) :
    ∃ us, tokenize text = .ok us ∧ us.map Lexeme.word = ws := by
  obtain ⟨hfault, hwords⟩ := Scan.words?_eq_some_iff.mp h
  obtain ⟨us, hus, hws⟩ := hs _ hwords
  exact ⟨us, by rw [tokenize, hfault, hus], hws⟩

end Tabletop.Narrative
