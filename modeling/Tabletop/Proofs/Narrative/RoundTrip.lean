import Mathlib
import Tabletop.Proofs.Narrative.Gap
import Tabletop.Proofs.Narrative.Writing

/-!
# Reading what is written in narrative notation

The text of terms is scanned as their pieces. So terms are read back from their text if and only if
they are well formed and there are any.

* `scans_termsText`: the text of terms is scanned as their pieces.
* `parse_termsText_eq_ok_iff`: what the text of terms is read as.
* `parse_termsText_iff`: the terms that are read back, and when those that were read are.
-/

namespace Tabletop.Narrative

open Notation (Closed)

variable {rest : List Char}

/-! ## Scanning texts -/

theorem termsText_cons_cons (t u : Term) (terms : List Term) :
    termsText (t :: u :: terms) = t.text ++ " " ++ termsText (u :: terms) := by
  simp [termsText, termTexts]

theorem termsText_singleton (t : Term) : termsText [t] = t.text := by
  simp [termsText, termTexts]

/-- The text goes on with a space or a closing parenthesis. -/
def Outside (rest : List Char) : Prop :=
  ∀ c ∈ rest.head?, c = ' ' ∨ c = ')'

theorem Outside.stops_word (h : Outside rest) : Stops .word rest := by
  intro c hc
  rcases h c hc with rfl | rfl <;> rfl

theorem outside_nil : Outside [] := by
  simp [Outside]

theorem outside_cons {c : Char} {cs : List Char} (hc : c = ' ' ∨ c = ')') : Outside (c :: cs) := by
  intro x hx
  cases hx
  exact hc

/-- The text of a count in front of a letter is scanned as its piece. -/
theorem Count.scans_text {c : Count} (h : c.WellFormedWith Closed)
    (hr : ∀ x ∈ rest.head?, x.isDigit = false) :
    lexicon.Scans (toString c).toList (c.piece?.map ([·])) rest := by
  cases c with
  | literal n =>
    have hint : Piece.Spells .int (toString n).toList := Notation.spells_literal h
    exact hint.scans hr
  | reference r =>
    by_cases hb : r.body = []
    · have hnone : longest? ('$' :: '\x7b' :: '\x7d' :: rest) = none := by rfl
      change lexicon.Scans (toString r).toList _ rest
      rw [piece?, if_pos hb, Reference.toList_toString, hb]
      exact Lexicon.words?_eq_none rfl hnone
    · have hreference : Piece.Spells .reference (toString r).toList :=
        Notation.spells_reference h hb
      rw [piece?, if_neg hb]
      exact hreference.scans fun _ _ => rfl

/-- A count and the letter of a die or a symbol behind it. -/
theorem scans_item {c : Count} {letter : Char} {k : Kind} {text : String}
    (h : c.WellFormedWith Closed) (hk : Kind.ofLetter? letter = some k)
    (htext : text = letter.toString) (hr : Outside rest) :
    lexicon.Scans (toString c ++ text).toList (do let p ← c.piece?; some [p, (.word, text)])
      rest := by
  subst htext
  have hletter := isWordChar_of_ofLetter? hk
  have hlist : letter.toString.toList = [letter] := String.toList_singleton letter
  have hword : Piece.Spells .word letter.toString.toList := by
    rw [hlist]
    exact ⟨by simp, by simpa using hletter⟩
  have hcount : lexicon.Scans (toString c).toList (c.piece?.map ([·]))
      (letter.toString.toList ++ rest) := by
    refine Count.scans_text h fun x hx => ?_
    rw [hlist] at hx
    cases hx
    exact not_isDigit_of_isWordChar hletter
  have hall := hcount.append (hword.scans hr.stops_word)
  rw [String.toList_append]
  cases hp : c.piece? <;> simpa [hp] using hall

mutual

theorem scans_text {t : Term} (ht : t.WellFormedWith Closed) {rest : List Char}
    (hr : Outside rest) : lexicon.Scans t.text.toList t.pieces? rest := by
  cases t with
  | dice count d =>
    rw [Term.WellFormedWith] at ht
    rw [Term.text, Term.pieces?]
    exact scans_item ht (ofLetter?_letter d) rfl hr
  | symbols count f =>
    rw [Term.WellFormedWith] at ht
    obtain ⟨c, hletters, hc⟩ := Face.letters_of_single ht.2
    rw [Term.text, Term.pieces?]
    exact scans_item ht.1 hc hletters hr
  | group name terms =>
    rw [Term.WellFormedWith] at ht
    obtain ⟨hname, hterms⟩ := ht
    have hopen : ∀ xs, lexicon.Scans "(".toList (some [(.leftParen, "(")]) xs := fun xs =>
      Piece.Spells.scans rfl fun _ _ => rfl
    have hclose : lexicon.Scans ")".toList (some [(.rightParen, ")")]) rest :=
      Piece.Spells.scans rfl fun _ _ => rfl
    have houtside : Outside (')' :: rest) := outside_cons (.inr rfl)
    have hinner := (scans_termsText hterms houtside).append hclose
    have hspace : ∀ xs, lexicon.Scans [' '] (some []) xs := fun _ => .separator rfl
    have hcolon : ∀ xs, lexicon.Scans ":".toList (some [(.colon, ":")]) xs := fun xs =>
      Piece.Spells.scans rfl fun _ _ => rfl
    have hword : ∀ xs,
        lexicon.Scans name.toList (some [(.word, name)]) (":".toList ++ xs ++ rest) := fun xs =>
      Piece.Spells.scans (p := .word) hname (by rintro c hc; cases hc; rfl)
    have hall := (hopen _).append ((hword _).append ((hcolon _).append ((hspace _).append hinner)))
    simp only [Term.text, Term.pieces?, String.toList_append, List.append_assoc] at hall ⊢
    cases hps : termsPieces? terms <;> simpa [hps] using hall

/-- The text of terms is scanned as their pieces. -/
theorem scans_termsText {terms : List Term} (ht : termsWellFormedWith Closed terms)
    {rest : List Char} (hr : Outside rest) :
    lexicon.Scans (termsText terms).toList (termsPieces? terms) rest := by
  cases terms with
  | nil =>
    have hnil : (termsText []).toList = [] := by simp [termsText, termTexts]
    rw [hnil, termsPieces?]
    exact .nil
  | cons t terms =>
    rw [termsWellFormedWith] at ht
    cases terms with
    | nil =>
      have hlast := scans_text ht.1 hr
      rw [termsText_singleton, termsPieces?, termsPieces?]
      cases hps : t.pieces? <;> simpa [hps] using hlast
    | cons u terms =>
      have hrest := scans_termsText ht.2 hr
      have hspace : lexicon.Scans [' '] (some []) ((termsText (u :: terms)).toList ++ rest) :=
        .separator rfl
      have houtside : Outside (' ' :: ((termsText (u :: terms)).toList ++ rest)) :=
        outside_cons (.inl rfl)
      have hfirst := scans_text ht.1 houtside
      have hall := hfirst.append (hspace.append hrest)
      rw [termsText_cons_cons, String.toList_append, String.toList_append, List.append_assoc,
        termsPieces?]
      cases hps : t.pieces? <;> cases hqs : termsPieces? (u :: terms) <;>
        simpa [hps, hqs] using hall

end

/-! ## Reading texts -/

theorem Term.words_ne_nil (t : Term) : t.words ≠ [] := by
  cases t <;> simp [Term.words]

theorem termsWords_eq_nil_iff {terms : List Term} : termsWords terms = [] ↔ terms = [] := by
  cases terms with
  | nil => simp [termsWords]
  | cons t terms => simp [termsWords, t.words_ne_nil]

/-- The text of terms is split into their tokens. -/
theorem tokenize_termsText {terms : List Term} {ps : List PieceWord}
    (h : termsWellFormedWith Closed terms) (hps : termsPieces? terms = some ps) :
    ∃ us, tokenize (termsText terms) = .ok us ∧ us.map Lexeme.word = termsWords terms := by
  have hscan := scans_termsText h outside_nil
  have hsettles := settles_termsPieces? h hps .nil (by simp)
  exact tokenize_of_settles (hscan.words?_eq.trans hps) (by simpa using hsettles)

/-- The text of terms is read as the terms, with their references as they are read from their
texts, unless there are no terms or some reference is `${}`. -/
theorem parse_termsText_eq_ok_iff {terms terms' : List Term}
    (h : termsWellFormedWith Closed terms) :
    parse (termsText terms) = .ok terms' ↔
      terms ≠ [] ∧ (∃ ps, termsPieces? terms = some ps) ∧ termsReread terms = terms' := by
  have hfinish : Reader.finish ⟨[], (termsReread terms).reverse ++ [], .term⟩ =
      .ok (termsReread terms) := by simp [Reader.finish]
  have hrun := run_termsWords h [] []
  constructor
  · intro hparse
    obtain ⟨us, htokens, hparse⟩ := Except.bind_eq_ok_iff.mp hparse
    have htokens := Except.mapError_eq_ok_iff.mp htokens
    obtain ⟨⟨qs, hqs⟩, -⟩ := spells_of_tokenize htokens
    have hps := (scans_termsText h outside_nil).words?_eq.symm.trans hqs
    obtain ⟨vs, hvs, hwords⟩ := tokenize_termsText h hps
    rw [htokens] at hvs
    cases hvs
    obtain ⟨hne, r, hr, hterms⟩ := readAll_eq_ok_iff.mp (Except.mapError_eq_ok_iff.mp hparse)
    rw [hwords] at hr
    cases hr.symm.trans hrun
    cases hterms.symm.trans hfinish
    refine ⟨?_, ⟨qs, hps⟩, rfl⟩
    rintro rfl
    exact hne (List.map_eq_nil_iff.mp hwords)
  · rintro ⟨hne, ⟨ps, hps⟩, rfl⟩
    obtain ⟨us, hus, hwords⟩ := tokenize_termsText h hps
    have hparse : parseTokens us = .ok (termsReread terms) := by
      refine readAll_eq_ok_iff.mpr ⟨?_, _, hwords ▸ hrun, hfinish⟩
      rintro rfl
      exact hne (termsWords_eq_nil_iff.mp hwords.symm)
    exact Except.bind_eq_ok_iff.mpr
      ⟨us, Except.mapError_eq_ok_iff.mpr hus, Except.mapError_eq_ok_iff.mpr hparse⟩

/-! ## The text of an outcome -/

section

variable {σ : Type} [Source σ] {config : Config} {resolve : Resolver} {t t' : Tray σ}

/-- An outcome has the text of its terms. -/
theorem text_of_roll {o : Outcome} {terms : List Term}
    (h : t.roll (roll config resolve terms) = (.ok o, t')) : o.text = termsText terms := by
  obtain ⟨⟨o₁, spent⟩, t₁, hterms, h⟩ := Tray.roll_bind_eq_ok_iff.mp h
  cases h
  rw [text_of_rollTerms hterms, Outcome.start]

theorem exists_parse_of_rollText {o : Outcome} {text : String}
    (h : rollText config resolve text t = (.ok o, t')) :
    ∃ terms, parse text = .ok terms ∧ o.text = termsText terms := by
  unfold rollText at h
  split at h
  · cases h
  · next terms hparse =>
    refine ⟨terms, hparse, ?_⟩
    cases hroll : t.roll (roll config resolve terms) with
    | mk r t₁ =>
      rw [hroll] at h
      obtain ⟨hr, rfl⟩ := Prod.mk.inj h
      rw [Except.mapError_eq_ok_iff] at hr
      exact text_of_roll (hr ▸ hroll)

end

/-! ## Reading back -/

/-- Terms are read back from their text if and only if there are any and they are well formed.
Terms that were read from some text are read back if and only if their references are, also from
the text of an outcome. -/
theorem parse_termsText_iff :
    (∀ terms, parse (termsText terms) = .ok terms ↔ terms ≠ [] ∧ termsWellFormed terms) ∧
    (∀ text terms, parse text = .ok terms → (parse (termsText terms) = .ok terms ↔
      ∀ i ∈ termsItems terms, ∀ r, i.count = .reference r → r.WellFormed)) ∧
    (∀ (σ : Type) [Source σ] (config : Config) (resolve : Resolver) (t t' : Tray σ) text o,
      rollText config resolve text t = (.ok o, t') →
        ∃ terms, parse text = .ok terms ∧ (parse o.text = .ok terms ↔
          ∀ i ∈ termsItems terms, ∀ r, i.count = .reference r → r.WellFormed)) := by
  have hall : ∀ terms,
      parse (termsText terms) = .ok terms ↔ terms ≠ [] ∧ termsWellFormed terms := by
    intro terms
    constructor
    · intro h
      obtain ⟨hne, hclosed⟩ := wellFormedWith_of_parse h
      obtain ⟨-, hpieces, hreread⟩ := (parse_termsText_eq_ok_iff hclosed).mp h
      exact ⟨hne, (termsWellFormedWith_iff_reread terms).mpr ⟨hclosed, hpieces, hreread⟩⟩
    · rintro ⟨hne, h⟩
      obtain ⟨hclosed, hpieces, hreread⟩ := (termsWellFormedWith_iff_reread terms).mp h
      exact (parse_termsText_eq_ok_iff hclosed).mpr ⟨hne, hpieces, hreread⟩
  have hread : ∀ text terms, parse text = .ok terms → (parse (termsText terms) = .ok terms ↔
      ∀ i ∈ termsItems terms, ∀ r, i.count = .reference r → r.WellFormed) := by
    intro text terms h
    obtain ⟨hne, hclosed⟩ := wellFormedWith_of_parse h
    rw [hall, and_iff_right hne, termsWellFormed,
      termsWellFormedWith_iff_forall_reference hclosed]
  refine ⟨hall, hread, fun σ _ config resolve t t' text o h => ?_⟩
  obtain ⟨terms, hparse, htext⟩ := exists_parse_of_rollText h
  exact ⟨terms, hparse, htext ▸ hread text terms hparse⟩

/-- Letters without a space between them, a count that is left out, and an empty group. -/
theorem parse_termsText_nested :
    ∃ terms, parse "2gp (Aim: $\x7b@ skill \x7dy, s (x:))" = .ok terms ∧
      termsText terms = "2g 1p (Aim: $\x7b@skill\x7dy 1s (x: ))" ∧
      parse (termsText terms) = .ok terms := by
  have h : parse "2gp (Aim: $\x7b@ skill \x7dy, s (x:))" =
      .ok [.dice (.literal 2) .ability, .dice (.literal 1) .difficulty,
        .group "Aim" [.dice (.reference ⟨.property, "skill"⟩) .proficiency,
          .symbols (.literal 1) .success, .group "x" []]] := by
    cbv
  refine ⟨_, h, by cbv, (parse_termsText_iff.2.1 _ _ h).mpr ?_⟩
  simp only [termsItems, Term.items, List.append_nil, List.singleton_append, List.forall_mem_cons,
    Item.count]
  refine ⟨by simp, by simp, fun r hr => ?_, by simp, by simp⟩
  cases hr
  exact ⟨by cbv, by decide, fun h => by cases h⟩

end Tabletop.Narrative
