import Mathlib
import Tabletop.Proofs.Notation.RoundTrip

/-!
# Normalized notation

The text of an expression that was read is its normalized notation. Read again, it stands for the
same dice and modifiers, but a reference may come out as another one: its name has been trimmed, so
that a sigil that stood behind a blank now comes first, and nothing may be left of it.

* `Derives.references`: the references of an expression are those of the tokens it is read from.
* `Expr.wellFormedWith_iff_forall_references`: among expressions of one form, references alone
  decide which are well formed.
* `Expr.ofText_text_iff_of_ofText`: which normalized notation is read as the same expression.
-/

namespace Tabletop

namespace Reference

/-- The name shows of what kind the reference is: a name without a sigil is not empty and does not
start with one. -/
def Unambiguous (r : Reference) : Prop :=
  r.kind = .named →
    r.name ≠ "" ∧ r.name.toList.head? ≠ some '@' ∧ r.name.toList.head? ≠ some '?'

/-- A name that is read between braces is trimmed and closed, so it is read back if it shows its
kind. -/
theorem wellFormed_ofText_iff {text : String} (h : Notation.Closed (ofText text)) :
    (ofText text).WellFormed ↔ (ofText text).Unambiguous :=
  ⟨fun hw => hw.plain, fun hu => ⟨trim_name_ofText text, h, hu⟩⟩

end Reference

/-- The reference that a word stands for. -/
def Notation.reference? : Notation.Word → Option Reference
  | (.reference, text) => some (.ofText text)
  | _ => none

namespace Expr

/-- The references of an expression, from left to right. -/
def references : Expr → List Reference
  | literal _ => []
  | reference r => [r]
  | dice c s _ => c.references ++ s.references
  | group e => e.references
  | unary _ e => e.references
  | binary _ l r => l.references ++ r.references

end Expr

namespace Notation

theorem Modifies.references {ws : List Word} {m : Modifier} (h : Modifies ws m) :
    ws.filterMap reference? = [] := by
  cases h <;> rfl

theorem Chain.references {ws : List Word} {ms : List Modifier} (h : Chain ws ms) :
    ws.filterMap reference? = [] := by
  induction h with
  | nil => rfl
  | snoc _ hm _ ih => rw [List.filterMap_append, ih, hm.references, List.append_nil]

/-- The references of an expression are those of the words that it is derived from, in order. -/
theorem Derives.references {φ : Phrase} {ws : List Word} {e : Expr} (h : Derives φ ws e) :
    ws.filterMap reference? = e.references := by
  induction h with
  | product _ ih | signed _ ih | term _ ih | atom _ ih | count _ ih | sides _ ih => exact ih
  | sumStep _ _ _ ihl ihr | productStep _ _ _ ihl ihr =>
    rw [List.filterMap_append, List.filterMap_cons, ihl, ihr]
    rfl
  | sign _ _ ih => exact ih
  | dice _ _ hm ihc ihd =>
    rw [List.filterMap_append, List.filterMap_append, List.filterMap_cons, ihc, ihd, hm.references]
    simp [reference?, Expr.references]
  | one | percent | literal _ | reference => rfl
  | group _ ih =>
    rw [List.filterMap_append, List.filterMap_cons, ih]
    simp [reference?, Expr.references]

end Notation

open Notation

namespace Expr

variable {e : Expr} {text : String}

/-- Of two conditions on references, one is met by a well-formed expression that meets the other
just if all its references meet it. -/
theorem wellFormedWith_iff_forall_references {p q : Reference → Prop} (h : e.WellFormedWith p) :
    e.WellFormedWith q ↔ ∀ r ∈ e.references, q r := by
  induction e with
  | literal n =>
    have hn : 0 ≤ n := h
    simp [WellFormedWith, references, hn]
  | reference r => simp [WellFormedWith, references]
  | dice c s ms ihc ihs =>
    obtain ⟨hc, hs, hcw, hsw, hms⟩ := h
    simp only [WellFormedWith, references, List.forall_mem_append, ihc hcw, ihs hsw]
    exact ⟨fun h => ⟨h.2.2.1, h.2.2.2.1⟩, fun h => ⟨hc, hs, h.1, h.2, hms⟩⟩
  | group e ih => exact ih h
  | unary op e ih =>
    simp only [WellFormedWith, references, ih h.2, h.1, true_and]
  | binary op l r ihl ihr =>
    obtain ⟨hop, hl, hr⟩ := h
    simp only [WellFormedWith, references, List.forall_mem_append, ihl hl, ihr hr]
    exact and_iff_right hop

/-- An expression has words if there is something between the braces of each reference. -/
theorem exists_words?_iff :
    (∃ ws, e.words? = some ws) ↔ ∀ r ∈ e.references, r.body ≠ [] := by
  induction e with
  | literal n => simp [words?, references]
  | reference r => simp [words?, references]
  | dice c s ms ihc ihs | binary op c s ihc ihs =>
    rw [references, List.forall_mem_append, ← ihc, ← ihs, words?]
    cases c.words? <;> cases s.words? <;> simp
  | group e ih | unary op e ih =>
    rw [references, ← ih, words?]
    cases e.words? <;> simp

/-- What is read has the references of its tokens. -/
theorem references_of_ofText (h : ofText text = .ok e) :
    ∃ ts, tokenize text = .ok ts ∧ e.references = ts.filterMap (reference? ·.word) := by
  obtain ⟨ts, htokens, hd⟩ := ofText_eq_ok_iff.mp h
  refine ⟨ts, htokens, ?_⟩
  rw [← hd.references, List.filterMap_map]
  rfl

/-- Every reference that is read is that of some text. -/
theorem exists_eq_ofText_of_mem_references (h : ofText text = .ok e) :
    ∀ r ∈ e.references, ∃ t, r = .ofText t := by
  obtain ⟨ts, -, hrefs⟩ := references_of_ofText h
  intro r hr
  rw [hrefs, List.mem_filterMap] at hr
  obtain ⟨⟨k, t, p⟩, -, hw⟩ := hr
  cases k <;> cases hw
  exact ⟨t, rfl⟩

/-- What is read is well formed if its names show of what kind they are. -/
theorem wellFormed_iff_of_ofText (h : ofText text = .ok e) :
    e.WellFormed ↔ ∀ r ∈ e.references, r.Unambiguous := by
  have hclosed := wellFormedWith_of_ofText h
  have hall := (wellFormedWith_iff_forall_references hclosed).mp hclosed
  rw [WellFormed, wellFormedWith_iff_forall_references hclosed]
  refine forall₂_congr fun r hr => ?_
  obtain ⟨t, rfl⟩ := exists_eq_ofText_of_mem_references h r hr
  exact Reference.wellFormed_ofText_iff (hall _ hr)

/-- An expression that was read, with the references of its tokens, is read again from its
normalized notation if and only if the names of its references show of what kind they are. If
anything is read from the notation, it is the expression but for its references, and that fails only
where nothing is left between the braces of one. -/
theorem ofText_text_iff_of_ofText (h : ofText text = .ok e) :
    (∃ ts, tokenize text = .ok ts ∧ e.references = ts.filterMap (reference? ·.word)) ∧
    (ofText e.text = .ok e ↔ ∀ r ∈ e.references, r.Unambiguous) ∧
    ∀ e', ofText e.text = .ok e' ↔ (∀ r ∈ e.references, r.body ≠ []) ∧ e.reread = e' := by
  refine ⟨references_of_ofText h, ?_, fun e' => ?_⟩
  · rw [ofText_text_iff_wellFormed, wellFormed_iff_of_ofText h]
  · rw [ofText_text_eq_ok_iff (wellFormedWith_of_ofText h), exists_words?_iff]

/-- Blanks inside the braces, and a reference in the sides of dice. -/
theorem ofText_text_iff_of_blanks :
    ∃ e, e = dice (literal 2) (reference ⟨.property, "hp"⟩) [.redraw .explode none] ∧
      ofText " 2 d $\x7b@ hp \x7d!" = .ok e ∧ e.text = "2d$\x7b@hp\x7d!" ∧
        ofText e.text = .ok e := by
  have h : ofText " 2 d $\x7b@ hp \x7d!" =
      .ok (dice (literal 2) (reference ⟨.property, "hp"⟩) [.redraw .explode none]) := by
    cbv
  refine ⟨_, rfl, h, by cbv, (ofText_text_iff_of_ofText h).2.1.mpr ?_⟩
  simp [references, Reference.Unambiguous]

/-- A blank hides the sigil of a property, and the normalized notation shows it; a name of blanks
has no notation. -/
theorem normalized_notation_differs :
    (∃ e e', ofText "$\x7b @hp\x7d" = .ok e ∧ e.text = "$\x7b@hp\x7d" ∧
      ofText e.text = .ok e' ∧ e' ≠ e) ∧
    ∃ e error, ofText "$\x7b \x7d" = .ok e ∧ ofText e.text = .error error :=
  ⟨⟨reference ⟨.named, "@hp"⟩, reference ⟨.property, "hp"⟩, by cbv, by cbv, by cbv, by simp⟩,
    reference ⟨.named, ""⟩, .lex ⟨0, '$'⟩, by cbv, by cbv⟩

end Expr

end Tabletop
