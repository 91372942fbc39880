import Tabletop.Proofs.Notation.Marking
import Tabletop.Proofs.Notation.Writing

/-!
# Reading what is written

The text of an expression is scanned as its words, whatever is behind it, as long as that does not
make its last token longer. So an expression is read back from its text if and only if it is well
formed.

* `Scans cs o rest`: the text `cs` in front of `rest` is scanned as the words `o`.
* `Expr.scans_text`: the text of an expression is scanned as its words.
* `Expr.ofText_text_iff_wellFormed`: the expressions that are read back from their texts.
-/

namespace Tabletop

namespace Notation

/-- In front of `rest`, the text `cs` is scanned as the words `o` are; if it has none, the scan ends
in it. -/
def Scans (cs : List Char) (o : Option (List Word)) (rest : List Char) : Prop :=
  lexicon.Scans cs (o.map (·.map scannedWord)) rest

variable {cs ds rest : List Char} {o p : Option (List Word)}

theorem Scans.append (h : Scans cs o (ds ++ rest)) (h' : Scans ds p rest) :
    Scans (cs ++ ds) (do let ws ← o; let us ← p; some (ws ++ us)) rest := by
  have hall := Lexicon.Scans.append h h'
  cases o <;> cases p <;> simpa [Scans] using hall

theorem Scans.nil : Scans [] (some []) rest :=
  Lexicon.Scans.nil

theorem scans_space : Scans [' '] (some []) rest :=
  Lexicon.Scans.separator rfl

/-- A spelled token that is not made longer is scanned as itself. -/
theorem Kind.Spells.scans {k : Kind} {t : String} (h : k.Spells t.toList)
    (hs : Stops t.toList rest) : Scans t.toList (some [(k, t)]) rest := by
  obtain ⟨c, w, hw, hc⟩ := h.head
  exact Lexicon.Scans.lexeme hw hc (h.longest?_append hs)

/-! ## Where tokens end -/

instance (cs : List Char) (c : Char) : Decidable (Extends cs c) :=
  inferInstanceAs (Decidable (_ ∧ _ ∨ _))

/-- No fixed spelling has a digit. -/
theorem not_isDigit_of_mem_spellings : ∀ a ∈ spellings, ∀ c ∈ a.1, c.isDigit = false := by
  simp [spellings, Char.isDigit]

/-- A token that is no integer ends in front of a digit. -/
theorem not_extends_digit {c x : Char} (hc : c.isDigit = true) (hx : x ∈ cs)
    (hd : x.isDigit = false) : ¬Extends cs c := by
  rintro (⟨-, h⟩ | h)
  · rw [h x hx] at hd
    cases hd
  · obtain ⟨a, ha, he⟩ := List.mem_map.mp h
    have hn := not_isDigit_of_mem_spellings a ha c (by simp [he])
    rw [hc] at hn
    cases hn

/-- An integer ends in front of what is no digit. -/
theorem not_extends_int {c : Char} (h : Kind.Spells .int cs) (hc : c.isDigit = false) :
    ¬Extends cs c := by
  obtain ⟨hne, hd⟩ := h
  obtain ⟨x, cs, rfl⟩ := List.exists_cons_of_ne_nil hne
  rintro (⟨h, -⟩ | h)
  · rw [h] at hc
    cases hc
  · obtain ⟨a, ha, he⟩ := List.mem_map.mp h
    have hn := not_isDigit_of_mem_spellings a ha x (by simp [he])
    rw [hd x (by simp)] at hn
    cases hn

/-- A reference ends at its closing brace. -/
theorem stops_reference (h : Kind.Spells .reference cs) : Stops cs rest := by
  obtain ⟨name, hne, -, rfl⟩ := h
  rintro c - (⟨-, h⟩ | h)
  · exact absurd (h '$' (by simp)) (by decide)
  · obtain ⟨a, ha, he⟩ := List.mem_map.mp h
    have hlen := length_of_mem_spellings a ha
    simp [he] at hlen

/-- Nothing makes an operator or a parenthesis longer. -/
theorem stops_punctuation {c : Char} (hc : c ∈ ['+', '-', '*', '/', '(', ')']) :
    Stops [c] rest := by
  simp only [List.mem_cons, List.not_mem_nil, or_false] at hc
  rintro x - (⟨-, h⟩ | h)
  · have hd := h c List.mem_cons_self
    rcases hc with rfl | rfl | rfl | rfl | rfl | rfl <;> cases hd
  · rcases hc with rfl | rfl | rfl | rfl | rfl | rfl <;> simp [spellings] at h

/-- What is no integer ends in front of one. -/
theorem stops_int {x : Char} (hx : x ∈ cs) (hd : x.isDigit = false) (h : Kind.Spells .int ds) :
    Stops cs (ds ++ rest) := by
  obtain ⟨hne, hds⟩ := h
  obtain ⟨c, ds, rfl⟩ := List.exists_cons_of_ne_nil hne
  intro y hy
  cases hy
  exact not_extends_digit (hds c (by simp)) hx hd

end Notation

open Notation

variable {rest : List Char}

/-! ## Modifiers -/

theorem Comparison.head_text (c : Comparison) :
    ∃ x xs, (toString c).toList = x :: xs ∧ x ∈ ['<', '>', '='] := by
  change ∃ x xs, (c.relation.symbol ++ toString c.threshold).toList = x :: xs ∧ _
  rw [String.toList_append]
  cases c.relation <;> exact ⟨_, _, rfl, by decide⟩

/-- A comparison ends in front of what is no digit. -/
theorem Comparison.scans_text {c : Comparison} (h : 0 ≤ c.threshold)
    (hr : ∀ x ∈ rest.head?, x.isDigit = false) :
    Scans (toString c).toList (some c.words) rest := by
  have hint := spells_literal h
  have hsymbol : (Notation.Kind.compare c.relation).Spells c.relation.symbol.toList := rfl
  obtain ⟨x, hx, hd⟩ : ∃ x ∈ c.relation.symbol.toList, x.isDigit = false := by
    cases c.relation <;> exact ⟨_, List.mem_cons_self, rfl⟩
  change Scans (c.relation.symbol ++ toString c.threshold).toList _ _
  rw [String.toList_append]
  exact (hsymbol.scans (stops_int hx hd hint)).append
    (hint.scans fun y hy => not_extends_int hint (hr y hy))

namespace Modifier

variable {m n : Modifier} {ms : List Modifier}

/-- The last token of the modifier ends in front of the character. -/
def Ends : Modifier → Char → Prop
  | redraw r none, c => ¬Extends r.symbol.toList c
  | _, c => c.isDigit = false

/-- What a modifier starts with; an exclamation mark starts those that may cling. -/
theorem head_text (n : Modifier) : ∃ x xs, (toString n).toList = x :: xs ∧
    x ∈ ['k', 'd', 'r', '!', '<', '>', '='] ∧
      (x = '!' → ∃ r c, n = redraw r c ∧ r.isBang = true) := by
  cases n with
  | select s n =>
    change ∃ x xs, (s.symbol ++ toString n).toList = x :: xs ∧ _
    rw [String.toList_append]
    cases s <;> exact ⟨_, _, rfl, by decide, fun h => absurd h (by decide)⟩
  | redraw r c =>
    have hr : ∃ x xs, r.symbol.toList = x :: xs ∧
        x ∈ ['k', 'd', 'r', '!', '<', '>', '='] ∧ (x = '!' → r.isBang = true) := by
      cases r <;> exact ⟨_, _, rfl, by decide, by decide⟩
    obtain ⟨x, xs, hx, hmem, hbang⟩ := hr
    cases c with
    | none => exact ⟨x, xs, hx, hmem, fun h => ⟨r, none, rfl, hbang h⟩⟩
    | some c =>
      change ∃ x xs, (r.symbol ++ toString c).toList = x :: xs ∧ _
      rw [String.toList_append, hx]
      exact ⟨x, _, rfl, hmem, fun h => ⟨r, some c, rfl, hbang h⟩⟩
  | countSuccesses c =>
    obtain ⟨x, xs, hx, hmem⟩ := c.head_text
    have hall : ∀ y ∈ ['<', '>', '='], y ∈ ['k', 'd', 'r', '!', '<', '>', '='] ∧ y ≠ '!' := by
      simp
    exact ⟨x, xs, hx, (hall x hmem).1, fun h => absurd h (hall x hmem).2⟩

theorem scans_text (h : m.WellFormed) (hr : ∀ x ∈ rest.head?, m.Ends x) :
    Scans (toString m).toList (some m.words) rest := by
  cases m with
  | select s n =>
    have hint := spells_count n
    obtain ⟨x, hx, hd⟩ : ∃ x ∈ s.symbol.toList, x.isDigit = false := by
      cases s <;> exact ⟨_, List.mem_cons_self, rfl⟩
    change Scans (s.symbol ++ toString n).toList _ _
    rw [String.toList_append]
    exact ((spells_selection s).scans (stops_int hx hd hint)).append
      (hint.scans fun y hy => not_extends_int hint (hr y hy))
  | redraw r c =>
    have hsymbol : (Notation.Kind.redraw r).Spells r.symbol.toList := rfl
    cases c with
    | none => exact hsymbol.scans hr
    | some c =>
      change Scans (r.symbol ++ toString c).toList _ _
      rw [String.toList_append]
      refine (hsymbol.scans ?_).append (Comparison.scans_text h hr)
      obtain ⟨x, xs, hx, hmem⟩ := c.head_text
      have hall : ∀ y ∈ ['<', '>', '='], ¬Extends r.symbol.toList y := by
        simp only [List.forall_mem_cons, List.not_mem_nil, false_implies, implies_true, and_true]
        cases r <;> decide
      rw [hx]
      intro y hy
      cases hy
      exact hall x hmem
  | countSuccesses c => exact Comparison.scans_text h hr

theorem isDigit_of_starts : ∀ x ∈ ['k', 'd', 'r', '!', '<', '>', '='], x.isDigit = false := by
  simp [Char.isDigit]

/-- A modifier ends in front of one that does not cling to it. -/
theorem ends_head_text (h : m.clings n = false) :
    ∃ x xs, (toString n).toList = x :: xs ∧ m.Ends x := by
  obtain ⟨x, xs, hx, hmem, hbang⟩ := n.head_text
  have hd := isDigit_of_starts x hmem
  refine ⟨x, xs, hx, ?_⟩
  cases m with
  | select s k => exact hd
  | countSuccesses c => exact hd
  | redraw r c =>
    cases c with
    | some c => exact hd
    | none =>
      intro he
      have hr : ∀ y ∈ ['k', 'd', 'r', '!', '<', '>', '='], Extends r.symbol.toList y →
          y = '!' ∧ r.isBang = true := by
        simp only [List.forall_mem_cons, List.not_mem_nil, false_implies, implies_true, and_true]
        cases r <;> decide
      obtain ⟨hy, hr⟩ := hr x hmem he
      obtain ⟨r', c, rfl, hr'⟩ := hbang hy
      simp [clings, hr, hr'] at h

theorem ends_outside (m : Modifier) {c : Char} (hc : c = ' ' ∨ c = ')') : m.Ends c := by
  cases m with
  | select s k => rcases hc with rfl | rfl <;> rfl
  | countSuccesses d => rcases hc with rfl | rfl <;> rfl
  | redraw r d =>
    cases d with
    | some d => rcases hc with rfl | rfl <;> rfl
    | none =>
      change ¬Extends r.symbol.toList c
      rcases hc with rfl | rfl <;> cases r <;> decide

theorem chainText_head (m : Modifier) (ms : List Modifier) :
    ∃ cs, (chainText (m :: ms)).toList = (toString m).toList ++ cs := by
  cases ms with
  | nil => exact ⟨[], by simp⟩
  | cons n ms => exact ⟨_, by rw [chainText_cons_cons, String.append_assoc, String.toList_append]⟩

/-- A chain of modifiers is scanned as their words. -/
theorem scans_chainText (hw : ∀ m ∈ ms, m.WellFormed)
    (hr : ∀ x ∈ rest.head?, x = ' ' ∨ x = ')') :
    Scans (chainText ms).toList (some (ms.flatMap words)) rest := by
  induction ms with
  | nil => exact Scans.nil
  | cons m ms ih =>
    obtain ⟨hm, hms⟩ := List.forall_mem_cons.mp hw
    specialize ih hms
    cases ms with
    | nil =>
      rw [chainText_singleton, List.flatMap_singleton]
      exact scans_text hm fun x hx => m.ends_outside (hr x hx)
    | cons n ms =>
      rw [chainText_cons_cons, String.toList_append, List.flatMap_cons]
      refine Scans.append (o := some m.words) ?_ ih
      cases hc : m.clings n with
      | true =>
        have hm : Scans (toString m).toList (some m.words)
            ([' '] ++ ((chainText (n :: ms)).toList ++ rest)) :=
          scans_text hm fun x hx => m.ends_outside (.inl (Option.some.inj hx).symm)
        simpa using hm.append scans_space
      | false =>
        obtain ⟨x, xs, hx, hends⟩ := ends_head_text hc
        obtain ⟨cs, hcs⟩ := chainText_head n ms
        rw [if_neg (by simp), String.append_empty, hcs, hx]
        refine scans_text hm fun y hy => ?_
        cases hy
        exact hends

/-- Behind the sides of dice there is no digit. -/
theorem isDigit_of_head_chainText (hr : ∀ x ∈ rest.head?, x = ' ' ∨ x = ')') {c : Char}
    (hc : c ∈ ((chainText ms).toList ++ rest).head?) : c.isDigit = false := by
  cases ms with
  | nil => rcases hr c hc with rfl | rfl <;> rfl
  | cons n ms =>
    obtain ⟨x, xs, hx, hmem, -⟩ := n.head_text
    obtain ⟨cs, hcs⟩ := chainText_head n ms
    rw [hcs, hx] at hc
    cases hc
    exact isDigit_of_starts c hmem

end Modifier

/-! ## Expressions -/

namespace Expr

variable {e : Expr}

/-- The last token of the expression ends in front of the text. -/
def EndsAt (e : Expr) (rest : List Char) : Prop :=
  ∀ c ∈ rest.head?, c = ' ' ∨ c = ')' ∨ e.isAtom = true ∧ c.isDigit = false

theorem EndsAt.isDigit (h : e.EndsAt rest) {c : Char} (hc : c ∈ rest.head?) :
    c.isDigit = false := by
  rcases h c hc with rfl | rfl | ⟨-, h⟩
  · rfl
  · rfl
  · exact h

/-- Every expression ends in front of a space or a closing parenthesis. -/
theorem endsAt_outside (h : ∀ c ∈ rest.head?, c = ' ' ∨ c = ')') : e.EndsAt rest :=
  fun c hc => (h c hc).imp_right .inl

theorem EndsAt.outside (h : e.EndsAt rest) (ha : e.isAtom = false) :
    ∀ c ∈ rest.head?, c = ' ' ∨ c = ')' := by
  intro c hc
  rcases h c hc with hc | hc | ⟨ht, -⟩
  · exact .inl hc
  · exact .inr hc
  · rw [ha] at ht
    cases ht

/-- A dice marker is not made longer by the sides. -/
theorem stops_dice (ha : e.isAtom = true) (h : e.WellFormedWith Closed) :
    Stops ['d'] (e.text.toList ++ rest) := by
  cases e with
  | literal n => exact stops_int (x := 'd') (by simp) rfl (spells_literal h)
  | reference r =>
    rw [text, Reference.toList_toString]
    intro c hc
    cases hc
    decide
  | group e =>
    rw [text, String.append_assoc, String.toList_append]
    intro c hc
    cases hc
    decide
  | dice c s ms => cases ha
  | unary op e => cases ha
  | binary op l r => cases ha

/-- The text of an expression is scanned as its words. -/
theorem scans_text (h : e.WellFormedWith Closed) (hr : e.EndsAt rest) :
    Scans e.text.toList e.words? rest := by
  induction e generalizing rest with
  | literal n =>
    have hint := spells_literal h
    exact hint.scans fun c hc => not_extends_int hint (hr.isDigit hc)
  | reference r =>
    by_cases hb : r.body = []
    · have hnone : lexicon.longest? ('$' :: '\x7b' :: '\x7d' :: rest) = none := by rfl
      rw [words?, if_pos hb, text, Reference.toList_toString, hb]
      exact Lexicon.words?_eq_none rfl hnone
    · have hspell := spells_reference h hb
      rw [words?, if_neg hb]
      exact hspell.scans (stops_reference hspell)
  | dice c s ms ihc ihs =>
    obtain ⟨hc, hs, hcw, hsw, hms, -⟩ := h
    have hrest := hr.outside rfl
    have hchain := Modifier.scans_chainText hms hrest
    have hsides : Scans s.text.toList s.words? ((Modifier.chainText ms).toList ++ rest) :=
      ihs hsw fun x hx => .inr (.inr ⟨hs, Modifier.isDigit_of_head_chainText hrest hx⟩)
    have hmark : Scans "d".toList (some [(.dice, "d")])
        (s.text.toList ++ (Modifier.chainText ms).toList ++ rest) := by
      rw [List.append_assoc]
      exact Notation.Kind.Spells.scans (.inl rfl) (stops_dice hs hsw)
    have hmarked := hmark.append (hsides.append hchain)
    have hall := (ihc hcw fun x hx => .inr (.inr ⟨hc, by cases hx; rfl⟩)).append hmarked
    simp only [text, words?, String.toList_append, List.append_assoc] at hall ⊢
    cases hcs : c.words? <;> cases hss : s.words? <;> simpa [hcs, hss] using hall
  | group e ih =>
    have hopen : ∀ xs, Scans "(".toList (some [(.leftParen, "(")]) xs := fun xs =>
      Notation.Kind.Spells.scans rfl (stops_punctuation (by decide))
    have hclose : Scans ")".toList (some [(.rightParen, ")")]) rest :=
      Notation.Kind.Spells.scans rfl (stops_punctuation (by decide))
    have hinner := (ih h fun x hx => .inr (.inl (by cases hx; rfl))).append hclose
    have hall := (hopen _).append hinner
    simp only [text, words?, String.toList_append, List.append_assoc] at hall ⊢
    cases hes : e.words? <;> simpa [hes] using hall
  | unary op e ih =>
    have hsign : ∀ xs, Scans op.symbol.toList (some [(.operator op.operator, op.symbol)]) xs :=
      fun xs => Notation.Kind.Spells.scans (by cases op <;> rfl)
        (by cases op <;> exact stops_punctuation (by decide))
    have hall := (hsign _).append (ih h.2 (endsAt_outside (hr.outside rfl)))
    simp only [text, words?, String.toList_append] at hall ⊢
    cases hes : e.words? <;> simpa [hes] using hall
  | binary op l r ihl ihr =>
    have hright := ihr h.2.2 (endsAt_outside (hr.outside rfl))
    have hop : ∀ xs, Scans op.symbol.toList (some [(.operator op, op.symbol)]) xs := fun xs =>
      Notation.Kind.Spells.scans rfl (by cases op <;> exact stops_punctuation (by decide))
    have hright := scans_space.append ((hop _).append (scans_space.append hright))
    have hall := (ihl h.2.1 fun x hx => .inl (by cases hx; rfl)).append hright
    simp only [text, words?, String.toList_append, List.append_assoc] at hall ⊢
    cases hls : l.words? <;> cases hrs : r.words? <;> simpa [hls, hrs] using hall

theorem words?_text (h : e.WellFormedWith Closed) :
    lexicon.words? e.text.toList = e.words?.map (·.map scannedWord) := by
  have hscan : Scans e.text.toList e.words? [] := scans_text h (by simp [EndsAt])
  exact hscan.words?_eq

/-- The text of an expression is split into its words. -/
theorem tokenize_text {ws : List Word} (h : e.WellFormedWith Closed) (hws : e.words? = some ws) :
    ∃ us, tokenize e.text = .ok us ∧ us.map Lexeme.word = ws := by
  have hw : lexicon.words? e.text.toList = some (ws.map scannedWord) := by
    rw [words?_text h, hws]
    rfl
  exact tokenize_of_words? hw (spelled_words? h hws) (derives_words? h hws rfl)

/-- The text of an expression is read as what its words are read as. -/
theorem ofText_text_eq_ok_iff {e' : Expr} (h : e.WellFormedWith Closed) :
    ofText e.text = .ok e' ↔ (∃ ws, e.words? = some ws) ∧ e.reread = e' := by
  constructor
  · intro hread
    obtain ⟨ts, htokens, hparse⟩ := ofText_eq_ok_iff.mp hread
    obtain ⟨⟨vs, hvs⟩, -⟩ := spells_of_tokenize htokens
    rw [words?_text h, Option.map_eq_some_iff] at hvs
    obtain ⟨ws, hws, -⟩ := hvs
    obtain ⟨us, hus, hwords⟩ := tokenize_text h hws
    rw [htokens] at hus
    cases hus
    rw [hwords] at hparse
    exact ⟨⟨ws, hws⟩, (derives_words? h hws rfl).unique hparse⟩
  · rintro ⟨⟨ws, hws⟩, rfl⟩
    obtain ⟨us, hus, hwords⟩ := tokenize_text h hws
    exact ofText_eq_ok_iff.mpr ⟨us, hus, hwords ▸ derives_words? h hws rfl⟩

/-- What is read is well formed, but for names that are not read back. -/
theorem wellFormedWith_of_ofText {text : String} (h : ofText text = .ok e) :
    e.WellFormedWith Closed := by
  obtain ⟨ts, htokens, hd⟩ := ofText_eq_ok_iff.mp h
  obtain ⟨-, hs⟩ := spells_of_tokenize htokens
  refine (hd.wellFormedWith ?_).2
  intro w hw
  obtain ⟨t, ht, rfl⟩ := List.mem_map.mp hw
  exact hs t ht

/-- An expression is read back from its text if and only if it is well formed. -/
theorem ofText_text_iff_wellFormed (e : Expr) : ofText e.text = .ok e ↔ e.WellFormed := by
  constructor
  · intro h
    have hw := wellFormedWith_of_ofText h
    obtain ⟨⟨ws, hws⟩, hr⟩ := (ofText_text_eq_ok_iff hw).mp h
    exact wellFormed_of_reread hw hws hr
  · intro h
    obtain ⟨hw, hws, hr⟩ := h.reads_back
    exact (ofText_text_eq_ok_iff hw).mpr ⟨hws, hr⟩

end Expr

end Tabletop
