import Tabletop.Notation.Token
import Tabletop.Proofs.Text.Scanning

/-!
# Spellings of tokens

How the tokens of each kind are spelled, and where a text ends the longest token at its start.

* `Kind.Spells k cs`: the characters are a token of the kind `k`.
* `Extends cs c`: the character `c` behind the token `cs` may make a longer one.
* `words?_spelled`: a spelled token that is not extended is the first word of a text. A drop that
  is spelled `d` is scanned as a dice marker (`scanned`).
* `spells_of_longest?`: every token that a scan finds is spelled.
-/

namespace Tabletop.Notation

/-- The characters are a token of the kind. -/
def Kind.Spells : Kind → List Char → Prop
  | .int, cs => cs ≠ [] ∧ ∀ c ∈ cs, c.isDigit = true
  | .dice, cs => cs = ['d'] ∨ cs = ['D']
  | .percent, cs => cs = ['%']
  | .operator op, cs => cs = op.symbol.toList
  | .leftParen, cs => cs = ['(']
  | .rightParen, cs => cs = [')']
  | .select .keepHighest, cs => cs = ['k'] ∨ cs = ['k', 'h']
  | .select .dropLowest, cs => cs = ['d'] ∨ cs = ['D'] ∨ cs = ['d', 'l']
  | .select s, cs => cs = s.symbol.toList
  | .redraw r, cs => cs = r.symbol.toList
  | .compare c, cs => cs = c.symbol.toList
  | .reference, cs => ∃ name, name ≠ [] ∧ '\x7d' ∉ name ∧ cs = '$' :: '\x7b' :: name ++ ['\x7d']
  | .unknown, _ => False

/-- The kind as which a token of the kind `k` is scanned: a lone `d` is a dice marker. -/
def scanned (k : Kind) (cs : List Char) : Kind :=
  if cs = ['d'] ∨ cs = ['D'] then .dice else k

/-- Behind the token `cs`, the character may make a longer one. -/
def Extends (cs : List Char) (c : Char) : Prop :=
  c.isDigit = true ∧ (∀ x ∈ cs, x.isDigit = true) ∨ cs ++ [c] ∈ spellings.map (·.1)

/-- The text does not go on with a character that makes the token `cs` longer. -/
def Stops (cs rest : List Char) : Prop :=
  ∀ c ∈ rest.head?, ¬Extends cs c

/-! ## Fixed spellings -/

theorem length_of_mem_spellings : ∀ a ∈ spellings, a.1.length ≤ 2 := by decide

/-- The table has every spelling behind those that it starts. -/
theorem spellings_pairwise : spellings.Pairwise fun a b => ¬a.1 <+: b.1 := by decide

/-- No fixed spelling starts like an integer, a reference or a space. -/
theorem head_of_mem_spellings :
    ∀ a ∈ spellings, ∃ c cs, a.1 = c :: cs ∧ c.isDigit = false ∧ c ≠ '$' ∧ isSpace c = false := by
  simp only [spellings, List.forall_mem_cons, List.cons.injEq]
  simp [isSpace, Char.isDigit]

theorem longest?_of_find? {cs w : List Char} {k : Kind}
    (h : spellings.find? (fun a => a.1.isPrefixOf cs) = some (w, k)) :
    longest? cs = some (k, w.length) := by
  unfold longest?
  split
  · next w' k' hfind =>
    have hsame := h.symm.trans hfind
    cases hsame
    rfl
  · next hfind => cases h.symm.trans hfind

/-- Where a fixed spelling is not made longer, it is the first one of the table that fits. -/
theorem longest?_of_mem {w rest : List Char} {k : Kind} (hm : (w, k) ∈ spellings)
    (hs : Stops w rest) : longest? (w ++ rest) = some (k, w.length) := by
  obtain ⟨c, cs, rfl, -⟩ := head_of_mem_spellings _ hm
  obtain ⟨before, after, htable⟩ := List.append_of_mem hm
  refine longest?_of_find? (List.find?_eq_some_iff_append.mpr
    ⟨by simp, before, after, htable, fun a ha => ?_⟩)
  have hmem : a ∈ spellings := by rw [htable]; exact List.mem_append_left _ ha
  have hprefix : ¬a.1 <+: c :: cs := by
    have h := spellings_pairwise
    rw [htable, List.pairwise_append] at h
    exact h.2.2 a ha _ (List.mem_cons_self ..)
  simp only [Bool.not_eq_true', Bool.eq_false_iff, ne_eq, List.isPrefixOf_iff_prefix]
  intro hp
  -- A longer spelling has just one character more, which extends the token.
  rcases List.prefix_or_prefix_of_prefix hp (List.prefix_append (c :: cs) rest) with h | h
  · exact hprefix h
  obtain ⟨us, hu⟩ := h
  rw [← hu, List.prefix_append_right_inj] at hp
  obtain ⟨vs, rfl⟩ := hp
  cases us with
  | nil => exact hprefix (by simp [← hu])
  | cons u us =>
    have hlen := length_of_mem_spellings a hmem
    rw [← hu] at hlen
    have hus : us = [] := List.eq_nil_of_length_eq_zero (by simp at hlen; omega)
    subst hus
    exact hs u rfl (.inr (List.mem_map.mpr ⟨a, hmem, hu.symm⟩))

/-- A text that starts like no fixed spelling. -/
theorem find?_spellings_eq_none {c : Char} {cs : List Char}
    (h : ∀ a ∈ spellings, a.1.head? ≠ some c) :
    spellings.find? (fun (word, _) => word.isPrefixOf (c :: cs)) = none := by
  rw [List.find?_eq_none]
  intro a ha hp
  obtain ⟨x, xs, hx, -⟩ := head_of_mem_spellings a ha
  change a.1.isPrefixOf (c :: cs) = true at hp
  rw [hx, List.isPrefixOf_iff_prefix, List.cons_prefix_cons] at hp
  exact h a ha (by rw [hx, hp.1]; rfl)

/-! ## Integers and references -/

theorem longest?_int {ds rest : List Char} (hne : ds ≠ []) (hd : ∀ c ∈ ds, c.isDigit = true)
    (hs : Stops ds rest) : longest? (ds ++ rest) = some (.int, ds.length) := by
  cases ds with
  | nil => exact absurd rfl hne
  | cons c cs =>
    have hc := hd c (by simp)
    have hfind : spellings.find? (fun (word, _) => word.isPrefixOf (c :: (cs ++ rest))) = none :=
      find?_spellings_eq_none fun a ha he => by
        obtain ⟨x, xs, hx, hdigit, -⟩ := head_of_mem_spellings a ha
        rw [hx] at he
        cases he
        rw [hc] at hdigit
        cases hdigit
    have href : Lexicon.reference? (c :: (cs ++ rest)) = none := by
      unfold Lexicon.reference?
      split
      · next h =>
        rw [List.cons.injEq] at h
        rw [h.1] at hc
        cases hc
      · rfl
    have hrest : ∀ x ∈ rest.head?, x.isDigit = false := fun x hx =>
      Bool.eq_false_iff.mpr fun h => hs x hx (.inl ⟨h, hd⟩)
    have hrun := Lexicon.run_append hd hrest
    rw [List.cons_append] at hrun ⊢
    simp only [longest?, hfind, href, hrun]
    rfl

theorem longest?_reference {name rest : List Char} (hne : name ≠ []) (hb : '\x7d' ∉ name) :
    longest? ('$' :: '\x7b' :: (name ++ '\x7d' :: rest)) = some (.reference, name.length + 3) := by
  have hfind : spellings.find?
      (fun (word, _) => word.isPrefixOf ('$' :: '\x7b' :: (name ++ '\x7d' :: rest))) = none :=
    find?_spellings_eq_none fun a ha he => by
      obtain ⟨x, xs, hx, -, hdollar, -⟩ := head_of_mem_spellings a ha
      rw [hx] at he
      cases he
      exact hdollar rfl
  simp only [longest?, hfind, Lexicon.reference?_braces hne hb]

/-! ## Spelled tokens -/

namespace Kind

variable {k : Kind} {cs : List Char}

/-- Apart from integers and references, what is spelled stands in the table. -/
theorem Spells.mem (h : k.Spells cs) (hi : k ≠ .int) (hr : k ≠ .reference) :
    (cs, scanned k cs) ∈ spellings := by
  cases k with
  | int => exact absurd rfl hi
  | reference => exact absurd rfl hr
  | unknown => cases h
  | dice => rcases h with rfl | rfl <;> decide
  | percent | leftParen | rightParen => cases h; decide
  | operator op => cases h; cases op <;> decide
  | redraw r => cases h; cases r <;> decide
  | compare c => cases h; cases c <;> decide
  | select s =>
    cases s with
    | keepHighest => rcases h with rfl | rfl <;> decide
    | dropLowest => rcases h with rfl | rfl | rfl <;> decide
    | keepLowest | dropHighest => cases h; decide

theorem scanned_int (h : Kind.Spells .int cs) : scanned .int cs = .int := by
  unfold scanned
  rw [if_neg]
  rintro (rfl | rfl) <;> exact absurd (h.2 _ List.mem_cons_self) (by decide)

theorem scanned_reference (h : Kind.Spells .reference cs) : scanned .reference cs = .reference := by
  obtain ⟨name, -, -, rfl⟩ := h
  unfold scanned
  rw [if_neg]
  rintro (h | h) <;> cases h

/-- A lone `d` is a dice marker or drops the lowest die. -/
theorem Spells.eq_dice_or_drop (h : k.Spells cs) (hd : cs = ['d'] ∨ cs = ['D']) :
    k = .dice ∨ k = .select .dropLowest := by
  cases k with
  | dice => exact .inl rfl
  | int => rcases hd with rfl | rfl <;> exact absurd (h.2 _ List.mem_cons_self) (by decide)
  | reference =>
    obtain ⟨name, -, -, rfl⟩ := h
    rcases hd with hd | hd <;> cases hd
  | unknown => cases h
  | percent | leftParen | rightParen => cases h; exact absurd hd (by decide)
  | operator op => cases h; cases op <;> exact absurd hd (by decide)
  | redraw r => cases h; cases r <;> exact absurd hd (by decide)
  | compare c => cases h; cases c <;> exact absurd hd (by decide)
  | select s =>
    cases s with
    | dropLowest => exact .inr rfl
    | keepHighest => rcases h with rfl | rfl <;> exact absurd hd (by decide)
    | keepLowest | dropHighest => cases h; exact absurd hd (by decide)

/-- A spelled token that the text does not make longer is the longest one. -/
theorem Spells.longest?_append (h : k.Spells cs) {rest : List Char} (hs : Stops cs rest) :
    longest? (cs ++ rest) = some (scanned k cs, cs.length) := by
  by_cases hi : k = .int
  · subst hi
    rw [scanned_int h]
    exact longest?_int h.1 h.2 hs
  by_cases hr : k = .reference
  · subst hr
    rw [scanned_reference h]
    obtain ⟨name, hne, hb, rfl⟩ := h
    simpa using @longest?_reference name rest hne hb
  exact longest?_of_mem (h.mem hi hr) hs

/-- A spelled token starts with no space. -/
theorem Spells.head (h : k.Spells cs) : ∃ c w, cs = c :: w ∧ isSpace c = false := by
  by_cases hi : k = .int
  · subst hi
    obtain ⟨hne, hd⟩ := h
    obtain ⟨c, w, rfl⟩ := List.exists_cons_of_ne_nil hne
    refine ⟨c, w, rfl, ?_⟩
    have hc := hd c (by simp)
    unfold isSpace
    rw [Bool.eq_false_iff]
    intro hspace
    simp only [Bool.or_eq_true, beq_iff_eq] at hspace
    rcases hspace with ((rfl | rfl) | rfl) | rfl <;> cases hc
  by_cases hr : k = .reference
  · subst hr
    obtain ⟨name, -, -, rfl⟩ := h
    exact ⟨'$', _, rfl, rfl⟩
  obtain ⟨c, w, hw, -, -, hc⟩ := head_of_mem_spellings _ (h.mem hi hr)
  exact ⟨c, w, hw, hc⟩

end Kind

/-- A spelled token that the text does not make longer is its first word. -/
theorem words?_spelled {k : Kind} {cs rest : List Char} (h : k.Spells cs) (hs : Stops cs rest) :
    lexicon.words? (cs ++ rest) =
      (lexicon.words? rest).map ((scanned k cs, String.ofList cs) :: ·) := by
  obtain ⟨c, w, rfl, hc⟩ := h.head
  exact Lexicon.words?_append hc (h.longest?_append hs)

theorem words?_space (cs : List Char) : lexicon.words? (' ' :: cs) = lexicon.words? cs :=
  Lexicon.words?_separator rfl

/-! ## What a scan finds -/

theorem spells_of_mem_spellings : ∀ a ∈ spellings, a.2.Spells a.1 := by
  simp only [spellings, List.forall_mem_cons, Kind.Spells]
  simp [Selection.symbol, Redraw.symbol, Relation.symbol, BinaryOp.symbol]

/-- A reference is found where there is a name between `${` and `}`. -/
theorem spells_of_reference? {cs : List Char} {n : Nat} (h : Lexicon.reference? cs = some n) :
    Kind.Spells .reference (cs.take n) := by
  unfold Lexicon.reference? at h
  split at h
  · next cs =>
    obtain ⟨name, rest, rfl, hn, hname, hrest⟩ := Lexicon.run_splits (· != '\x7d') cs
    simp only [hn, List.drop_left, Option.ite_none_left_eq_some, Option.some.injEq] at h
    obtain ⟨hne, rfl⟩ := h
    simp only [Bool.or_eq_true, decide_eq_true_eq, List.isEmpty_iff, not_or] at hne
    obtain ⟨c, rest, rfl⟩ := List.exists_cons_of_ne_nil hne.2
    have hc : c = '\x7d' := by simpa using hrest c rfl
    subst hc
    exact ⟨name, fun he => hne.1 (by rw [he]; rfl), fun hb => by simpa using hname _ hb,
      by simp [List.take_append, List.take_of_length_le]⟩
  · cases h

/-- Every token that a scan finds is spelled. -/
theorem spells_of_longest? {cs : List Char} {k : Kind} {n : Nat} (h : longest? cs = some (k, n)) :
    k.Spells (cs.take n) := by
  unfold longest? at h
  split at h
  · next word kind hfind =>
    cases h
    have hp := List.find?_some hfind
    rw [List.isPrefixOf_iff_prefix, List.prefix_iff_eq_take] at hp
    rw [← hp]
    exact spells_of_mem_spellings _ (List.mem_of_find?_eq_some hfind)
  · split at h
    · next m hm =>
      cases h
      exact spells_of_reference? hm
    · obtain ⟨ds, rest, rfl, hn, hds, -⟩ := Lexicon.run_splits Char.isDigit cs
      rw [hn, Option.ite_none_left_eq_some, Option.some.injEq, Prod.mk.injEq] at h
      obtain ⟨hne, rfl, rfl⟩ := h
      rw [List.take_left]
      exact ⟨fun he => hne (by rw [he]; rfl), hds⟩

end Tabletop.Notation
