import Tabletop.Proofs.Notation.Spelling
import Tabletop.Proofs.Text.Placing

/-!
# The longest token

A scan finds the longest token: wherever a token is spelled, it finds one that is no shorter.

* `exists_longest?_of_isPrefix`: the token found is as long as any that is spelled there.
* `stops_of_longest?`: the text behind the token found does not make it longer.
* `lawful_lexicon`: whether a token is the longest is seen from the character behind it.
* `Kind.Spells.startsSides_iff`: whether a token may start the sides of dice is seen from its first
  character.
-/

namespace Tabletop.Notation

variable {k : Kind} {c : Char} {w cs rest : List Char}

/-- What makes a token longer makes it another one. -/
theorem Extends.exists_spells (h : Extends w c) : ∃ k : Kind, k.Spells (w ++ [c]) := by
  rcases h with ⟨hc, hw⟩ | hm
  · exact ⟨.int, by simp, List.forall_mem_append.mpr ⟨hw, List.forall_mem_singleton.mpr hc⟩⟩
  · obtain ⟨a, ha, he⟩ := List.mem_map.mp hm
    exact ⟨a.2, he ▸ spells_of_mem_spellings a ha⟩

/-- Where a token is spelled, the one that is found is no shorter. -/
theorem exists_longest?_of_isPrefix (h : k.Spells w) (hp : w <+: cs) :
    ∃ k' n, longest? cs = some (k', n) ∧ w.length ≤ n := by
  obtain ⟨rest, rfl⟩ := hp
  -- By induction on what is behind the token: where its first character makes the token longer, the
  -- longer one is spelled there too.
  induction rest generalizing k w with
  | nil => exact ⟨_, _, h.longest?_append (by simp [Stops]), Nat.le_refl _⟩
  | cons c rest ih =>
    by_cases he : Extends w c
    · obtain ⟨k', h'⟩ := he.exists_spells
      obtain ⟨k'', n, hl, hn⟩ := ih h'
      rw [List.append_assoc] at hl
      rw [List.length_append] at hn
      exact ⟨k'', n, hl, Nat.le_of_succ_le hn⟩
    · exact ⟨_, _, h.longest?_append (by simpa [Stops] using he), Nat.le_refl _⟩

/-- The text behind the token that is found does not make it longer. -/
theorem stops_of_longest? (h : longest? (w ++ rest) = some (k, w.length)) : Stops w rest := by
  intro c hc he
  obtain ⟨k', hw⟩ := he.exists_spells
  obtain ⟨rest, rfl⟩ : ∃ rest', rest = c :: rest' := by
    cases rest with
    | nil => cases hc
    | cons x xs => cases hc; exact ⟨xs, rfl⟩
  obtain ⟨k'', n, hl, hn⟩ := exists_longest?_of_isPrefix hw
    (⟨rest, by simp⟩ : w ++ [c] <+: w ++ c :: rest)
  rw [h] at hl
  cases hl
  rw [List.length_append] at hn
  exact absurd hn (Nat.not_succ_le_self _)

theorem spells_of_longest?_append (h : longest? (w ++ rest) = some (k, w.length)) :
    k.Spells w := by
  have hs := spells_of_longest? h
  rwa [List.take_left] at hs

/-- A lone `d` is found as a dice marker. -/
theorem scanned_of_longest? (h : longest? (w ++ rest) = some (k, w.length)) :
    scanned k w = k := by
  have hl := (spells_of_longest?_append h).longest?_append (stops_of_longest? h)
  rw [h] at hl
  exact (Prod.mk.inj (Option.some.inj hl)).1.symm

theorem length_le_of_longest? {n : Nat} (h : longest? cs = some (k, n)) : n ≤ cs.length := by
  unfold longest? at h
  split at h
  · next word kind hfind =>
    cases h
    have hp := List.find?_some hfind
    rw [List.isPrefixOf_iff_prefix] at hp
    exact hp.length_le
  · split at h
    · next m hm =>
      cases h
      exact Lexicon.length_le_of_reference? hm
    · rw [Option.ite_none_left_eq_some, Option.some.injEq, Prod.mk.injEq] at h
      rw [← h.2.2]
      exact Lexicon.run_le _ _

theorem lawful_lexicon : lexicon.Lawful where
  fits h := length_le_of_longest? h
  looksAhead h hr := by
    have hl := (spells_of_longest?_append h).longest?_append
      fun c hc => stops_of_longest? h c (hr c hc)
    rwa [scanned_of_longest? h] at hl

/-! ## The first character -/

/-- A token may start the sides of dice if it starts with a digit, `%`, `(` or `$`. -/
theorem Kind.Spells.startsSides_iff (h : k.Spells (c :: w)) :
    k.startsSides = true ↔ c.isDigit = true ∨ c ∈ ['%', '(', '$'] := by
  cases k with
  | int => simp [Kind.startsSides, h.2 c List.mem_cons_self]
  | reference =>
    obtain ⟨name, -, -, he⟩ := h
    cases he
    simp [Kind.startsSides]
  | unknown => cases h
  | dice => rcases h with h | h <;> cases h <;> decide
  | percent | leftParen | rightParen => cases h; decide
  | operator op => cases op <;> cases h <;> decide
  | redraw r => cases r <;> cases h <;> decide
  | compare r => cases r <;> cases h <;> decide
  | select s =>
    cases s with
    | keepHighest => rcases h with h | h <;> cases h <;> decide
    | dropLowest => rcases h with h | h | h <;> cases h <;> decide
    | keepLowest | dropHighest => cases h; decide

end Tabletop.Notation
