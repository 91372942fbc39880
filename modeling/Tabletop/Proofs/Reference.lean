import Mathlib.Data.List.DropRight
import Tabletop.Reference

/-!
# Written references

Which references are read back from their texts.

* `Reference.mem_name_ofText`: a name that is read is made of characters between the braces.
* `Reference.trim_name_ofText`: a name that is read has no blanks at its ends.
* `Reference.WellFormed`: writing and reading changes nothing.
* `Reference.wellFormed_iff`: those are the references that are written between braces and read as
  they are.
-/

namespace Tabletop

theorem Text.mem_of_mem_trimChars {c : Char} {cs : List Char} (h : c ∈ trimChars cs) : c ∈ cs := by
  rw [trimChars, List.mem_reverse] at h
  have h := (List.dropWhile_sublist _).mem h
  rw [List.mem_reverse] at h
  exact (List.dropWhile_sublist _).mem h

/-- What is trimmed does not start with a blank, so trimming it again changes nothing. -/
theorem Text.trimChars_trimChars (cs : List Char) : trimChars (trimChars cs) = trimChars cs := by
  have hfront : (trimChars cs).dropWhile isBlank = trimChars cs := by
    rw [List.dropWhile_eq_self_iff]
    intro hlen
    have hpre : trimChars cs <+: cs.dropWhile isBlank := List.rdropWhile_prefix isBlank _
    have hne : cs.dropWhile isBlank ≠ [] := fun hnil => by
      rw [hnil, List.prefix_nil] at hpre
      simp [hpre] at hlen
    have hhead := List.head_dropWhile_not isBlank hne
    rw [← hpre.head (List.ne_nil_of_length_pos hlen), List.head_eq_getElem] at hhead
    simp [hhead]
  have hback : List.rdropWhile isBlank (trimChars cs) = trimChars cs :=
    List.rdropWhile_idempotent isBlank (cs.dropWhile isBlank)
  calc trimChars (trimChars cs)
      = List.rdropWhile isBlank ((trimChars cs).dropWhile isBlank) := rfl
    _ = trimChars cs := by rw [hfront, hback]

namespace Reference

/-- The reference is what its text is read as: the name has no blanks at its ends and no closing
brace, and a name without a sigil is not empty and does not start with one. -/
structure WellFormed (r : Reference) : Prop where
  trimmed : Text.trim r.name = r.name
  closed : '\x7d' ∉ r.name.toList
  plain : r.kind = .named →
    r.name ≠ "" ∧ r.name.toList.head? ≠ some '@' ∧ r.name.toList.head? ≠ some '?'

/-- What stands between the braces. -/
def body (r : Reference) : List Char := r.kind.sigil.toList ++ r.name.toList

theorem toList_toString (r : Reference) :
    (toString r).toList = '$' :: '\x7b' :: r.body ++ ['\x7d'] := by
  change ("$\x7b" ++ r.kind.sigil ++ r.name ++ "\x7d").toList = _
  simp [body]

theorem inner_braces (cs : List Char) : inner ('$' :: '\x7b' :: cs ++ ['\x7d']) = cs := by
  simp [inner]

/-- A name that is read is made of characters between the braces. -/
theorem mem_name_ofText {c : Char} {cs : List Char} {text : String}
    (ht : text.toList = '$' :: '\x7b' :: cs ++ ['\x7d']) (h : c ∈ (ofText text).name.toList) :
    c ∈ cs := by
  unfold ofText at h
  rw [ht, inner_braces] at h
  split at h
  · exact List.mem_cons_of_mem _ (Text.mem_of_mem_trimChars (by simpa using h))
  · exact List.mem_cons_of_mem _ (Text.mem_of_mem_trimChars (by simpa using h))
  · exact Text.mem_of_mem_trimChars (by simpa using h)

/-- A name that is read is trimmed. -/
theorem trim_name_ofText (text : String) : Text.trim (ofText text).name = (ofText text).name := by
  unfold ofText
  split <;> simp [Text.trim, Text.trimChars_trimChars]

/-- A written reference is read as it is if its name is trimmed, and does not start with a sigil
that it is written without. -/
theorem ofText_toString_eq_iff {r : Reference} :
    ofText (toString r) = r ↔ Text.trim r.name = r.name ∧
      (r.kind = .named → r.name.toList.head? ≠ some '@' ∧ r.name.toList.head? ≠ some '?') := by
  obtain ⟨k, name⟩ := r
  unfold ofText
  rw [toList_toString, inner_braces]
  cases k with
  | property => simp [body, Kind.sigil, Text.trim]
  | prompt => simp [body, Kind.sigil, Text.trim]
  | named =>
    simp only [body, Kind.sigil, String.toList_empty, List.nil_append, forall_const]
    split
    · next h => simp [h]
    · next h => simp [h]
    · next hat hquestion =>
      rw [Reference.mk.injEq, Text.trim]
      refine ⟨fun h => ⟨h.2, ?_⟩, fun h => ⟨rfl, h.1⟩⟩
      constructor <;> intro hhead <;> obtain ⟨cs, hcs⟩ := List.head?_eq_some_iff.mp hhead
      · exact hat cs hcs
      · exact hquestion cs hcs

/-- The references that are read as they are, and in whose place a token stands. -/
theorem wellFormed_iff {r : Reference} :
    r.WellFormed ↔ '\x7d' ∉ r.name.toList ∧ r.body ≠ [] ∧ ofText (toString r) = r := by
  obtain ⟨k, name⟩ := r
  rw [ofText_toString_eq_iff]
  constructor
  · rintro ⟨htrim, hclosed, hplain⟩
    refine ⟨hclosed, ?_, htrim, fun hk => (hplain hk).2⟩
    cases k with
    | named => simpa [body, Kind.sigil] using (hplain rfl).1
    | property | prompt => simp [body, Kind.sigil]
  · rintro ⟨hclosed, hbody, htrim, hplain⟩
    refine ⟨htrim, hclosed, fun hk => ⟨?_, hplain hk⟩⟩
    cases hk
    simpa [body, Kind.sigil] using hbody

end Reference

end Tabletop
