import Tabletop.Proofs.Text.Scanning

/-!
# Where lexemes stand

What a scan does to the text itself: which part of it every lexeme is, what is left out, and where
the scan stops.

* `StandsAt text position piece`: the piece is the part of the text at the byte offset.
* `Placed p cs ls q rest`: the lexemes stand in the text one behind the other.
* `Lexicon.Reads p cs ls q rest`: from the offset `p` on, the lexemes `ls` are read off the text
  `cs`, and `rest`, which starts at the offset `q`, is left. A scan reads its lexemes
  (`Lexicon.reads_scan`).
* `Lexicon.Reads.behind`: what is read of a text does not depend on what is left, but for its first
  character.
* `Lexicon.Reads.covers`: what is read is lexemes and separators.
-/

namespace Tabletop

/-! ## Byte offsets -/

/-- The piece stands in the text at the byte offset, which is between two characters. -/
def StandsAt (text : String) (position : Nat) (piece : String) : Prop :=
  ∃ before after : String, text = before ++ piece ++ after ∧ before.utf8ByteSize = position

/-- The number of bytes of the characters. -/
def bytes (cs : List Char) : Nat :=
  (String.ofList cs).utf8ByteSize

@[simp] theorem bytes_nil : bytes [] = 0 := rfl

@[simp] theorem bytes_append (cs ds : List Char) : bytes (cs ++ ds) = bytes cs + bytes ds := by
  rw [bytes, String.ofList_append, String.utf8ByteSize_append]
  rfl

@[simp] theorem bytes_cons (c : Char) (cs : List Char) :
    bytes (c :: cs) = c.utf8Size + bytes cs := by
  rw [bytes, String.ofList_cons, String.utf8ByteSize_append, String.utf8ByteSize_singleton]
  rfl

@[simp] theorem bytes_toList (s : String) : bytes s.toList = s.utf8ByteSize := by
  rw [bytes, String.ofList_toList]

theorem eq_nil_of_bytes {cs : List Char} (h : bytes cs = 0) : cs = [] := by
  cases cs with
  | nil => rfl
  | cons c cs =>
    have hc := c.utf8Size_pos
    rw [bytes_cons] at h
    omega

/-- A text is split at a byte offset in one way. -/
theorem append_inj_of_bytes {as bs cs ds : List Char} (h : as ++ bs = cs ++ ds)
    (hb : bytes as = bytes cs) : as = cs ∧ bs = ds := by
  rcases List.append_eq_append_iff.mp h with ⟨us, rfl, rfl⟩ | ⟨us, rfl, rfl⟩
  · have hu : us = [] := eq_nil_of_bytes (by rw [bytes_append] at hb; omega)
    simp [hu]
  · have hu : us = [] := eq_nil_of_bytes (by rw [bytes_append] at hb; omega)
    simp [hu]

/-- A character of a text in two parts is in the second or in the first. -/
theorem List.append_eq_append_cons {as bs cs ds : List Char} {c : Char}
    (h : as ++ bs = cs ++ c :: ds) : (∃ us, cs = as ++ us ∧ bs = us ++ c :: ds) ∨
      ∃ us, as = cs ++ c :: us ∧ ds = us ++ bs := by
  rcases List.append_eq_append_iff.mp h with hbehind | ⟨us, rfl, hus⟩
  · exact .inl hbehind
  · cases us with
    | nil => exact .inl ⟨[], by simp, hus.symm⟩
    | cons x us =>
      cases hus
      exact .inr ⟨us, rfl, rfl⟩

theorem standsAt_iff {text piece : String} {p : Nat} : StandsAt text p piece ↔
    ∃ before after, text.toList = before ++ (piece.toList ++ after) ∧ bytes before = p := by
  constructor
  · rintro ⟨before, after, rfl, rfl⟩
    exact ⟨before.toList, after.toList, by simp, bytes_toList before⟩
  · rintro ⟨before, after, h, rfl⟩
    refine ⟨String.ofList before, String.ofList after, ?_, rfl⟩
    rw [← String.toList_inj, h]
    simp

/-- What stands at an offset is what the text goes on with there. -/
theorem standsAt_iff_isPrefix {text piece : String} {before rest : List Char}
    (h : text.toList = before ++ rest) :
    StandsAt text (bytes before) piece ↔ piece.toList <+: rest := by
  rw [standsAt_iff]
  constructor
  · rintro ⟨before', after, h', hb⟩
    obtain ⟨-, rfl⟩ := append_inj_of_bytes (h.symm.trans h') hb.symm
    exact ⟨after, rfl⟩
  · rintro ⟨after, rfl⟩
    exact ⟨before, after, h, rfl⟩

/-- Nothing stands anywhere, right behind a piece too. -/
theorem StandsAt.empty_behind {text piece : String} {p : Nat} (h : StandsAt text p piece) :
    StandsAt text (p + piece.utf8ByteSize) "" := by
  obtain ⟨before, after, rfl, rfl⟩ := h
  exact ⟨before ++ piece, after, by simp, String.utf8ByteSize_append⟩

/-! ## Lexemes in a text -/

/-- From the offset `p` on, the lexemes `ls` stand in the text `cs`, whatever is between them, and
`rest`, which starts at the offset `q`, is behind them. -/
inductive Placed {κ : Type} : Nat → List Char → List (Lexeme κ) → Nat → List Char → Prop where
  | done {p : Nat} {rest : List Char} : Placed p rest [] p rest
  | skip {p q : Nat} {c : Char} {cs rest : List Char} {ls : List (Lexeme κ)}
      (h : Placed (p + c.utf8Size) cs ls q rest) : Placed p (c :: cs) ls q rest
  | lexeme {p q : Nat} {w cs rest : List Char} {k : κ} {ls : List (Lexeme κ)}
      (h : Placed (p + bytes w) cs ls q rest) :
      Placed p (w ++ cs) (⟨k, String.ofList w, p⟩ :: ls) q rest

namespace Placed

variable {κ : Type} {p q : Nat} {cs rest : List Char} {ls : List (Lexeme κ)}

/-- What is behind the lexemes is a part of the text. -/
theorem exists_append (h : Placed p cs ls q rest) :
    ∃ before, cs = before ++ rest ∧ q = p + bytes before := by
  induction h with
  | done => exact ⟨[], rfl, rfl⟩
  | @skip p q c cs rest ls _ ih =>
    obtain ⟨before, rfl, rfl⟩ := ih
    exact ⟨c :: before, rfl, by rw [bytes_cons, Nat.add_assoc]⟩
  | @lexeme p q w cs rest k ls _ ih =>
    obtain ⟨before, rfl, rfl⟩ := ih
    exact ⟨w ++ before, by simp, by rw [bytes_append, Nat.add_assoc]⟩

/-- The lexemes stand one behind the other. -/
theorem ordered (h : Placed p cs ls q rest) :
    ls.Pairwise (fun l m => l.stop ≤ m.position) ∧ ∀ l ∈ ls, p ≤ l.position := by
  induction h with
  | done => simp
  | skip _ ih => exact ⟨ih.1, fun l hl => Nat.le_trans (Nat.le_add_right ..) (ih.2 l hl)⟩
  | lexeme _ ih =>
    refine ⟨.cons (fun m hm => ih.2 m hm) ih.1, List.forall_mem_cons.mpr ⟨Nat.le_refl _, ?_⟩⟩
    exact fun l hl => Nat.le_trans (Nat.le_add_right ..) (ih.2 l hl)

end Placed

/-! ## Reading lexemes off a text -/

namespace Lexicon

variable {κ : Type} {lx : Lexicon κ} {p q : Nat} {c : Char} {cs rest : List Char}
  {l : Lexeme κ} {ls ms : List (Lexeme κ)}

/-- From the offset `p` on, the lexemes `ls` are read off the text `cs`, and `rest`, which starts
at the offset `q`, is left. -/
inductive Reads (lx : Lexicon κ) :
    Nat → List Char → List (Lexeme κ) → Nat → List Char → Prop where
  | done {p : Nat} {rest : List Char} : Reads lx p rest [] p rest
  | separator {p q : Nat} {c : Char} {cs rest : List Char} {ls : List (Lexeme κ)}
      (hc : lx.separates c = true) (h : Reads lx (p + c.utf8Size) cs ls q rest) :
      Reads lx p (c :: cs) ls q rest
  | lexeme {p q : Nat} {c : Char} {w cs rest : List Char} {k : κ} {ls : List (Lexeme κ)}
      (hc : lx.separates c = false)
      (hl : lx.longest? (c :: w ++ cs) = some (k, w.length + 1))
      (h : Reads lx (p + bytes (c :: w)) cs ls q rest) :
      Reads lx p (c :: w ++ cs) (⟨k, String.ofList (c :: w), p⟩ :: ls) q rest

/-- Lexemes are parts of the text, and whether one is the longest is seen from the character behind
it; a lexeme stays the longest where the text ends behind it. -/
structure Lawful (lx : Lexicon κ) : Prop where
  fits : ∀ {cs k n}, lx.longest? cs = some (k, n) → n ≤ cs.length
  looksAhead : ∀ {k w us vs}, lx.longest? (w ++ us) = some (k, w.length) →
    (∀ c ∈ vs.head?, c ∈ us.head?) → lx.longest? (w ++ vs) = some (k, w.length)

theorem scan_separator (hc : lx.separates c = true) :
    lx.scan p (c :: cs) = lx.scan (p + c.utf8Size) cs := by
  rw [scan, if_pos hc]

/-- Separators in front of a text are skipped. -/
theorem exists_scan_dropWhile (lx : Lexicon κ) (p : Nat) (cs : List Char) :
    ∃ q, lx.scan p cs = lx.scan q (cs.dropWhile lx.separates) := by
  induction cs generalizing p with
  | nil => exact ⟨p, rfl⟩
  | cons c cs ih =>
    by_cases hc : lx.separates c = true
    · rw [scan_separator hc, List.dropWhile_cons_of_pos hc]
      exact ih _
    · rw [List.dropWhile_cons_of_neg hc]
      exact ⟨p, rfl⟩

theorem scan_lexeme {k : κ} {w : List Char} (hc : lx.separates c = false)
    (hl : lx.longest? (c :: w ++ cs) = some (k, w.length + 1)) :
    lx.scan p (c :: w ++ cs) =
      ⟨⟨k, String.ofList (c :: w), p⟩ :: (lx.scan (p + bytes (c :: w)) cs).lexemes,
        (lx.scan (p + bytes (c :: w)) cs).fault⟩ := by
  rw [List.cons_append] at hl ⊢
  rw [scan, if_neg (by simp [hc]), hl]
  simp only [List.take_left, List.drop_left]
  rfl

theorem head?_scan {k : κ} {n : Nat} (hc : lx.separates c = false)
    (hl : lx.longest? (c :: cs) = some (k, n + 1)) :
    (lx.scan p (c :: cs)).lexemes.head?.map (·.kind) = some k := by
  rw [scan, if_neg (by simp [hc]), hl]
  rfl

/-- A scan reads its lexemes, and stops at the end of the text or at a character that starts
none. -/
theorem reads_scan (hlx : lx.Lawful) (p : Nat) (cs : List Char) : ∃ q rest,
    lx.Reads p cs (lx.scan p cs).lexemes q rest ∧
      match (lx.scan p cs).fault with
      | none => rest = []
      | some e => e.position = q ∧ rest.head? = some e.char ∧ lx.separates e.char = false ∧
          ∀ k n, lx.longest? rest ≠ some (k, n + 1) := by
  fun_induction lx.scan p cs with
  | case1 p => exact ⟨p, [], .done, rfl⟩
  | case2 p c cs hc ih =>
    obtain ⟨q, rest, h, hstop⟩ := ih
    exact ⟨q, rest, .separator hc h, hstop⟩
  | case3 p c cs hc k n hl text scanned ih =>
    obtain ⟨q, rest, h, hstop⟩ := ih
    have hn : (cs.take n).length = n :=
      List.length_take_of_le (Nat.le_of_succ_le_succ (hlx.fits hl))
    have hread := @Reads.lexeme κ lx p q c (cs.take n) (cs.drop n) rest k _ (by simpa using hc)
      (by rw [List.cons_append, List.take_append_drop, hl, hn]) h
    rw [List.cons_append, List.take_append_drop] at hread
    exact ⟨q, rest, hread, hstop⟩
  | case4 p c cs hc hl =>
    exact ⟨p, c :: cs, .done, rfl, rfl, by simpa using hc, hl⟩

namespace Reads

theorem placed (h : lx.Reads p cs ls q rest) : Placed p cs ls q rest := by
  induction h with
  | done => exact .done
  | separator _ _ ih => exact .skip ih
  | lexeme _ _ _ ih => exact .lexeme ih

theorem trans {r : Nat} {rest' : List Char} (h : lx.Reads p cs ls q rest)
    (h' : lx.Reads q rest ms r rest') : lx.Reads p cs (ls ++ ms) r rest' := by
  induction h with
  | done => exact h'
  | separator hc _ ih => exact .separator hc (ih h')
  | lexeme hc hl _ ih => exact .lexeme hc hl (ih h')

/-- A scan goes on behind what is read. -/
theorem scan_eq (h : lx.Reads p cs ls q rest) :
    lx.scan p cs = ⟨ls ++ (lx.scan q rest).lexemes, (lx.scan q rest).fault⟩ := by
  induction h with
  | done => rfl
  | separator hc _ ih => rw [scan_separator hc, ih]
  | lexeme hc hl _ ih => rw [scan_lexeme hc hl, ih]; rfl

/-- What is read of a text does not depend on what is left, but for its first character. -/
theorem behind (hlx : lx.Lawful) (h : lx.Reads p cs ls q rest) {before rest' : List Char}
    (hcs : cs = before ++ rest) (hr : ∀ c ∈ rest'.head?, c ∈ rest.head?) :
    lx.Reads p (before ++ rest') ls q rest' := by
  induction h generalizing before with
  | done =>
    have hb : before = [] := List.self_eq_append_left.mp hcs
    rw [hb]
    exact .done
  | @separator p q c cs rest ls hc h ih =>
    obtain ⟨before', rfl, -⟩ := h.placed.exists_append
    rw [← List.cons_append] at hcs
    rw [← List.append_cancel_right hcs]
    exact .separator hc (ih rfl hr)
  | @lexeme p q c w cs rest k ls hc hl h ih =>
    obtain ⟨before', rfl, -⟩ := h.placed.exists_append
    rw [← List.append_assoc] at hcs
    rw [← List.append_cancel_right hcs, List.append_assoc]
    refine .lexeme hc (hlx.looksAhead hl fun x hx => ?_) (ih rfl hr)
    cases before' with
    | nil => exact hr x hx
    | cons y ys => exact hx

/-- What is read of a text is read alone, too. -/
theorem alone (hlx : lx.Lawful) (h : lx.Reads p cs ls q rest) {before : List Char}
    (hcs : cs = before ++ rest) : lx.Reads p before ls q [] := by
  have hbehind : lx.Reads p (before ++ []) ls q [] := h.behind hlx hcs (by simp)
  rwa [List.append_nil] at hbehind

/-- The text before one of the lexemes is read as the lexemes before it. -/
theorem split (h : lx.Reads p cs (ls ++ l :: ms) q rest) : ∃ c w after,
    l.text.toList = c :: w ∧ lx.separates c = false ∧
      lx.Reads p cs ls l.position (l.text.toList ++ after) ∧
      lx.longest? (l.text.toList ++ after) = some (l.kind, l.text.toList.length) ∧
      lx.Reads l.stop after ms q rest := by
  generalize hall : ls ++ l :: ms = all at h
  induction h generalizing ls with
  | done => simp at hall
  | separator hc _ ih =>
    obtain ⟨x, w, after, hx, hs, hread, hl, hafter⟩ := ih hall
    exact ⟨x, w, after, hx, hs, .separator hc hread, hl, hafter⟩
  | @lexeme p q c w cs rest k ls' hc hl h ih =>
    cases ls with
    | nil =>
      cases hall
      refine ⟨c, w, cs, by simp, hc, ?_, by simpa using hl, h⟩
      rw [String.toList_ofList]
      exact .done
    | cons l' ls =>
      cases hall
      obtain ⟨x, w', after, hx, hs, hread, hl', hafter⟩ := ih rfl
      exact ⟨x, w', after, hx, hs, .lexeme hc hl hread, hl', hafter⟩

/-- A character that is read belongs to a lexeme or is a separator. -/
theorem covers (h : lx.Reads p cs ls q rest) {before after : List Char}
    (hcs : cs = before ++ c :: after) (hq : p + bytes before < q) :
    lx.separates c = true ∨
      ∃ l ∈ ls, l.position ≤ p + bytes before ∧ p + bytes before < l.stop := by
  induction h generalizing before with
  | done => omega
  | @separator p q x cs rest ls hx h ih =>
    cases before with
    | nil =>
      cases hcs
      exact .inl hx
    | cons y before =>
      cases hcs
      rw [bytes_cons, ← Nat.add_assoc] at hq ⊢
      exact ih rfl hq
  | @lexeme p q x w cs rest k ls hx hl h ih =>
    rcases List.append_eq_append_cons hcs with ⟨us, rfl, hus⟩ | ⟨us, hw, -⟩
    · rw [bytes_append, ← Nat.add_assoc] at hq ⊢
      refine (ih hus hq).imp_right ?_
      rintro ⟨l, hl, hbounds⟩
      exact ⟨l, List.mem_cons_of_mem _ hl, hbounds⟩
    · -- The character is one of the lexeme at hand.
      refine .inr ⟨_, List.mem_cons_self, Nat.le_add_right .., ?_⟩
      have hc := c.utf8Size_pos
      change p + bytes before < p + bytes (x :: w)
      rw [hw, bytes_append, bytes_cons]
      omega

end Reads

/-! ## Lexemes that notations share -/

theorem run_le (pred : Char → Bool) (cs : List Char) : run pred cs ≤ cs.length :=
  (List.takeWhile_prefix pred).length_le

theorem length_le_of_reference? {n : Nat} (h : reference? cs = some n) : n ≤ cs.length := by
  unfold reference? at h
  split at h
  · next cs =>
    rw [Option.ite_none_left_eq_some, Option.some.injEq] at h
    obtain ⟨hne, rfl⟩ := h
    simp only [Bool.or_eq_true, List.isEmpty_iff, List.drop_eq_nil_iff, not_or] at hne
    simp only [List.length_cons]
    omega
  · cases h

end Lexicon

end Tabletop
