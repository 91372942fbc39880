import Tabletop.Text.Lexeme

/-!
# Words of a text

What a scan finds, without positions. `Lexicon.words?` is the kinds and texts of the lexemes of a
text, and is `none` if some character starts no lexeme. It goes through a text piece by piece:

* `words?_separator`: a separator is skipped.
* `words?_append`: a lexeme that is the longest one where it stands is the first word.
* `words?_eq_none`: a character that starts no lexeme ends the scan.

`Lexicon.Scans` says what is scanned of a text in front of another, and goes through `++`.
-/

namespace Tabletop

/-- What the lexeme is, and its text. -/
def Lexeme.word {κ : Type} (l : Lexeme κ) : κ × String := (l.kind, l.text)

/-- The kinds and texts of the lexemes, if every character starts one. -/
def Scan.words? {κ : Type} (s : Scan κ) : Option (List (κ × String)) :=
  match s.fault with
  | none => some (s.lexemes.map Lexeme.word)
  | some _ => none

theorem Scan.words?_eq_some_iff {κ : Type} {s : Scan κ} {ws : List (κ × String)} :
    s.words? = some ws ↔ s.fault = none ∧ s.lexemes.map Lexeme.word = ws := by
  unfold Scan.words?
  cases s.fault <;> simp

theorem Scan.words?_cons {κ : Type} (l : Lexeme κ) (s : Scan κ) :
    Scan.words? ⟨l :: s.lexemes, s.fault⟩ = s.words?.map (l.word :: ·) := by
  unfold Scan.words?
  cases s.fault <;> rfl

namespace Lexicon

variable {κ : Type} {lx : Lexicon κ} {c : Char} {cs : List Char}

/-- The words do not depend on where the text stands. -/
theorem words?_scan (p q : Nat) : (lx.scan p cs).words? = (lx.scan q cs).words? := by
  fun_induction lx.scan p cs generalizing q with
  | case1 p => rw [scan]
  | case2 p c cs hc ih =>
    rw [scan, if_pos hc]
    exact ih _
  | case3 p c cs hc k n hl text rest ih =>
    rw [scan, if_neg hc, hl]
    simp only [Scan.words?_cons, rest, ih (q + text.utf8ByteSize)]
    rfl
  | case4 p c cs hc hl =>
    rw [scan, if_neg hc]
    split
    · next h => exact absurd h (hl _ _)
    · rfl

/-- The words of a text. -/
def words? (lx : Lexicon κ) (cs : List Char) : Option (List (κ × String)) :=
  (lx.scan 0 cs).words?

@[simp] theorem words?_nil : lx.words? [] = some [] := by
  rw [words?, scan]
  rfl

theorem words?_separator (hc : lx.separates c = true) : lx.words? (c :: cs) = lx.words? cs := by
  rw [words?, scan, if_pos hc]
  exact words?_scan _ _

/-- A lexeme that is the longest one where it stands is the first word of the text. -/
theorem words?_append {w : List Char} {k : κ} (hc : lx.separates c = false)
    (hl : lx.longest? (c :: w ++ cs) = some (k, w.length + 1)) :
    lx.words? (c :: w ++ cs) = (lx.words? cs).map ((k, String.ofList (c :: w)) :: ·) := by
  rw [words?, List.cons_append, scan, if_neg (by simp [hc]), ← List.cons_append, hl]
  simp only [Scan.words?_cons, Lexeme.word, List.take_left, List.drop_left]
  rw [words?_scan _ 0]
  rfl

theorem words?_eq_none (hc : lx.separates c = false) (hl : lx.longest? (c :: cs) = none) :
    lx.words? (c :: cs) = none := by
  rw [words?, scan, if_neg (by simp [hc]), hl]
  rfl

/-- The first word of a text is the longest lexeme at its start. -/
theorem words?_eq_some_cons {k : κ} {t : String} {ws : List (κ × String)}
    (hc : lx.separates c = false) (h : lx.words? (c :: cs) = some ((k, t) :: ws)) :
    ∃ n, lx.longest? (c :: cs) = some (k, n + 1) ∧ t = String.ofList (c :: cs.take n) ∧
      lx.words? (cs.drop n) = some ws := by
  rw [words?, scan, if_neg (by simp [hc])] at h
  split at h
  · next k' n hl =>
    rw [Scan.words?_cons, Option.map_eq_some_iff] at h
    obtain ⟨us, hus, hcons⟩ := h
    cases hcons
    rw [words?_scan _ 0] at hus
    exact ⟨n, hl, rfl, hus⟩
  · cases h

/-- Every lexeme of a scan is the longest one at the start of some text. -/
theorem exists_longest?_of_mem_scan {p : Nat} {l : Lexeme κ} (h : l ∈ (lx.scan p cs).lexemes) :
    ∃ ds n, lx.longest? ds = some (l.kind, n) ∧ l.text.toList = ds.take n := by
  fun_induction lx.scan p cs with
  | case1 p => cases h
  | case2 p c cs hc ih => exact ih h
  | case3 p c cs hc k n hl text rest ih =>
    rcases List.mem_cons.mp h with rfl | h
    · exact ⟨c :: cs, n + 1, hl, by simp [text]⟩
    · exact ih h
  | case4 p c cs hc hl => cases h

/-- If the lexemes of the lexicon are spelled and spelled lexemes settle as spelled tokens, a text
that is settled is scanned to its end, and its tokens are spelled. -/
theorem spells_of_settle {κ' : Type} {S : κ → List Char → Prop} {S' : κ' → List Char → Prop}
    (settle : Option LexError → List (Lexeme κ) → Except LexError (List (Lexeme κ')))
    (hlongest : ∀ {ds k n}, lx.longest? ds = some (k, n) → S k (ds.take n))
    (hsettle : ∀ {fault ls us}, settle fault ls = .ok us → (∀ l ∈ ls, S l.kind l.text.toList) →
      fault = none ∧ ∀ u ∈ us, S' u.kind u.text.toList)
    {us : List (Lexeme κ')} (h : settle (lx.scan 0 cs).fault (lx.scan 0 cs).lexemes = .ok us) :
    (∃ ws, lx.words? cs = some ws) ∧ ∀ u ∈ us, S' u.kind u.text.toList := by
  obtain ⟨hfault, hus⟩ := hsettle h fun l hl => by
    obtain ⟨ds, n, hl, ht⟩ := exists_longest?_of_mem_scan hl
    rw [ht]
    exact hlongest hl
  exact ⟨⟨_, Scan.words?_eq_some_iff.mpr ⟨hfault, rfl⟩⟩, hus⟩

/-- A run ends at the end of the text, or in front of a character that does not belong to it. -/
theorem run_splits (p : Char → Bool) (cs : List Char) : ∃ xs ys, cs = xs ++ ys ∧
    run p cs = xs.length ∧ (∀ c ∈ xs, p c = true) ∧ ∀ c ∈ ys.head?, p c = false := by
  refine ⟨cs.takeWhile p, cs.dropWhile p, List.takeWhile_append_dropWhile.symm, rfl, ?_, ?_⟩
  · exact List.all_eq_true.mp List.all_takeWhile
  · intro c hc
    have h := List.head?_dropWhile_not p cs
    rw [Option.mem_def] at hc
    rwa [hc] at h

theorem take_run (p : Char → Bool) (cs : List Char) : cs.take (run p cs) = cs.takeWhile p :=
  (List.prefix_iff_eq_take.mp (List.takeWhile_prefix p)).symm

/-- A run goes through all of a text that belongs to it, and no further. -/
theorem run_append {p : Char → Bool} {xs ys : List Char} (hxs : ∀ c ∈ xs, p c = true)
    (hys : ∀ c ∈ ys.head?, p c = false) : run p (xs ++ ys) = xs.length := by
  have hstop : ys.takeWhile p = [] := by
    cases ys with
    | nil => rfl
    | cons y ys => rw [List.takeWhile_cons, hys y rfl]; rfl
  rw [run, List.takeWhile_append_of_pos hxs, hstop, List.append_nil]

/-- A reference ends at its closing brace. -/
theorem reference?_braces {name rest : List Char} (hne : name ≠ []) (hb : '\x7d' ∉ name) :
    reference? ('$' :: '\x7b' :: (name ++ '\x7d' :: rest)) = some (name.length + 3) := by
  have hrun : run (· != '\x7d') (name ++ '\x7d' :: rest) = name.length :=
    run_append (fun c hc => by rw [bne_iff_ne]; rintro rfl; exact hb hc) (by simp)
  simp [reference?, hrun, hne]

/-! ## Texts in front of others -/

/-- In front of `rest`, the text `cs` is scanned as the words `o`; if it has none, the scan ends in
it. -/
def Scans (lx : Lexicon κ) (cs : List Char) (o : Option (List (κ × String))) (rest : List Char) :
    Prop :=
  lx.words? (cs ++ rest) = o.bind fun ws => (lx.words? rest).map (ws ++ ·)

namespace Scans

variable {ds rest : List Char} {o p : Option (List (κ × String))}

theorem append (h : lx.Scans cs o (ds ++ rest)) (h' : lx.Scans ds p rest) :
    lx.Scans (cs ++ ds) (do let ws ← o; let us ← p; some (ws ++ us)) rest := by
  unfold Scans at h h' ⊢
  rw [List.append_assoc, h, h']
  cases o <;> cases p <;> cases lx.words? rest <;> simp

theorem nil : lx.Scans [] (some []) rest := by
  simp [Scans]

/-- With nothing behind it, the text has these words. -/
theorem words?_eq (h : lx.Scans cs o []) : lx.words? cs = o := by
  rw [Scans, List.append_nil] at h
  rw [h]
  cases o <;> simp

theorem separator (hc : lx.separates c = true) : lx.Scans [c] (some []) rest := by
  simp [Scans, words?_separator hc]

/-- A lexeme that is the longest one where it stands is scanned as itself. -/
theorem lexeme {t : String} {k : κ} {w : List Char} (ht : t.toList = c :: w)
    (hc : lx.separates c = false)
    (hl : lx.longest? (t.toList ++ rest) = some (k, t.toList.length)) :
    lx.Scans t.toList (some [(k, t)]) rest := by
  rw [ht, List.length_cons] at hl
  rw [Scans, ht, words?_append hc hl, ← ht, String.ofList_toList]
  rfl

end Scans

end Lexicon

end Tabletop
