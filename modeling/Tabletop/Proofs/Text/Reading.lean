import Tabletop.Error
import Tabletop.Proofs.Text.Scanning

/-!
# Reading without positions

What a reader accepts depends on the kinds and texts of the tokens alone.

* `readWords`: words are read one after the other.
* `readAll_eq_ok_iff`: a sequence of tokens is read as its words are, and must not be empty.
* `exists_of_readAll_eq_error`: what is wrong with a sequence is wrong with one of its tokens or
  with its end, and all tokens before are read.
-/

namespace Tabletop

open ParseError (Cause)

namespace Except

variable {ε ε' α β : Type}

theorem mapError_eq_ok_iff {f : ε → ε'} {x : Except ε α} {a : α} :
    x.mapError f = .ok a ↔ x = .ok a := by
  cases x with
  | ok b => constructor <;> intro h <;> cases h <;> rfl
  | error e => constructor <;> intro h <;> cases h

theorem map_eq_ok_iff {f : α → β} {x : Except ε α} {b : β} :
    x.map f = .ok b ↔ ∃ a, x = .ok a ∧ f a = b := by
  cases x <;> simp [Except.map]

theorem bind_eq_ok_iff {x : Except ε α} {f : α → Except ε β} {b : β} :
    x.bind f = .ok b ↔ ∃ a, x = .ok a ∧ f a = .ok b := by
  cases x <;> simp [Except.bind]

theorem mapError_eq_error_iff {f : ε → ε'} {x : Except ε α} {e : ε'} :
    x.mapError f = .error e ↔ ∃ e', x = .error e' ∧ f e' = e := by
  constructor
  · intro h
    cases x <;> cases h
    exact ⟨_, rfl, rfl⟩
  · rintro ⟨e', rfl, rfl⟩
    rfl

theorem bind_eq_error_iff {x : Except ε α} {f : α → Except ε β} {e : ε} :
    x.bind f = .error e ↔ x = .error e ∨ ∃ a, x = .ok a ∧ f a = .error e := by
  cases x <;> simp [Except.bind]

end Except

variable {κ ρ α : Type} {step : ρ → κ → String → Except Cause ρ} {finish : ρ → Except Cause α}

/-- Reads one word after the other. -/
def readWords (step : ρ → κ → String → Except Cause ρ) (r : ρ) (ws : List (κ × String)) :
    Except Cause ρ :=
  ws.foldlM (fun r w => step r w.1 w.2) r

@[simp] theorem readWords_nil (r : ρ) : readWords step r [] = .ok r := rfl

theorem readWords_cons (r : ρ) (w : κ × String) (ws : List (κ × String)) :
    readWords step r (w :: ws) = (step r w.1 w.2).bind (readWords step · ws) := rfl

theorem readWords_cons_of_ok {r r' : ρ} {w : κ × String} (h : step r w.1 w.2 = .ok r')
    (ws : List (κ × String)) : readWords step r (w :: ws) = readWords step r' ws := by
  rw [readWords_cons, h]
  rfl

theorem readWords_singleton (r : ρ) (w : κ × String) :
    readWords step r [w] = step r w.1 w.2 := by
  rw [readWords_cons]
  cases step r w.1 w.2 <;> rfl

theorem readWords_append (r : ρ) (ws us : List (κ × String)) :
    readWords step r (ws ++ us) = (readWords step r ws).bind (readWords step · us) := by
  unfold readWords
  rw [List.foldlM_append]
  rfl

theorem readWords_append_of_ok {r r' : ρ} {ws : List (κ × String)}
    (h : readWords step r ws = .ok r') (us : List (κ × String)) :
    readWords step r (ws ++ us) = readWords step r' us := by
  rw [readWords_append, h]
  rfl

/-- Reads one lexeme, and reports where it goes wrong. -/
def readLexeme (step : ρ → κ → String → Except Cause ρ) (r : ρ) (l : Lexeme κ) :
    Except ParseError ρ :=
  (step r l.kind l.text).mapError (⟨·, l.position, l.text⟩)

theorem foldlM_readLexeme_eq_ok_iff {ls : List (Lexeme κ)} {r r' : ρ} :
    ls.foldlM (readLexeme step) r = .ok r' ↔ readWords step r (ls.map Lexeme.word) = .ok r' := by
  induction ls generalizing r with
  | nil => exact ⟨fun h => by cases h; rfl, fun h => by cases h; rfl⟩
  | cons l ls ih =>
    rw [List.foldlM_cons, List.map_cons, readWords_cons]
    change Except.bind _ _ = _ ↔ _
    rw [Except.bind_eq_ok_iff, Except.bind_eq_ok_iff]
    simp only [readLexeme, Except.mapError_eq_ok_iff, ih]
    rfl

/-- What goes wrong in a run goes wrong with one lexeme, behind those that are read. -/
theorem exists_of_foldlM_readLexeme_eq_error {ls : List (Lexeme κ)} {r : ρ} {e : ParseError}
    (h : ls.foldlM (readLexeme step) r = .error e) : ∃ before l after r' cause,
      ls = before ++ l :: after ∧ readWords step r (before.map Lexeme.word) = .ok r' ∧
        step r' l.kind l.text = .error cause ∧ e = ⟨cause, l.position, l.text⟩ := by
  induction ls generalizing r with
  | nil => cases h
  | cons l ls ih =>
    rw [List.foldlM_cons] at h
    rcases Except.bind_eq_error_iff.mp h with hl | ⟨r₁, hl, h⟩
    · obtain ⟨cause, hcause, rfl⟩ := Except.mapError_eq_error_iff.mp hl
      exact ⟨[], l, ls, r, cause, rfl, rfl, hcause, rfl⟩
    · obtain ⟨before, l', after, r', cause, rfl, hrun, hcause, rfl⟩ := ih h
      have hl : step r l.word.1 l.word.2 = .ok r₁ := Except.mapError_eq_ok_iff.mp hl
      refine ⟨l :: before, l', after, r', cause, rfl, ?_, hcause, rfl⟩
      rw [List.map_cons, readWords_cons_of_ok hl, hrun]

/-- Positions play no part in what is accepted: tokens are read word by word. -/
theorem readAll_eq_ok_iff {start : ρ} {ls : List (Lexeme κ)} {a : α} :
    readAll step finish start ls = .ok a ↔
      ls ≠ [] ∧ ∃ r, readWords step start (ls.map Lexeme.word) = .ok r ∧ finish r = .ok a := by
  unfold readAll
  cases hlast : ls.getLast? with
  | none =>
    rw [List.getLast?_eq_none_iff] at hlast
    simp [hlast]
  | some last =>
    have hne : ls ≠ [] := fun hnil => by
      rw [hnil] at hlast
      cases hlast
    change Except.bind _ _ = _ ↔ _
    rw [Except.bind_eq_ok_iff, and_iff_right hne]
    simp only [Except.mapError_eq_ok_iff]
    exact exists_congr fun r => and_congr_left fun _ => foldlM_readLexeme_eq_ok_iff

/-- What is wrong with a sequence of lexemes, if there is one, is reported at the first that cannot
be read, or behind the last where all are read. -/
theorem exists_of_readAll_eq_error {start : ρ} {ls : List (Lexeme κ)} {e : ParseError}
    (h : readAll step finish start ls = .error e) (hne : ls ≠ []) :
    (∃ before l after r cause, ls = before ++ l :: after ∧
      readWords step start (before.map Lexeme.word) = .ok r ∧
        step r l.kind l.text = .error cause ∧ e = ⟨cause, l.position, l.text⟩) ∨
    ∃ last r cause, ls.getLast? = some last ∧ readWords step start (ls.map Lexeme.word) = .ok r ∧
      finish r = .error cause ∧ e = ⟨cause, last.stop, ""⟩ := by
  unfold readAll at h
  cases hlast : ls.getLast? with
  | none => exact absurd (List.getLast?_eq_none_iff.mp hlast) hne
  | some last =>
    rw [hlast] at h
    rcases Except.bind_eq_error_iff.mp h with h | ⟨r, hr, h⟩
    · exact .inl (exists_of_foldlM_readLexeme_eq_error h)
    · obtain ⟨cause, hcause, rfl⟩ := Except.mapError_eq_error_iff.mp h
      exact .inr ⟨last, r, cause, rfl, foldlM_readLexeme_eq_ok_iff.mp hr, hcause, rfl⟩

end Tabletop
