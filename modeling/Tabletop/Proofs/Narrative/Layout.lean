import Tabletop.Proofs.Narrative.Spelling
import Tabletop.Proofs.Text.Placing

/-!
# Layout of narrative texts

How a text is laid out as tokens. What a letter means is seen only behind the run of letters that it
stands in, where a colon makes the run the name of a group.

* `LeadsToColon cs`: behind separators, the text goes on with a colon.
* `Reads named p cs ts q rest`: from the offset `p` on, the tokens `ts` are read off the text `cs`,
  and `rest`, which starts at the offset `q`, is left. If `named`, the name of a group stands in
  front of the text, and its colon is still to come.
* `tokensFrom p cs`: the tokens of a text that stands at the offset `p`, with one equation for each
  thing that the text may start with.
* `tokenize_eq_ok_iff`: a text has the tokens that are read off it to its end.
* `exists_reads_of_tokenize_eq_error`: a text that has none is read up to the error.
-/

namespace Tabletop.Narrative

variable {named : Bool} {k : Kind} {p q : Nat} {c : Char} {w gap cs after rest : List Char}
  {ts us : List Token}

/-! ## What is seen ahead -/

/-- Behind separators, if there are any, the text goes on with a colon. -/
def LeadsToColon (cs : List Char) : Prop :=
  ∃ gap after, cs = gap ++ ':' :: after ∧ ∀ c ∈ gap, isSeparator c = true

theorem leadsToColon_separator (hc : isSeparator c = true) :
    LeadsToColon (c :: cs) ↔ LeadsToColon cs := by
  constructor
  · rintro ⟨gap, after, h, hgap⟩
    cases gap with
    | nil =>
      cases h
      cases hc
    | cons x gap =>
      cases h
      exact ⟨gap, after, rfl, (List.forall_mem_cons.mp hgap).2⟩
  · rintro ⟨gap, after, rfl, hgap⟩
    exact ⟨c :: gap, after, rfl, List.forall_mem_cons.mpr ⟨hc, hgap⟩⟩

theorem leadsToColon_cons (hc : isSeparator c = false) : LeadsToColon (c :: cs) ↔ c = ':' := by
  constructor
  · rintro ⟨gap, after, h, hgap⟩
    cases gap with
    | nil =>
      cases h
      rfl
    | cons x gap =>
      cases h
      rw [hgap c List.mem_cons_self] at hc
      cases hc
  · rintro rfl
    exact ⟨[], cs, rfl, by simp⟩

theorem LeadsToColon.append (h : LeadsToColon cs) (rest : List Char) :
    LeadsToColon (cs ++ rest) := by
  obtain ⟨gap, after, rfl, hgap⟩ := h
  exact ⟨gap, after ++ rest, by simp, hgap⟩

/-- What leads to a colon does not start with a letter. -/
theorem LeadsToColon.stops (h : LeadsToColon cs) : Stops .word cs := by
  obtain ⟨gap, after, rfl, hgap⟩ := h
  intro c hc
  cases gap with
  | nil =>
    cases hc
    rfl
  | cons x gap =>
    cases hc
    exact goesOn_separator .word (hgap c List.mem_cons_self)

/-- Behind a run of letters is what stops it. -/
theorem dropWhile_run (hw : ∀ c ∈ w, isWordChar c = true) (hs : Stops .word rest) :
    (w ++ rest).dropWhile isWordChar = rest := by
  rw [List.dropWhile_append_of_pos hw]
  cases rest with
  | nil => rfl
  | cons x rest =>
    have hx : isWordChar x = false := hs x rfl
    exact List.dropWhile_cons_of_neg (by simp [hx])

theorem LeadsToColon.dropWhile (h : LeadsToColon cs) :
    LeadsToColon (cs.dropWhile isWordChar) := by
  rwa [← List.nil_append cs, dropWhile_run (by simp) h.stops]

/-! ## How a token ends -/

/-- Behind a token of the kind, the text goes on as `rest`: no digit follows an integer, and a
letter is not part of a group's name. -/
def Kind.EndsAt : Kind → List Char → Prop
  | .int, rest => Stops .int rest
  | .die _, rest | .symbol _, rest => ¬LeadsToColon (rest.dropWhile isWordChar)
  | .reference, _ | .groupName, _ | .leftParen, _ | .rightParen, _ => True

/-- A letter stands for a die or a symbol, if for anything. -/
theorem die_or_symbol_of_ofLetter? (h : Kind.ofLetter? c = some k) :
    (∃ d, k = .die d) ∨ ∃ f, k = .symbol f := by
  unfold Kind.ofLetter? at h
  split at h
  · next d _ =>
    cases h
    exact .inl ⟨d, rfl⟩
  · obtain ⟨f, -, rfl⟩ := Option.map_eq_some_iff.mp h
    exact .inr ⟨f, rfl⟩

theorem endsAt_of_ofLetter? (h : Kind.ofLetter? c = some k) :
    k.EndsAt rest ↔ ¬LeadsToColon (rest.dropWhile isWordChar) := by
  obtain ⟨d, rfl⟩ | ⟨f, rfl⟩ := die_or_symbol_of_ofLetter? h <;> rfl

/-- A token that ends where the text goes on ends where the text is cut off, too. -/
theorem Kind.EndsAt.cut (h : k.EndsAt (cs ++ rest)) : k.EndsAt cs := by
  have hletter : LeadsToColon (cs.dropWhile isWordChar) →
      LeadsToColon ((cs ++ rest).dropWhile isWordChar) := by
    intro hcolon
    have hne : cs.dropWhile isWordChar ≠ [] := by
      obtain ⟨gap, after, hgap, -⟩ := hcolon
      simp [hgap]
    rw [List.dropWhile_append, if_neg (by rwa [List.isEmpty_iff])]
    exact hcolon.append rest
  cases k with
  | int =>
    cases cs with
    | nil => intro c hc; cases hc
    | cons x cs => exact h
  | die d => exact fun hcolon => h (hletter hcolon)
  | symbol f => exact fun hcolon => h (hletter hcolon)
  | reference | groupName | leftParen | rightParen => trivial

/-- A piece that is a token by itself ends where nothing makes it longer. -/
theorem endsAt_iff_of_token? {piece : Piece} (hk : piece.token? = some k) :
    k.EndsAt rest ↔ Stops piece rest := by
  cases piece with
  | word | colon => cases hk
  | int =>
    cases hk
    rfl
  | reference | leftParen | rightParen =>
    cases hk
    exact ⟨fun _ _ _ => rfl, fun _ => trivial⟩

theorem spells_iff_of_token? {piece : Piece} (hk : piece.token? = some k) :
    k.Spells w ↔ piece.Spells w := by
  cases piece <;> cases hk <;> rfl

/-- A token is a letter, the name of a group, or a piece by itself. -/
theorem Kind.Spells.forms (h : k.Spells w) :
    (∃ c, Kind.ofLetter? c = some k ∧ w = [c]) ∨ (k = .groupName ∧ IsWord w) ∨
      ∃ piece : Piece, piece.token? = some k ∧ piece.Spells w := by
  cases k with
  | die d => exact .inl h
  | symbol f => exact .inl h
  | groupName => exact .inr (.inl ⟨rfl, h⟩)
  | int => exact .inr (.inr ⟨.int, rfl, h⟩)
  | reference => exact .inr (.inr ⟨.reference, rfl, h⟩)
  | leftParen => exact .inr (.inr ⟨.leftParen, rfl, h⟩)
  | rightParen => exact .inr (.inr ⟨.rightParen, rfl, h⟩)

theorem Kind.Spells.ne_nil (h : k.Spells w) : w ≠ [] := by
  rcases h.forms with ⟨c, -, rfl⟩ | ⟨-, hw⟩ | ⟨piece, -, hw⟩
  · simp
  · exact hw.1
  · obtain ⟨c, v, rfl, -⟩ := hw.head
    simp

/-! ## Reading tokens off a text -/

/-- From the offset `p` on, the tokens `ts` are read off the text `cs`, and `rest`, which starts at
the offset `q`, is left. If `named`, the name of a group stands in front of the text, and its colon
is read first. -/
inductive Reads : Bool → Nat → List Char → List Token → Nat → List Char → Prop where
  | done {p : Nat} {rest : List Char} : Reads false p rest [] p rest
  | separator {named : Bool} {p q : Nat} {c : Char} {cs rest : List Char} {ts : List Token}
      (hc : isSeparator c = true) (h : Reads named (p + c.utf8Size) cs ts q rest) :
      Reads named p (c :: cs) ts q rest
  | colon {p q : Nat} {cs rest : List Char} {ts : List Token}
      (h : Reads false (p + 1) cs ts q rest) : Reads true p (':' :: cs) ts q rest
  | token {k : Kind} {p q : Nat} {w cs rest : List Char} {ts : List Token}
      (hs : k.Spells w) (he : k.EndsAt cs)
      (h : Reads (k == .groupName) (p + bytes w) cs ts q rest) :
      Reads false p (w ++ cs) (⟨k, String.ofList w, p⟩ :: ts) q rest

namespace Reads

/-- Separators in front of a text are skipped. -/
theorem skip (hgap : ∀ c ∈ gap, isSeparator c = true)
    (h : Reads named (p + bytes gap) cs ts q rest) : Reads named p (gap ++ cs) ts q rest := by
  induction gap generalizing p with
  | nil => exact h
  | cons c gap ih =>
    obtain ⟨hc, hgap⟩ := List.forall_mem_cons.mp hgap
    rw [bytes_cons, ← Nat.add_assoc] at h
    exact .separator hc (ih hgap h)

/-- The colon of a group's name is the first thing behind separators. -/
theorem exists_colon (h : Reads named p cs ts q rest) (hnamed : named = true) :
    ∃ gap after, cs = gap ++ ':' :: after ∧ (∀ c ∈ gap, isSeparator c = true) ∧
      Reads false (p + bytes gap + 1) after ts q rest := by
  induction h with
  | done => cases hnamed
  | @separator named p q c cs rest ts hc _ ih =>
    obtain ⟨gap, after, rfl, hgap, hread⟩ := ih hnamed
    refine ⟨c :: gap, after, rfl, List.forall_mem_cons.mpr ⟨hc, hgap⟩, ?_⟩
    rwa [bytes_cons, ← Nat.add_assoc]
  | @colon p q cs rest ts h => exact ⟨[], cs, rfl, by simp, h⟩
  | token => cases hnamed

theorem placed (h : Reads named p cs ts q rest) : Placed p cs ts q rest := by
  induction h with
  | done => exact .done
  | separator _ _ ih | colon _ ih => exact .skip ih
  | token _ _ _ ih => exact .lexeme ih

/-- What is read of a text is read alone, too. -/
theorem alone (h : Reads named p cs ts q rest) {before : List Char} (hcs : cs = before ++ rest) :
    Reads named p before ts q [] := by
  induction h generalizing before with
  | done =>
    rw [List.self_eq_append_left.mp hcs]
    exact .done
  | @separator named p q c cs rest ts hc h ih =>
    obtain ⟨before', rfl, -⟩ := h.placed.exists_append
    rw [← List.cons_append] at hcs
    rw [← List.append_cancel_right hcs]
    exact .separator hc (ih rfl)
  | @colon p q cs rest ts h ih =>
    obtain ⟨before', rfl, -⟩ := h.placed.exists_append
    rw [← List.cons_append] at hcs
    rw [← List.append_cancel_right hcs]
    exact .colon (ih rfl)
  | @token k p q w cs rest ts hs he h ih =>
    obtain ⟨before', rfl, -⟩ := h.placed.exists_append
    rw [← List.append_assoc] at hcs
    rw [← List.append_cancel_right hcs]
    exact .token hs he.cut (ih rfl)

/-- The text before one of the tokens is read as the tokens before it. -/
theorem split {t : Token} (h : Reads named p cs (ts ++ t :: us) q rest) : ∃ after,
    Reads named p cs ts t.position (t.text.toList ++ after) ∧ t.kind.Spells t.text.toList ∧
      t.kind.EndsAt after ∧ Reads (t.kind == .groupName) t.stop after us q rest := by
  generalize hall : ts ++ t :: us = all at h
  induction h generalizing ts with
  | done => simp at hall
  | separator hc _ ih =>
    obtain ⟨after, hbefore, hafter⟩ := ih hall
    exact ⟨after, .separator hc hbefore, hafter⟩
  | colon _ ih =>
    obtain ⟨after, hbefore, hafter⟩ := ih hall
    exact ⟨after, .colon hbefore, hafter⟩
  | @token k p q w cs rest ts' hs he h ih =>
    cases ts with
    | nil =>
      cases hall
      refine ⟨cs, ?_, by rwa [String.toList_ofList], he, h⟩
      rw [String.toList_ofList]
      exact .done
    | cons t' ts =>
      cases hall
      obtain ⟨after, hbefore, hafter⟩ := ih rfl
      exact ⟨after, .token hs he hbefore, hafter⟩

end Reads

/-! ## The tokens of a text that stands at an offset -/

/-- The tokens of the text `cs`, which stands at the offset `p`. -/
def tokensFrom (p : Nat) (cs : List Char) : Except LexError (List Token) :=
  settle (lexicon.scan p cs).fault (lexicon.scan p cs).lexemes

theorem tokensFrom_nil : tokensFrom p [] = .ok [] := by
  rw [tokensFrom, Lexicon.scan]
  rfl

theorem tokensFrom_separator (hc : isSeparator c = true) :
    tokensFrom p (c :: cs) = tokensFrom (p + c.utf8Size) cs := by
  rw [tokensFrom, Lexicon.scan_separator hc]
  rfl

/-- A spelled piece that the text does not make longer is the first that is scanned. -/
theorem scan_piece (piece : Piece) (hw : piece.Spells w) (hs : Stops piece cs) :
    lexicon.scan p (w ++ cs) = ⟨⟨piece, String.ofList w, p⟩ ::
      (lexicon.scan (p + bytes w) cs).lexemes, (lexicon.scan (p + bytes w) cs).fault⟩ := by
  obtain ⟨c, v, rfl, hc⟩ := hw.head
  exact Lexicon.scan_lexeme hc (hw.longest?_append hs)

/-- A piece that is a token by itself is the first token. -/
theorem tokensFrom_piece {piece : Piece} (hk : piece.token? = some k) (hw : piece.Spells w)
    (hs : Stops piece cs) : tokensFrom p (w ++ cs) =
      (tokensFrom (p + bytes w) cs).map (⟨k, String.ofList w, p⟩ :: ·) := by
  rw [tokensFrom, scan_piece piece hw hs]
  cases piece with
  | word | colon => cases hk
  | int | reference | leftParen | rightParen =>
    cases hk
    rfl

/-- A word that leads to a colon is the name of a group. -/
theorem tokensFrom_name (hw : IsWord w) (hgap : ∀ c ∈ gap, isSeparator c = true) :
    tokensFrom p (w ++ (gap ++ ':' :: cs)) =
      (tokensFrom (p + bytes w + bytes gap + 1) cs).map
        (⟨.groupName, String.ofList w, p⟩ :: ·) := by
  have hscan : ∀ q, lexicon.scan q (gap ++ ':' :: cs) = ⟨⟨.colon, ":", q + bytes gap⟩ ::
      (lexicon.scan (q + bytes gap + 1) cs).lexemes,
        (lexicon.scan (q + bytes gap + 1) cs).fault⟩ := by
    intro q
    induction gap generalizing q with
    | nil => exact @scan_piece q [':'] cs .colon rfl (by intro c _; rfl)
    | cons c gap ih =>
      obtain ⟨hc, hgap⟩ := List.forall_mem_cons.mp hgap
      rw [List.cons_append, Lexicon.scan_separator hc, ih hgap, bytes_cons, ← Nat.add_assoc]
  have hstops : Stops .word (gap ++ ':' :: cs) := LeadsToColon.stops ⟨gap, cs, rfl, hgap⟩
  rw [tokensFrom, scan_piece .word hw hstops, hscan]
  rfl

/-- A colon that is scanned first is what the text leads to. -/
theorem leadsToColon_of_scan {l : Lexeme Piece} {ls : List (Lexeme Piece)}
    (h : (lexicon.scan p cs).lexemes = l :: ls) (hl : l.kind = .colon) : LeadsToColon cs := by
  fun_induction lexicon.scan p cs with
  | case1 p => cases h
  | case2 p c cs hc ih => exact (leadsToColon_separator hc).mpr (ih h)
  | case3 p c cs hc piece n hlongest text rest _ =>
    cases h
    cases hl
    have hlongest : longest? (c :: cs) = some (.colon, n + 1) := hlongest
    have hspells : (c :: cs).take (n + 1) = [':'] := spells_of_longest? hlongest
    rw [List.take_succ_cons, List.cons.injEq] at hspells
    exact (leadsToColon_cons (Bool.eq_false_iff.mpr hc)).mpr hspells.1
  | case4 p c cs hc hlongest => cases h

/-- A run of letters that does not lead to a colon is spelled out. -/
theorem tokensFrom_run (hw : ∀ c ∈ w, isWordChar c = true) (hs : Stops .word after)
    (hcolon : ¬LeadsToColon after) : tokensFrom p (w ++ after) =
      (spell p w).bind fun letters => (tokensFrom (p + bytes w) after).map (letters ++ ·) := by
  by_cases hne : w = []
  · subst hne
    cases h : tokensFrom p after <;> simp [spell, Except.bind, Except.map, h]
  · rw [tokensFrom, scan_piece .word ⟨hne, hw⟩ hs, settle, String.toList_ofList]
    · rfl
    · rintro text q ls hls
      exact hcolon (leadsToColon_of_scan hls rfl)

/-- A letter that is not part of a group's name is a token by itself, if it is one at all. -/
theorem tokensFrom_letter (hc : isWordChar c = true)
    (hcolon : ¬LeadsToColon (cs.dropWhile isWordChar)) : tokensFrom p (c :: cs) =
      match Kind.ofLetter? c with
      | none => .error ⟨p, c⟩
      | some k => (tokensFrom (p + bytes [c]) cs).map (⟨k, String.ofList [c], p⟩ :: ·) := by
  obtain ⟨v, after, rfl, -, hv, hafter⟩ := Lexicon.run_splits isWordChar cs
  rw [dropWhile_run hv hafter] at hcolon
  rw [← List.cons_append, tokensFrom_run (List.forall_mem_cons.mpr ⟨hc, hv⟩) hafter hcolon,
    tokensFrom_run hv hafter hcolon, spell]
  cases Kind.ofLetter? c with
  | none => rfl
  | some k =>
    rw [bytes_cons, bytes_cons, bytes_nil, Nat.add_zero, ← Nat.add_assoc]
    cases spell (p + c.utf8Size) v with
    | error e => rfl
    | ok letters => cases tokensFrom (p + c.utf8Size + bytes v) after <;> rfl

/-- A token other than a name is the first of the text. -/
theorem tokensFrom_token (hk : k ≠ .groupName) (hs : k.Spells w) (he : k.EndsAt cs) :
    tokensFrom p (w ++ cs) =
      (tokensFrom (p + bytes w) cs).map (⟨k, String.ofList w, p⟩ :: ·) := by
  rcases hs.forms with ⟨c, hc, rfl⟩ | ⟨hname, -⟩ | ⟨piece, hpiece, hw⟩
  · rw [List.singleton_append, tokensFrom_letter (isWordChar_of_ofLetter? hc)
      ((endsAt_of_ofLetter? hc).mp he), hc]
  · exact absurd hname hk
  · exact tokensFrom_piece hpiece hw ((endsAt_iff_of_token? hpiece).mp he)

/-- A colon that belongs to no name is an error. -/
theorem tokensFrom_colon : tokensFrom p (':' :: cs) = .error ⟨p, ':'⟩ := by
  have hscan := @scan_piece p [':'] cs .colon rfl (by intro c _; rfl)
  rw [List.singleton_append] at hscan
  rw [tokensFrom, hscan]
  rfl

/-- A character that starts no piece is an error. -/
theorem tokensFrom_nothing (hc : isSeparator c = false) (hl : longest? (c :: cs) = none) :
    tokensFrom p (c :: cs) = .error ⟨p, c⟩ := by
  have hl : lexicon.longest? (c :: cs) = none := hl
  rw [tokensFrom, Lexicon.scan, if_neg (by simp [show lexicon.separates c = false from hc]), hl]
  rfl

/-! ## Texts and what is read off them -/

/-- The tokens of a text that is read to its end are those that are read. -/
theorem Reads.tokensFrom_eq (h : Reads named p cs ts q rest)
    (hrest : tokensFrom q rest = .ok us) :
    (named = false → tokensFrom p cs = .ok (ts ++ us)) ∧
      (named = true → ∃ gap after, cs = gap ++ ':' :: after ∧
        (∀ c ∈ gap, isSeparator c = true) ∧
          tokensFrom (p + bytes gap + 1) after = .ok (ts ++ us)) := by
  induction h with
  | done => exact ⟨fun _ => hrest, nofun⟩
  | @separator named p q c cs rest ts hc _ ih =>
    obtain ⟨hplain, hname⟩ := ih hrest
    refine ⟨fun hnamed => (tokensFrom_separator hc).trans (hplain hnamed), fun hnamed => ?_⟩
    obtain ⟨gap, after, rfl, hgap, htokens⟩ := hname hnamed
    refine ⟨c :: gap, after, rfl, List.forall_mem_cons.mpr ⟨hc, hgap⟩, ?_⟩
    rwa [bytes_cons, ← Nat.add_assoc]
  | @colon p q cs rest ts _ ih =>
    exact ⟨nofun, fun _ => ⟨[], cs, rfl, by simp, (ih hrest).1 rfl⟩⟩
  | @token k p q w cs rest ts hs he _ ih =>
    obtain ⟨hplain, hname⟩ := ih hrest
    refine ⟨fun _ => ?_, nofun⟩
    by_cases hk : k = .groupName
    · subst hk
      obtain ⟨gap, after, rfl, hgap, htokens⟩ := hname rfl
      rw [tokensFrom_name hs hgap, htokens]
      rfl
    · rw [tokensFrom_token hk hs he, hplain (beq_eq_false_iff_ne.mpr hk)]
      rfl

/-- The tokens are read off the text to its end, or up to the error. -/
def ReadTo (p : Nat) (cs : List Char) : Except LexError (List Token) → Prop
  | .ok ts => ∃ q, Reads false p cs ts q []
  | .error e => ∃ ts after, Reads false p cs ts e.position (e.char :: after)

namespace ReadTo

/-- What is in front of a text that is read is read before it. -/
theorem prepend {ds : List Char} {f : List Token → List Token}
    (htokens : tokensFrom p cs = (tokensFrom q ds).map f)
    (hread : ∀ {ts r rest}, Reads false q ds ts r rest → Reads false p cs (f ts) r rest)
    (h : ReadTo q ds (tokensFrom q ds)) : ReadTo p cs (tokensFrom p cs) := by
  rw [htokens]
  cases hr : tokensFrom q ds with
  | ok ts =>
    obtain ⟨r, h⟩ := hr ▸ h
    exact ⟨r, hread h⟩
  | error e =>
    obtain ⟨ts, after, h⟩ := hr ▸ h
    exact ⟨f ts, after, hread h⟩

theorem separator (hc : isSeparator c = true)
    (h : ReadTo (p + c.utf8Size) cs (tokensFrom (p + c.utf8Size) cs)) :
    ReadTo p (c :: cs) (tokensFrom p (c :: cs)) := by
  refine h.prepend (f := id) ?_ (.separator hc)
  rw [tokensFrom_separator hc]
  cases tokensFrom (p + c.utf8Size) cs <;> rfl

theorem token (hk : k ≠ .groupName) (hs : k.Spells w) (he : k.EndsAt cs)
    (h : ReadTo (p + bytes w) cs (tokensFrom (p + bytes w) cs)) :
    ReadTo p (w ++ cs) (tokensFrom p (w ++ cs)) := by
  refine h.prepend (tokensFrom_token hk hs he) fun hread => .token hs he ?_
  rwa [beq_eq_false_iff_ne.mpr hk]

theorem name (hw : IsWord w) (hgap : ∀ c ∈ gap, isSeparator c = true)
    (h : ReadTo (p + bytes w + bytes gap + 1) cs (tokensFrom (p + bytes w + bytes gap + 1) cs)) :
    ReadTo p (w ++ (gap ++ ':' :: cs)) (tokensFrom p (w ++ (gap ++ ':' :: cs))) :=
  h.prepend (tokensFrom_name hw hgap) fun hread =>
    .token (show Kind.Spells .groupName w from hw) trivial (.skip hgap (.colon hread))

end ReadTo

/-- What starts with a letter is read, if all shorter texts are. -/
theorem readTo_word (hc : isWordChar c = true)
    (ih : ∀ p ds, ds.length ≤ cs.length → ReadTo p ds (tokensFrom p ds)) :
    ReadTo p (c :: cs) (tokensFrom p (c :: cs)) := by
  by_cases hcolon : LeadsToColon (cs.dropWhile isWordChar)
  · obtain ⟨v, after, rfl, -, hv, hafter⟩ := Lexicon.run_splits isWordChar cs
    rw [dropWhile_run hv hafter] at hcolon
    obtain ⟨gap, after, rfl, hgap⟩ := hcolon
    have hw : IsWord (c :: v) := ⟨by simp, List.forall_mem_cons.mpr ⟨hc, hv⟩⟩
    exact ReadTo.name hw hgap (ih _ _ (by simp; omega))
  · cases hk : Kind.ofLetter? c with
    | none =>
      rw [tokensFrom_letter hc hcolon, hk]
      exact ⟨[], cs, .done⟩
    | some k =>
      have hne : k ≠ .groupName := by
        obtain ⟨d, rfl⟩ | ⟨f, rfl⟩ := die_or_symbol_of_ofLetter? hk <;> nofun
      exact ReadTo.token hne (spells_of_ofLetter? hk) ((endsAt_of_ofLetter? hk).mpr hcolon)
        (ih _ _ (Nat.le_refl _))

/-- What starts with neither a separator nor a letter is read, if all shorter texts are. -/
theorem readTo_piece (hc : isSeparator c = false) (hword : isWordChar c = false)
    (ih : ∀ p ds, ds.length ≤ cs.length → ReadTo p ds (tokensFrom p ds)) :
    ReadTo p (c :: cs) (tokensFrom p (c :: cs)) := by
  cases hl : longest? (c :: cs) with
  | none =>
    rw [tokensFrom_nothing hc hl]
    exact ⟨[], cs, .done⟩
  | some found =>
    obtain ⟨piece, n⟩ := found
    obtain ⟨w, after, hcs, hw, hstops⟩ :
        ∃ w after, c :: cs = w ++ after ∧ piece.Spells w ∧ Stops piece after :=
      ⟨_, _, (List.take_append_drop n _).symm, spells_of_longest? hl, stops_of_longest? hl⟩
    obtain ⟨x, v, rfl, -⟩ := hw.head
    obtain ⟨rfl, rfl⟩ := List.cons.inj hcs
    have hafter : ReadTo (p + bytes (c :: v)) after (tokensFrom (p + bytes (c :: v)) after) :=
      ih _ _ (by simp)
    cases hk : piece.token? with
    | some k =>
      have hname : k ≠ .groupName := by
        rintro rfl
        cases piece <;> cases hk
      exact ReadTo.token hname ((spells_iff_of_token? hk).mpr hw)
        ((endsAt_iff_of_token? hk).mpr hstops) hafter
    | none =>
      cases piece with
      | word =>
        rw [hw.2 c List.mem_cons_self] at hword
        cases hword
      | colon =>
        cases hw
        rw [tokensFrom_colon]
        exact ⟨[], after, .done⟩
      | int | reference | leftParen | rightParen => cases hk

/-- A text is read up to its end or an error. -/
theorem readTo_tokensFrom (p : Nat) (cs : List Char) : ReadTo p cs (tokensFrom p cs) := by
  induction hn : cs.length using Nat.strongRecOn generalizing p cs with
  | ind n ih =>
    cases cs with
    | nil =>
      rw [tokensFrom_nil]
      exact ⟨p, .done⟩
    | cons c cs =>
      have hshorter : ∀ p ds, ds.length ≤ cs.length → ReadTo p ds (tokensFrom p ds) :=
        fun p ds hds => ih _ (by rw [← hn]; exact Nat.lt_succ_of_le hds) p ds rfl
      by_cases hc : isSeparator c = true
      · exact .separator hc (hshorter _ _ (Nat.le_refl _))
      · by_cases hword : isWordChar c = true
        · exact readTo_word hword hshorter
        · rw [Bool.not_eq_true] at hc hword
          exact readTo_piece hc hword hshorter

variable {text : String}

/-- A text has the tokens that are read off it to its end. -/
theorem tokenize_eq_ok_iff : tokenize text = .ok ts ↔ ∃ q, Reads false 0 text.toList ts q [] := by
  constructor
  · intro h
    have hread := readTo_tokensFrom 0 text.toList
    rwa [show tokensFrom 0 text.toList = .ok ts from h] at hread
  · rintro ⟨q, h⟩
    have htokens := (h.tokensFrom_eq tokensFrom_nil).1 rfl
    rwa [List.append_nil] at htokens

/-- A text without tokens is read up to the error. -/
theorem exists_reads_of_tokenize_eq_error {e : LexError} (h : tokenize text = .error e) :
    ∃ ts after, Reads false 0 text.toList ts e.position (e.char :: after) := by
  have hread := readTo_tokensFrom 0 text.toList
  rwa [show tokensFrom 0 text.toList = .error e from h] at hread

end Tabletop.Narrative
