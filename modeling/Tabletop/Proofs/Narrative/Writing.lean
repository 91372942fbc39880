import Tabletop.Proofs.Narrative.Items
import Tabletop.Proofs.Narrative.Spelling
import Tabletop.Proofs.Notation.Writing

/-!
# Written terms

Terms are written as pieces (`termsPieces?`), which stand for tokens (`termsWords`), and these are
read as the terms, but for references, which are those read from their texts (`termsReread`).

* `termsWellFormedWith p`: the terms can be written, and their references meet `p`.
* `settles_termsPieces?`: the pieces of terms stand for their tokens.
* `run_termsWords`: the reader goes through the tokens of terms and puts them behind those before.
* `Reader.Valid`: what the reader holds behind spelled tokens can be written.
-/

namespace Tabletop.Narrative

open ParseError (Cause)
open Notation (Closed)

/-! ## Well-formed terms -/

/-- The count is not negative, or is a reference that meets `p`. -/
def Count.WellFormedWith (p : Reference → Prop) : Count → Prop
  | literal n => 0 ≤ n
  | reference r => p r

mutual

/-- The term can be written, and its references meet `p`: its symbols are one at a time, and groups
have words as names. -/
def Term.WellFormedWith (p : Reference → Prop) : Term → Prop
  | .dice count _ => count.WellFormedWith p
  | .symbols count f => count.WellFormedWith p ∧ f.symbols.length = 1
  | .group name terms => IsWord name.toList ∧ termsWellFormedWith p terms

/-- The terms can be written, and their references meet `p`. -/
def termsWellFormedWith (p : Reference → Prop) : List Term → Prop
  | [] => True
  | t :: terms => t.WellFormedWith p ∧ termsWellFormedWith p terms

end

/-- The terms are read back from their text, if there are any. -/
def termsWellFormed (terms : List Term) : Prop :=
  termsWellFormedWith Reference.WellFormed terms

section

variable {p q : Reference → Prop}

theorem termsWellFormedWith_iff_forall {terms : List Term} :
    termsWellFormedWith p terms ↔ ∀ t ∈ terms, t.WellFormedWith p := by
  induction terms with
  | nil => simp [termsWellFormedWith]
  | cons t terms ih => rw [termsWellFormedWith, ih, List.forall_mem_cons]

end

/-! ## Pieces and tokens -/

/-- The piece of a count. There is no reference `${}`. -/
def Count.piece? : Count → Option PieceWord
  | literal n => some (.int, toString n)
  | reference r => if r.body = [] then none else some (.reference, toString r)

/-- The token of a count. -/
def Count.word : Count → Word
  | literal n => (.int, toString n)
  | reference r => (.reference, toString r)

/-- The count with its reference as it is read from its text. -/
def Count.reread : Count → Count
  | literal n => literal n
  | reference r => reference (.ofText (toString r))

mutual

/-- The pieces of a term. -/
def Term.pieces? : Term → Option (List PieceWord)
  | .dice count d => do
    let p ← count.piece?
    some [p, (.word, d.letter.toString)]
  | .symbols count f => do
    let p ← count.piece?
    some [p, (.word, f.letters)]
  | .group name terms => do
    let ps ← termsPieces? terms
    some ((.leftParen, "(") :: (.word, name) :: (.colon, ":") :: ps ++ [(.rightParen, ")")])

/-- The pieces of terms. -/
def termsPieces? : List Term → Option (List PieceWord)
  | [] => some []
  | t :: terms => do
    let ps ← t.pieces?
    let qs ← termsPieces? terms
    some (ps ++ qs)

end

mutual

/-- The tokens of a term. -/
def Term.words : Term → List Word
  | .dice count d => [count.word, (.die d, d.letter.toString)]
  | .symbols count f => [count.word, (.symbol f, f.letters)]
  | .group name terms =>
    (.leftParen, "(") :: (.groupName, name) :: termsWords terms ++ [(.rightParen, ")")]

/-- The tokens of terms. -/
def termsWords : List Term → List Word
  | [] => []
  | t :: terms => t.words ++ termsWords terms

end

mutual

/-- The term with its references as they are read from their texts. -/
def Term.reread : Term → Term
  | .dice count d => .dice count.reread d
  | .symbols count f => .symbols count.reread f
  | .group name terms => .group name (termsReread terms)

/-- The terms with their references as they are read from their texts. -/
def termsReread : List Term → List Term
  | [] => []
  | t :: terms => t.reread :: termsReread terms

end

/-! ## Pieces stand for tokens -/

theorem ofLetter?_letter (d : SymbolDie) : Kind.ofLetter? d.letter = some (.die d) := by
  cases d <;> rfl

/-- One symbol is written by its letter. -/
theorem Face.letters_of_single {f : Face} (h : f.symbols.length = 1) :
    ∃ c, f.letters = c.toString ∧ Kind.ofLetter? c = some (.symbol f) := by
  obtain ⟨s, hs⟩ := List.length_eq_one_iff.mp h
  refine ⟨s.letter, ?_, ?_⟩
  · rw [letters, hs]
    rfl
  · cases f <;> cases hs <;> rfl

theorem Count.settles_piece? {c : Count} {p : PieceWord} {ps : List PieceWord} {ws : List Word}
    (hp : c.piece? = some p) (h : Settles ps ws) : Settles (p :: ps) (c.word :: ws) := by
  cases c with
  | literal n =>
    cases hp
    exact h.plain rfl _
  | reference r =>
    rw [piece?, Option.ite_none_left_eq_some, Option.some.injEq] at hp
    obtain ⟨-, rfl⟩ := hp
    exact h.plain rfl _

/-- No term starts with a colon. -/
theorem Term.head_pieces? {t : Term} {ps : List PieceWord} (h : t.pieces? = some ps) :
    ∃ p rest, ps = p :: rest ∧ p.1 ≠ .colon := by
  have hcount : ∀ {c : Count} {p : PieceWord}, c.piece? = some p → p.1 ≠ .colon := by
    intro c p hp
    cases c with
    | literal n => cases hp; simp
    | reference r =>
      rw [Count.piece?, Option.ite_none_left_eq_some, Option.some.injEq] at hp
      simp [← hp.2]
  cases t with
  | dice count d | symbols count f =>
    rw [pieces?] at h
    obtain ⟨p, hp, h⟩ := Option.bind_eq_some_iff.mp h
    cases h
    exact ⟨p, _, rfl, hcount hp⟩
  | group name terms =>
    rw [pieces?] at h
    obtain ⟨ps, -, h⟩ := Option.bind_eq_some_iff.mp h
    cases h
    exact ⟨_, _, rfl, by simp⟩

mutual

theorem settles_pieces? {t : Term} {ps qs : List PieceWord} {ws : List Word}
    (ht : t.WellFormedWith Closed) (hps : t.pieces? = some ps) (h : Settles qs ws)
    (hqs : ∀ q ∈ qs.head?, q.1 ≠ .colon) : Settles (ps ++ qs) (t.words ++ ws) := by
  cases t with
  | dice count d =>
    rw [Term.pieces?] at hps
    obtain ⟨p, hp, hps⟩ := Option.bind_eq_some_iff.mp hps
    cases hps
    exact Count.settles_piece? hp (h.letter (ofLetter?_letter d) hqs)
  | symbols count f =>
    rw [Term.pieces?] at hps
    obtain ⟨p, hp, hps⟩ := Option.bind_eq_some_iff.mp hps
    cases hps
    rw [Term.WellFormedWith] at ht
    obtain ⟨c, hletters, hc⟩ := Face.letters_of_single ht.2
    rw [Term.words, hletters]
    exact Count.settles_piece? hp (h.letter hc hqs)
  | group name terms =>
    rw [Term.pieces?] at hps
    obtain ⟨rs, hrs, hps⟩ := Option.bind_eq_some_iff.mp hps
    cases hps
    rw [Term.WellFormedWith] at ht
    have hclose : Settles ((.rightParen, ")") :: qs) ((.rightParen, ")") :: ws) := h.plain rfl _
    have hinner := settles_termsPieces? ht.2 hrs hclose (by simp)
    have hall := (hinner.groupName name ":").plain (p := .leftParen) rfl "("
    simpa [Term.words] using hall

/-- The pieces of terms stand for their tokens, if no colon is behind them. -/
theorem settles_termsPieces? {terms : List Term} {ps qs : List PieceWord} {ws : List Word}
    (ht : termsWellFormedWith Closed terms) (hps : termsPieces? terms = some ps)
    (h : Settles qs ws) (hqs : ∀ q ∈ qs.head?, q.1 ≠ .colon) :
    Settles (ps ++ qs) (termsWords terms ++ ws) := by
  cases terms with
  | nil =>
    cases hps
    exact h
  | cons t terms =>
    rw [termsPieces?] at hps
    obtain ⟨ps, hps', hps⟩ := Option.bind_eq_some_iff.mp hps
    obtain ⟨rs, hrs, hps⟩ := Option.bind_eq_some_iff.mp hps
    cases hps
    rw [termsWellFormedWith] at ht
    rw [termsWords, List.append_assoc, List.append_assoc]
    refine settles_pieces? ht.1 hps' (settles_termsPieces? ht.2 hrs h hqs) ?_
    cases terms with
    | nil =>
      cases hrs
      exact hqs
    | cons u terms =>
      rw [termsPieces?] at hrs
      obtain ⟨us, hus, hrs⟩ := Option.bind_eq_some_iff.mp hrs
      obtain ⟨vs, -, hrs⟩ := Option.bind_eq_some_iff.mp hrs
      cases hrs
      obtain ⟨p, rest, rfl, hp⟩ := Term.head_pieces? hus
      intro q hq
      cases hq
      exact hp

end

/-! ## Reading tokens -/

/-- A count waits for its die or symbol. -/
theorem Count.step_word {c : Count} (h : c.WellFormedWith Closed)
    (outer : List (String × List Term)) (before : List Term) :
    Reader.step ⟨outer, before, .term⟩ c.word.1 c.word.2 = .ok ⟨outer, before, .item c.reread⟩ := by
  cases c with
  | literal n =>
    simp only [word, Reader.step, Numeral.int64?_toString h]
    rfl
  | reference r => rfl

mutual

/-- The tokens of a term are read as the term. -/
theorem run_words {t : Term} (ht : t.WellFormedWith Closed) (outer : List (String × List Term))
    (before : List Term) :
    readWords Reader.step ⟨outer, before, .term⟩ t.words =
      .ok ⟨outer, t.reread :: before, .term⟩ := by
  cases t with
  | dice count d =>
    rw [Term.WellFormedWith] at ht
    rw [Term.words, readWords_cons_of_ok (Count.step_word ht outer before), Term.reread]
    rfl
  | symbols count f =>
    rw [Term.WellFormedWith] at ht
    rw [Term.words, readWords_cons_of_ok (Count.step_word ht.1 outer before), Term.reread]
    rfl
  | group name terms =>
    rw [Term.WellFormedWith] at ht
    have hinner := run_termsWords ht.2 ((name, before) :: outer) []
    have hopen : Reader.step ⟨outer, before, .term⟩ .leftParen "(" =
        .ok ⟨outer, before, .name⟩ := rfl
    have hname : Reader.step ⟨outer, before, .name⟩ .groupName name =
        .ok ⟨(name, before) :: outer, [], .term⟩ := rfl
    rw [Term.words, List.cons_append, List.cons_append, readWords_cons_of_ok hopen,
      readWords_cons_of_ok hname, readWords_append_of_ok hinner, Term.reread, List.append_nil]
    simp [readWords_cons, Reader.step, Except.bind]

/-- The tokens of terms are read as the terms, the last of which is the first that is held. -/
theorem run_termsWords {terms : List Term} (ht : termsWellFormedWith Closed terms)
    (outer : List (String × List Term)) (before : List Term) :
    readWords Reader.step ⟨outer, before, .term⟩ (termsWords terms) =
      .ok ⟨outer, (termsReread terms).reverse ++ before, .term⟩ := by
  cases terms with
  | nil => rfl
  | cons t terms =>
    rw [termsWellFormedWith] at ht
    rw [termsWords, readWords_append_of_ok (run_words ht.1 outer before),
      run_termsWords ht.2 outer _, termsReread, List.reverse_cons, List.append_assoc]
    rfl

end

/-! ## What is read can be written -/

/-- A letter of a symbol stands for one alone. -/
theorem Kind.Spells.single {f : Face} {cs : List Char} (h : (Kind.symbol f).Spells cs) :
    f.symbols.length = 1 := by
  obtain ⟨c, hc, -⟩ := h
  unfold Kind.ofLetter? at hc
  split at hc
  · cases hc
  · obtain ⟨g, hg, hf⟩ := Option.map_eq_some_iff.mp hc
    cases hf
    unfold Face.ofLetter? at hg
    split at hg <;> cases hg <;> rfl

theorem closed_ofText {text : String} (h : Kind.Spells .reference text.toList) :
    Closed (.ofText text) := by
  obtain ⟨name, -, hb, ht⟩ := h
  exact fun hc => hb (Reference.mem_name_ofText ht hc)

namespace Reader

/-- What the reader holds can be written. -/
structure Valid (r : Reader) : Prop where
  terms : ∀ t ∈ r.terms, t.WellFormedWith Closed
  outer : ∀ o ∈ r.outer, IsWord o.1.toList ∧ ∀ t ∈ o.2, t.WellFormedWith Closed
  focus : ∀ c, r.focus = .item c → c.WellFormedWith Closed

namespace Valid

variable {r r' : Reader} {k : Kind} {text : String}

theorem start : start.Valid :=
  ⟨by simp [Reader.start], by simp [Reader.start], by simp [Reader.start]⟩

theorem push {t : Term} (h : r.Valid) (ht : t.WellFormedWith Closed) : (r.push t).Valid where
  terms := List.forall_mem_cons.mpr ⟨ht, h.terms⟩
  outer := h.outer
  focus _ hc := nomatch hc

theorem stepItem {c : Count} (h : r.Valid) (hc : c.WellFormedWith Closed)
    (hk : k.Spells text.toList) (hstep : r.stepItem c k = .ok r') : r'.Valid := by
  unfold Reader.stepItem at hstep
  split at hstep
  · cases hstep
    exact h.push (by rwa [Term.WellFormedWith])
  · cases hstep
    exact h.push (by rw [Term.WellFormedWith]; exact ⟨hc, hk.single⟩)
  · cases hstep

/-- The end of a group puts it behind the terms before it. -/
theorem close {name : String} {before : List Term} {outer : List (String × List Term)}
    (h : r.Valid) (ho : r.outer = (name, before) :: outer) :
    Valid ⟨outer, .group name r.terms.reverse :: before, .term⟩ := by
  have houter := h.outer
  rw [ho, List.forall_mem_cons] at houter
  obtain ⟨⟨hname, hbefore⟩, houter⟩ := houter
  refine ⟨List.forall_mem_cons.mpr ⟨?_, hbefore⟩, houter, by simp⟩
  rw [Term.WellFormedWith, termsWellFormedWith_iff_forall]
  exact ⟨hname, by simpa using h.terms⟩

/-- A step over a spelled token keeps what the reader holds valid. -/
theorem step (h : r.Valid) (hk : k.Spells text.toList) (hstep : r.step k text = .ok r') :
    r'.Valid := by
  unfold Reader.step at hstep
  split at hstep
  · cases hstep
    exact ⟨by simp, List.forall_mem_cons.mpr ⟨⟨hk, h.terms⟩, h.outer⟩, by simp⟩
  · cases hstep
  · next _ c hfocus => exact h.stepItem (h.focus c hfocus) hk hstep
  · split at hstep
    · next n hn =>
      cases hstep
      exact ⟨h.terms, h.outer, fun c hc => by cases hc; exact Numeral.int64?_nonneg hk.1 hk.2 hn⟩
    · cases hstep
  · cases hstep
    exact ⟨h.terms, h.outer, fun c hc => by cases hc; exact closed_ofText hk⟩
  · cases hstep
    exact ⟨h.terms, h.outer, by simp⟩
  · split at hstep
    · cases hstep
    · next ho =>
      cases hstep
      exact h.close ho
  · have hone : (Count.literal 1).WellFormedWith Closed := show (0 : Int64) ≤ 1 by decide
    exact h.stepItem hone hk hstep

/-- What is read of spelled tokens is valid. -/
theorem readWords {ws : List Word} (h : r.Valid) (hs : ∀ w ∈ ws, w.1.Spells w.2.toList)
    (hrun : Tabletop.readWords Reader.step r ws = .ok r') : r'.Valid := by
  induction ws generalizing r with
  | nil =>
    cases hrun
    exact h
  | cons w ws ih =>
    obtain ⟨hw, hws⟩ := List.forall_mem_cons.mp hs
    rw [readWords_cons] at hrun
    obtain ⟨r₁, hstep, hrun⟩ := Except.bind_eq_ok_iff.mp hrun
    exact ih (h.step hw hstep) hws hrun

theorem finish {terms : List Term} (h : r.Valid) (hfinish : r.finish = .ok terms) :
    termsWellFormedWith Closed terms := by
  unfold Reader.finish at hfinish
  split at hfinish
  · cases hfinish
  · cases hfinish
  · cases hfinish
    rw [termsWellFormedWith_iff_forall]
    simpa using h.terms
  · cases hfinish

end Valid

/-- Behind some token, the reader is not where it has been before the first. -/
def Begun (r : Reader) : Prop :=
  r.terms = [] → r.outer = [] → r.focus ≠ .term

theorem begun_of_step {r r' : Reader} {k : Kind} {text : String} (h : r.step k text = .ok r') :
    r'.Begun := by
  have hitem : ∀ {r : Reader} {c : Count} {k : Kind}, r.stepItem c k = .ok r' → r'.Begun := by
    intro r c k h
    unfold Reader.stepItem at h
    split at h <;> cases h <;> intro hterms <;> cases hterms
  unfold Reader.step at h
  split at h
  · cases h
    intro _ houter
    cases houter
  · cases h
  · exact hitem h
  · split at h <;> cases h
    simp [Begun]
  · cases h
    simp [Begun]
  · cases h
    simp [Begun]
  · split at h
    · cases h
    · cases h
      intro hterms
      cases hterms
  · exact hitem h

theorem begun_of_readWords {r r' : Reader} {w : Word} {ws : List Word}
    (h : readWords Reader.step r (w :: ws) = .ok r') : r'.Begun := by
  rw [readWords_cons] at h
  obtain ⟨r₁, hstep, hrun⟩ := Except.bind_eq_ok_iff.mp h
  induction ws generalizing r r₁ w with
  | nil =>
    cases hrun
    exact begun_of_step hstep
  | cons u ws ih =>
    have hrest := hrun
    rw [readWords_cons] at hrest
    obtain ⟨r₂, hstep', hrun'⟩ := Except.bind_eq_ok_iff.mp hrest
    exact ih hrun r₂ hstep' hrun'

theorem ne_nil_of_finish {r : Reader} {terms : List Term} (h : r.Begun)
    (hfinish : r.finish = .ok terms) : terms ≠ [] := by
  unfold Reader.finish at hfinish
  split at hfinish
  · cases hfinish
  · cases hfinish
  · next hfocus houter =>
    cases hfinish
    intro hterms
    exact h (List.reverse_eq_nil_iff.mp hterms) houter hfocus
  · cases hfinish

end Reader

/-- What is read of a text can be written, and is not empty. -/
theorem wellFormedWith_of_parse {text : String} {terms : List Term} (h : parse text = .ok terms) :
    terms ≠ [] ∧ termsWellFormedWith Closed terms := by
  obtain ⟨us, htokens, hparse⟩ := Except.bind_eq_ok_iff.mp h
  obtain ⟨-, hs⟩ := spells_of_tokenize (Except.mapError_eq_ok_iff.mp htokens)
  obtain ⟨hne, r, hrun, hfinish⟩ := readAll_eq_ok_iff.mp (Except.mapError_eq_ok_iff.mp hparse)
  obtain ⟨u, us, rfl⟩ := List.exists_cons_of_ne_nil hne
  refine ⟨Reader.ne_nil_of_finish (Reader.begun_of_readWords hrun) hfinish,
    (Reader.Valid.start.readWords ?_ hrun).finish hfinish⟩
  intro w hw
  obtain ⟨v, hv, rfl⟩ := List.mem_map.mp hw
  exact hs v hv

/-! ## Terms that are read back -/

theorem Count.wellFormed_iff {c : Count} : c.WellFormedWith Reference.WellFormed ↔
    c.WellFormedWith Closed ∧ (∃ p, c.piece? = some p) ∧ c.reread = c := by
  cases c with
  | literal n => simp [WellFormedWith, piece?, reread]
  | reference r =>
    rw [WellFormedWith, Reference.wellFormed_iff]
    simp [WellFormedWith, piece?, reread, Closed]

mutual

theorem Term.wellFormed_iff (t : Term) : t.WellFormedWith Reference.WellFormed ↔
    t.WellFormedWith Closed ∧ (∃ ps, t.pieces? = some ps) ∧ t.reread = t := by
  cases t with
  | dice count d =>
    rw [Term.WellFormedWith, Term.WellFormedWith, Count.wellFormed_iff, Term.pieces?, Term.reread]
    cases count.piece? <;> simp
  | symbols count f =>
    rw [Term.WellFormedWith, Term.WellFormedWith, Count.wellFormed_iff, Term.pieces?, Term.reread]
    cases count.piece? with
    | none => simp
    | some p => simp; tauto
  | group name terms =>
    rw [Term.WellFormedWith, Term.WellFormedWith, termsWellFormedWith_iff_reread terms,
      Term.pieces?, Term.reread]
    cases termsPieces? terms with
    | none => simp
    | some ps => simp; tauto

/-- Well-formed terms are those that have pieces and are read from them as they are. -/
theorem termsWellFormedWith_iff_reread (terms : List Term) :
    termsWellFormedWith Reference.WellFormed terms ↔
      termsWellFormedWith Closed terms ∧ (∃ ps, termsPieces? terms = some ps) ∧
        termsReread terms = terms := by
  cases terms with
  | nil => simp [termsWellFormedWith, termsPieces?, termsReread]
  | cons t terms =>
    rw [termsWellFormedWith, termsWellFormedWith, Term.wellFormed_iff t,
      termsWellFormedWith_iff_reread terms, termsPieces?, termsReread]
    cases t.pieces? with
    | none => simp
    | some ps =>
      cases termsPieces? terms with
      | none => simp
      | some qs => simp; tauto

end

mutual

theorem Term.wellFormedWith_iff_forall_reference {p q : Reference → Prop} {t : Term}
    (h : t.WellFormedWith p) :
    t.WellFormedWith q ↔ ∀ i ∈ t.items, ∀ r, i.count = .reference r → q r := by
  have hcount : ∀ {c : Count}, c.WellFormedWith p →
      (c.WellFormedWith q ↔ ∀ r, c = .reference r → q r) := by
    intro c hc
    cases c with
    | literal n => exact iff_of_true hc fun r hr => nomatch hr
    | reference r => simp [Count.WellFormedWith]
  cases t with
  | dice count d =>
    rw [Term.WellFormedWith] at h
    rw [Term.WellFormedWith, Term.items, List.forall_mem_singleton]
    exact hcount h
  | symbols count f =>
    rw [Term.WellFormedWith] at h
    rw [Term.WellFormedWith, Term.items, List.forall_mem_singleton]
    exact (and_iff_left h.2).trans (hcount h.1)
  | group name terms =>
    rw [Term.WellFormedWith] at h
    rw [Term.WellFormedWith, Term.items]
    exact (and_iff_right h.1).trans (termsWellFormedWith_iff_forall_reference h.2)

/-- Terms that can be written differ in their references alone. -/
theorem termsWellFormedWith_iff_forall_reference {p q : Reference → Prop} {terms : List Term}
    (h : termsWellFormedWith p terms) :
    termsWellFormedWith q terms ↔ ∀ i ∈ termsItems terms, ∀ r, i.count = .reference r → q r := by
  cases terms with
  | nil => simp [termsWellFormedWith, termsItems]
  | cons t terms =>
    rw [termsWellFormedWith] at h
    rw [termsWellFormedWith, termsItems, List.forall_mem_append,
      Term.wellFormedWith_iff_forall_reference h.1, termsWellFormedWith_iff_forall_reference h.2]

end

end Tabletop.Narrative
