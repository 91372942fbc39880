import Tabletop.Proofs.Narrative.Layout

/-!
# Splitting narrative texts

Nothing of a text is lost when it is split into tokens, and each run of letters is read letter by
letter unless it is the name of a group.

* `Reads.accounts`: every character that is read separates, belongs to a token, or is the colon of a
  name.
* `ColonBehind text t p`: the first thing behind the token that is no separator is a colon.
* `Reads.letter`: what a letter of a run belongs to.
* `Spaced ts p cs ds`: the text `ds` is the text `cs` with more separators between the tokens.
* `Reads.spaced`: these do not change what is read.
* `tokenize_splits_or_stops`: every text is split into its tokens, or up to an error.
-/

namespace Tabletop.Narrative

variable {named : Bool} {k : Kind} {p q : Nat} {c : Char}
  {w gap cs ds before after rest : List Char} {t : Token} {ts us : List Token} {text : String}

/-! ## What becomes of each character -/

/-- The character behind `before`, which is at the offset `p`, separates, belongs to one of the
tokens, or is the colon of a name: of one of the tokens, or of the one in front of the text. -/
inductive Accounts (named : Bool) (p : Nat) (ts : List Token) (before : List Char) (c : Char) :
    Prop where
  | separator (hc : isSeparator c = true)
  | token (t : Token) (ht : t ∈ ts) (hposition : t.position ≤ p + bytes before)
      (hstop : p + bytes before < t.stop)
  | front (hnamed : named = true) (hc : c = ':') (hgap : ∀ x ∈ before, isSeparator x = true)
  | colon (t : Token) (ht : t ∈ ts) (hk : t.kind = .groupName) (hc : c = ':')
      (name gap : List Char) (hbefore : before = name ++ gap) (hstop : t.stop = p + bytes name)
      (hgap : ∀ x ∈ gap, isSeparator x = true)

/-- What becomes of a character is the same in a longer text, if the colon of a name in front of the
shorter one is accounted for. -/
theorem Accounts.prepend {named' : Bool} (h : Accounts named (p + bytes w) ts before c)
    (hts : ts ⊆ us) (hfront : named = true → c = ':' → (∀ x ∈ before, isSeparator x = true) →
      Accounts named' p us (w ++ before) c) : Accounts named' p us (w ++ before) c := by
  have hbytes : p + bytes (w ++ before) = p + bytes w + bytes before := by
    rw [bytes_append, Nat.add_assoc]
  cases h with
  | separator hc => exact .separator hc
  | token t ht hposition hstop => exact .token t (hts ht) (hbytes ▸ hposition) (hbytes ▸ hstop)
  | front hnamed hc hgap => exact hfront hnamed hc hgap
  | colon t ht hk hc name gap hbefore hstop hgap =>
    refine .colon t (hts ht) hk hc (w ++ name) gap ?_ ?_ hgap
    · rw [hbefore, List.append_assoc]
    · rw [hstop, bytes_append, Nat.add_assoc]

namespace Reads

/-- Every character that is read is accounted for. -/
theorem accounts (h : Reads named p cs ts q rest) (hcs : cs = before ++ c :: after)
    (hq : p + bytes before < q) : Accounts named p ts before c := by
  induction h generalizing before with
  | done => omega
  | @separator named p q x cs rest ts hx _ ih =>
    cases before with
    | nil =>
      cases hcs
      exact .separator hx
    | cons y before =>
      cases hcs
      rw [bytes_cons, ← Nat.add_assoc] at hq
      have hrest : Accounts named (p + bytes [x]) ts before c := by
        rw [bytes_cons]
        exact ih rfl hq
      exact hrest.prepend (List.Subset.refl _) fun hnamed hc hgap =>
        .front hnamed hc (List.forall_mem_cons.mpr ⟨hx, hgap⟩)
  | @colon p q cs rest ts _ ih =>
    cases before with
    | nil =>
      cases hcs
      exact .front rfl rfl (by simp)
    | cons y before =>
      cases hcs
      rw [bytes_cons, ← Nat.add_assoc] at hq
      have hrest : Accounts false (p + bytes [':']) ts before c := ih rfl hq
      exact hrest.prepend (List.Subset.refl _) nofun
  | @token k p q w cs rest ts hs _ h ih =>
    rcases List.append_eq_append_cons hcs with ⟨us, rfl, hus⟩ | ⟨us, rfl, -⟩
    · rw [bytes_append, ← Nat.add_assoc] at hq
      refine (ih hus hq).prepend (List.subset_cons_self ..) fun hnamed hc hgap => ?_
      exact .colon _ List.mem_cons_self (beq_iff_eq.mp hnamed) hc w us rfl rfl hgap
    · -- The character is one of the token at hand.
      have hc := c.utf8Size_pos
      refine .token _ List.mem_cons_self (Nat.le_add_right ..) ?_
      change p + bytes before < p + bytes (before ++ c :: us)
      rw [bytes_append, bytes_cons]
      omega

/-- Every character of a text that is read to its end is accounted for. -/
theorem accounts_all (h : Reads false 0 cs ts q []) (hcs : cs = before ++ c :: after) :
    Accounts false 0 ts before c := by
  obtain ⟨all, hall, hq⟩ := h.placed.exists_append
  refine h.accounts hcs ?_
  have hc := c.utf8Size_pos
  rw [hq, ← List.append_nil all, ← hall, hcs, bytes_append, bytes_cons]
  omega

theorem spells (h : Reads named p cs ts q rest) (ht : t ∈ ts) :
    t.kind.Spells t.text.toList := by
  obtain ⟨us, vs, rfl⟩ := List.append_of_mem ht
  obtain ⟨-, -, hs, -⟩ := h.split
  exact hs

/-- A token of a text that is read to its end cuts it in three, and ends there. -/
theorem cut (h : Reads false 0 cs ts q []) (ht : t ∈ ts) : ∃ front behind,
    cs = front ++ (t.text.toList ++ behind) ∧ bytes front = t.position ∧ t.kind.EndsAt behind ∧
      (t.kind = .groupName → LeadsToColon behind) := by
  obtain ⟨us, vs, rfl⟩ := List.append_of_mem ht
  obtain ⟨behind, hfront, -, he, hbehind⟩ := h.split
  obtain ⟨front, hcs, hposition⟩ := hfront.placed.exists_append
  refine ⟨front, behind, hcs, (hposition.trans (Nat.zero_add _)).symm, he, fun hk => ?_⟩
  obtain ⟨gap, after, rfl, hgap, -⟩ := hbehind.exists_colon (beq_iff_eq.mpr hk)
  exact ⟨gap, after, rfl, hgap⟩

end Reads

/-! ## Colons of names -/

/-- The first thing behind the token that is no separator is a colon, at the offset `p`. -/
def ColonBehind (text : String) (t : Token) (p : Nat) : Prop :=
  ∃ gap : String, (∀ c ∈ gap.toList, isSeparator c = true) ∧
    StandsAt text t.stop (gap ++ ":") ∧ p = t.stop + gap.utf8ByteSize

theorem colonBehind_iff : ColonBehind text t p ↔ ∃ before gap after,
    text.toList = before ++ (gap ++ ':' :: after) ∧ bytes before = t.stop ∧
      (∀ c ∈ gap, isSeparator c = true) ∧ p = t.stop + bytes gap := by
  constructor
  · rintro ⟨gap, hgap, hstands, rfl⟩
    obtain ⟨before, after, htext, hbefore⟩ := standsAt_iff.mp hstands
    exact ⟨before, gap.toList, after, by simpa using htext, hbefore, hgap, by rw [bytes_toList]⟩
  · rintro ⟨before, gap, after, htext, hbefore, hgap, rfl⟩
    refine ⟨String.ofList gap, by simpa using hgap, standsAt_iff.mpr ?_, rfl⟩
    exact ⟨before, after, by simpa using htext, hbefore⟩

/-- There is only one such colon. -/
theorem ColonBehind.unique {p' : Nat} (h : ColonBehind text t p) (h' : ColonBehind text t p') :
    p' = p := by
  obtain ⟨before, gap, after, htext, hbefore, hgap, rfl⟩ := colonBehind_iff.mp h
  obtain ⟨before', gap', after', htext', hbefore', hgap', rfl⟩ := colonBehind_iff.mp h'
  obtain ⟨-, hrest⟩ := append_inj_of_bytes (htext.symm.trans htext')
    (hbefore.trans hbefore'.symm)
  have htake : ∀ {gap : List Char} (after : List Char), (∀ c ∈ gap, isSeparator c = true) →
      (gap ++ ':' :: after).takeWhile isSeparator = gap := fun after hgap => by
    rw [List.takeWhile_append_of_pos hgap, List.takeWhile_cons_of_neg (by decide),
      List.append_nil]
  rw [← htake after hgap, ← htake after' hgap', hrest]

/-- The colon of a name stands in front of the tokens behind the name. -/
theorem Reads.exists_colonBehind {vs : List Token}
    (h : Reads false 0 text.toList (us ++ t :: vs) q []) (hk : t.kind = .groupName) :
    ∃ p, ColonBehind text t p ∧ ∀ v ∈ vs, p < v.position := by
  obtain ⟨behind, hfront, -, -, hbehind⟩ := h.split
  obtain ⟨front, htext, hposition⟩ := hfront.placed.exists_append
  obtain ⟨gap, after, rfl, hgap, hafter⟩ := hbehind.exists_colon (beq_iff_eq.mpr hk)
  refine ⟨t.stop + bytes gap, colonBehind_iff.mpr ?_, hafter.placed.ordered.2⟩
  refine ⟨front ++ t.text.toList, gap, after, by simpa using htext, ?_, hgap, rfl⟩
  rw [bytes_append, bytes_toList, Lexeme.stop, hposition, Nat.zero_add]

/-- A character that no token covers is a separator or the colon of a name. -/
theorem Reads.uncovered (h : Reads false 0 text.toList ts q [])
    (hp : StandsAt text p (String.singleton c)) (hout : ∀ t ∈ ts, p < t.position ∨ t.stop ≤ p) :
    isSeparator c = true ∨ c = ':' ∧ ∃ t ∈ ts, t.kind = .groupName ∧ ColonBehind text t p := by
  obtain ⟨before, after, htext, rfl⟩ := standsAt_iff.mp hp
  rw [String.toList_singleton, List.singleton_append] at htext
  cases h.accounts_all htext with
  | separator hc => exact .inl hc
  | token t ht hposition hstop =>
    have := hout t ht
    omega
  | front hnamed => cases hnamed
  | colon t ht hk hc name gap hbefore hstop hgap =>
    rw [Nat.zero_add] at hstop
    refine .inr ⟨hc, t, ht, hk, colonBehind_iff.mpr ⟨name, gap, after, ?_, hstop.symm, hgap, ?_⟩⟩
    · rw [htext, hbefore, hc, List.append_assoc]
    · rw [hbefore, bytes_append, hstop]

/-! ## Runs of letters -/

/-- Between `before` and `after`, the text has the run of letters `w`, which is not longer on either
side and not in a reference. -/
structure Run (text : String) (ts : List Token) (before w after : List Char) : Prop where
  text_eq : text.toList = before ++ (w ++ after)
  word : IsWord w
  starts : ∀ c ∈ before.getLast?, isWordChar c = false
  stops : ∀ c ∈ after.head?, isWordChar c = false
  outside : ∀ t ∈ ts, t.kind = .reference →
    t.stop ≤ bytes before ∨ bytes (before ++ w) ≤ t.position

/-- A text goes through a run of letters and on in one way. -/
theorem run_inj {v y behind : List Char} (hv : ∀ c ∈ v, isWordChar c = true)
    (hy : ∀ c ∈ y, isWordChar c = true) (hafter : Stops .word after) (hbehind : Stops .word behind)
    (h : v ++ after = y ++ behind) : v = y ∧ after = behind := by
  have hrest : after = behind := by
    rw [← dropWhile_run hv hafter, h, dropWhile_run hy hbehind]
  rw [hrest] at h
  exact ⟨List.append_cancel_right h, hrest⟩

/-- The token that a character belongs to goes around it. -/
theorem exists_around {front behind cs v : List Char}
    (h : front ++ (w ++ behind) = cs ++ c :: v) (hle : bytes front ≤ bytes cs)
    (hlt : bytes cs < bytes front + bytes w) :
    ∃ x y, w = x ++ c :: y ∧ cs = front ++ x ∧ v = y ++ behind := by
  have hc := c.utf8Size_pos
  rw [← List.append_assoc] at h
  rcases List.append_eq_append_cons h with ⟨us, rfl, -⟩ | ⟨y, hw, rfl⟩
  · simp only [bytes_append] at hlt
    omega
  · rcases List.append_eq_append_cons hw with ⟨x, rfl, hx⟩ | ⟨us, rfl, -⟩
    · exact ⟨x, y, hx, rfl, rfl⟩
    · simp only [bytes_append, bytes_cons] at hle
      omega

/-- A token with a letter in it is a reference or a name, or it is the letter. -/
theorem Kind.Spells.letter {x y : List Char} (h : k.Spells (x ++ c :: y))
    (hc : isWordChar c = true) :
    k = .reference ∨ k = .groupName ∨ Kind.ofLetter? c = some k ∧ x = [] ∧ y = [] := by
  have hmem : c ∈ x ++ c :: y := by simp
  rcases h.forms with ⟨l, hl, hw⟩ | ⟨hname, -⟩ | ⟨piece, hk, hw⟩
  · obtain ⟨rfl, rfl, rfl⟩ : x = [] ∧ c = l ∧ y = [] := by
      simpa [List.append_eq_singleton_iff] using hw
    exact .inr (.inr ⟨hl, rfl, rfl⟩)
  · exact .inr (.inl hname)
  · cases piece with
    | word | colon => cases hk
    | reference =>
      cases hk
      exact .inl rfl
    | int =>
      have hd := hw.2 c hmem
      rw [not_isDigit_of_isWordChar hc] at hd
      cases hd
    | leftParen | rightParen =>
      have hw : x ++ c :: y = _ := hw
      rw [hw, List.mem_singleton] at hmem
      rw [hmem] at hc
      cases hc

/-- A letter belongs to a token, which goes around it. -/
theorem Reads.exists_token (h : Reads false 0 cs ts q []) (hcs : cs = before ++ c :: after)
    (hc : isWordChar c = true) : ∃ t ∈ ts, ∃ front x y behind, t.text.toList = x ++ c :: y ∧
      bytes front = t.position ∧ before = front ++ x ∧ after = y ++ behind ∧
        t.kind.EndsAt behind ∧ (t.kind = .groupName → LeadsToColon behind) := by
  cases h.accounts_all hcs with
  | separator hsep => exact absurd hc (Bool.eq_false_iff.mp (goesOn_separator .word hsep))
  | front _ hcolon | colon _ _ _ hcolon =>
    rw [hcolon] at hc
    cases hc
  | token t ht hle hlt =>
    obtain ⟨front, behind, hcut, hposition, hends⟩ := h.cut ht
    rw [Nat.zero_add] at hle hlt
    rw [Lexeme.stop, ← bytes_toList, ← hposition] at hlt
    obtain ⟨x, y, hw, hbefore, hafter⟩ :=
      exists_around (hcut.symm.trans hcs) (hposition ▸ hle) hlt
    exact ⟨t, ht, front, x, y, behind, hw, hposition, hbefore, hafter, hends⟩

/-- What a letter of a run belongs to: it is a die or a symbol by itself, or it is part of a name
that leads to a colon. -/
theorem Reads.letter {u v : List Char} (h : Reads false 0 text.toList ts q [])
    (hrun : Run text ts before (u ++ c :: v) after) :
    (¬LeadsToColon after ∧
      ∃ k, Kind.ofLetter? c = some k ∧ ⟨k, String.singleton c, bytes (before ++ u)⟩ ∈ ts) ∨
    ∃ front x y behind, before ++ u = front ++ x ∧ v ++ after = y ++ behind ∧
      IsWord (x ++ c :: y) ∧ LeadsToColon behind ∧
        ⟨.groupName, String.ofList (x ++ c :: y), bytes front⟩ ∈ ts := by
  have hword : isWordChar c = true := hrun.word.2 c (by simp)
  have htext : text.toList = (before ++ u) ++ c :: (v ++ after) := by
    rw [hrun.text_eq]
    simp
  obtain ⟨t, ht, front, x, y, behind, hw, hposition, hbefore, hafter, he, hcolon⟩ :=
    h.exists_token htext hword
  have hspells := h.spells ht
  rw [hw] at hspells
  have htoken : t = ⟨t.kind, String.ofList (x ++ c :: y), bytes front⟩ := by
    rw [← hw, String.ofList_toList, hposition]
  rcases hspells.letter hword with hk | hk | ⟨hk, rfl, rfl⟩
  · -- A reference does not reach into the run.
    have hc := c.utf8Size_pos
    have hout := hrun.outside t ht hk
    have hbytes := congrArg bytes hbefore
    rw [Lexeme.stop, ← bytes_toList, hw, ← hposition] at hout
    simp only [bytes_append, bytes_cons] at hout hbytes
    omega
  · rw [hk] at htoken hspells
    exact .inr ⟨front, x, y, behind, hbefore, hafter, hspells, hcolon hk, htoken ▸ ht⟩
  · rw [List.append_nil] at hbefore
    rw [List.nil_append] at hafter
    refine .inl ⟨?_, t.kind, hk, hbefore ▸ htoken ▸ ht⟩
    have hv : ∀ c ∈ v, isWordChar c = true := fun l hl => hrun.word.2 l (by simp [hl])
    rwa [endsAt_of_ofLetter? hk, ← hafter, dropWhile_run hv hrun.stops] at he

/-- A run of letters that leads to a colon is a name. -/
theorem Reads.name (h : Reads false 0 text.toList ts q []) (hrun : Run text ts before w after)
    (hcolon : LeadsToColon after) : ⟨.groupName, String.ofList w, bytes before⟩ ∈ ts := by
  obtain ⟨c, v, rfl⟩ := List.exists_cons_of_ne_nil hrun.word.1
  have hv := (List.forall_mem_cons.mp hrun.word.2).2
  rcases h.letter (u := []) hrun with ⟨hnone, -⟩ |
    ⟨front, x, y, behind, hbefore, hafter, hword, hbehind, ht⟩
  · exact absurd hcolon hnone
  · rw [List.append_nil] at hbefore
    -- The name does not start before the run does.
    have hx : x = [] := by
      refine Classical.byContradiction fun hne => ?_
      have hlast := hrun.starts (x.getLast hne) (by
        rw [hbefore, List.getLast?_append, List.getLast?_eq_some_getLast hne]
        rfl)
      rw [hword.2 _ (List.mem_append_left _ (List.getLast_mem hne))] at hlast
      cases hlast
    subst hx
    have hy := (List.forall_mem_cons.mp hword.2).2
    obtain ⟨rfl, -⟩ := run_inj hv hy hrun.stops hbehind.stops hafter
    rwa [hbefore, List.append_nil]

/-- Any other run of letters is a die or a symbol for each letter. -/
theorem Reads.letters {u v : List Char} (h : Reads false 0 text.toList ts q [])
    (hrun : Run text ts before (u ++ c :: v) after) (hcolon : ¬LeadsToColon after) :
    ∃ k, Kind.ofLetter? c = some k ∧ ⟨k, String.singleton c, bytes (before ++ u)⟩ ∈ ts := by
  rcases h.letter hrun with ⟨-, hk⟩ | ⟨front, x, y, behind, -, hafter, hword, hbehind, -⟩
  · exact hk
  · have hv : ∀ c ∈ v, isWordChar c = true := fun l hl => hrun.word.2 l (by simp [hl])
    have hy : ∀ c ∈ y, isWordChar c = true := fun l hl => hword.2 l (by simp [hl])
    obtain ⟨-, rfl⟩ := run_inj hv hy hrun.stops hbehind.stops hafter
    exact absurd hbehind hcolon

/-! ## More separators -/

/-- The text `ds` is the text `cs`, which starts at the offset `p`, with separators inserted at
offsets that are inside none of the tokens. -/
inductive Spaced (ts : List Token) : Nat → List Char → List Char → Prop where
  | nil {p : Nat} : Spaced ts p [] []
  | char {p : Nat} {c : Char} {cs ds : List Char} (h : Spaced ts (p + c.utf8Size) cs ds) :
      Spaced ts p (c :: cs) (c :: ds)
  | insert {p : Nat} {c : Char} {cs ds : List Char} (hc : isSeparator c = true)
      (hp : ∀ t ∈ ts, p ≤ t.position ∨ t.stop ≤ p) (h : Spaced ts p cs ds) :
      Spaced ts p cs (c :: ds)

namespace Spaced

/-- Behind the text, only separators are inserted. -/
theorem separators (h : Spaced ts p [] ds) : ∀ c ∈ ds, isSeparator c = true := by
  generalize hcs : [] = cs at h
  induction h with
  | nil => simp
  | char => cases hcs
  | insert hc _ _ ih => exact List.forall_mem_cons.mpr ⟨hc, ih hcs⟩

/-- In front of a character, only separators are inserted. -/
theorem exists_gap (h : Spaced ts p (c :: cs) ds) : ∃ gap ds', ds = gap ++ c :: ds' ∧
    (∀ x ∈ gap, isSeparator x = true) ∧ Spaced ts (p + c.utf8Size) cs ds' := by
  generalize hall : c :: cs = all at h
  induction h with
  | nil => cases hall
  | @char p c cs ds h =>
    cases hall
    exact ⟨[], ds, rfl, by simp, h⟩
  | @insert p x cs ds hx _ _ ih =>
    obtain ⟨gap, ds', rfl, hgap, h⟩ := ih hall
    exact ⟨x :: gap, ds', rfl, List.forall_mem_cons.mpr ⟨hx, hgap⟩, h⟩

/-- Inside a token, nothing is inserted. -/
theorem inside (h : Spaced ts p (w ++ cs) ds) (ht : t ∈ ts) (hp : t.position < p)
    (hstop : p + bytes w = t.stop) : ∃ ds', ds = w ++ ds' ∧ Spaced ts t.stop cs ds' := by
  induction w generalizing p ds with
  | nil => exact ⟨ds, rfl, hstop ▸ h⟩
  | cons c w ih =>
    have hc := c.utf8Size_pos
    rw [bytes_cons] at hstop
    cases h with
    | char h =>
      obtain ⟨ds', rfl, hcs⟩ := ih h (by omega) (by omega)
      exact ⟨ds', rfl, hcs⟩
    | insert _ hout =>
      have := hout t ht
      omega

/-- In front of a token, only separators are inserted, and nothing is in it. -/
theorem token (h : Spaced ts t.position (t.text.toList ++ cs) ds) (ht : t ∈ ts)
    (hne : t.text.toList ≠ []) : ∃ gap ds', ds = gap ++ (t.text.toList ++ ds') ∧
      (∀ x ∈ gap, isSeparator x = true) ∧ Spaced ts t.stop cs ds' := by
  obtain ⟨c, w, hw⟩ := List.exists_cons_of_ne_nil hne
  have hc := c.utf8Size_pos
  rw [hw] at h ⊢
  obtain ⟨gap, ds, rfl, hgap, hinside⟩ := h.exists_gap
  obtain ⟨ds, rfl, hcs⟩ := hinside.inside ht (by omega) (by
    rw [Lexeme.stop, ← bytes_toList, hw, bytes_cons, Nat.add_assoc])
  exact ⟨gap, ds, rfl, hgap, hcs⟩

/-- A spaced text starts with a separator, or as it did. -/
theorem head (h : Spaced ts p cs ds) : ∀ c ∈ ds.head?, isSeparator c = true ∨ c ∈ cs.head? := by
  cases h with
  | nil => simp
  | char h => exact fun x hx => .inr hx
  | insert hc _ h =>
    intro x hx
    cases hx
    exact .inl hc

/-- A spaced text leads to a colon only if it did. -/
theorem leadsToColon (h : Spaced ts p cs ds) (hcolon : LeadsToColon ds) : LeadsToColon cs := by
  induction h with
  | nil => exact hcolon
  | @char p c cs ds h ih =>
    by_cases hc : isSeparator c = true
    · rw [leadsToColon_separator hc] at hcolon ⊢
      exact ih hcolon
    · rw [Bool.not_eq_true] at hc
      rw [leadsToColon_cons hc] at hcolon ⊢
      exact hcolon
  | insert hc _ h ih => exact ih ((leadsToColon_separator hc).mp hcolon)

/-- A run of letters in a spaced text leads to a colon only if the run that it is part of did. -/
theorem leadsToColon_dropWhile (h : Spaced ts p cs ds)
    (hcolon : LeadsToColon (ds.dropWhile isWordChar)) :
    LeadsToColon (cs.dropWhile isWordChar) := by
  induction h with
  | nil => exact hcolon
  | @char p c cs ds h ih =>
    by_cases hc : isWordChar c = true
    · rw [List.dropWhile_cons_of_pos hc] at hcolon ⊢
      exact ih hcolon
    · rw [List.dropWhile_cons_of_neg hc] at hcolon ⊢
      exact (Spaced.char h).leadsToColon hcolon
  | @insert p c cs ds hc _ h ih =>
    have hword : isWordChar c = false := goesOn_separator .word hc
    rw [List.dropWhile_cons_of_neg (by simp [hword]), leadsToColon_separator hc] at hcolon
    exact (h.leadsToColon hcolon).dropWhile

/-- A token that ends where the text goes on ends where the spaced text does. -/
theorem endsAt (h : Spaced ts p cs ds) (he : k.EndsAt cs) : k.EndsAt ds := by
  cases k with
  | int =>
    intro c hc
    rcases h.head c hc with hsep | hmem
    · exact goesOn_separator .int hsep
    · exact he c hmem
  | die d => exact fun hcolon => he (h.leadsToColon_dropWhile hcolon)
  | symbol f => exact fun hcolon => he (h.leadsToColon_dropWhile hcolon)
  | reference | groupName | leftParen | rightParen => trivial

end Spaced

/-- More separators between the tokens do not change what is read. -/
theorem Reads.spaced (h : Reads named p cs ts q rest) (hrest : rest = []) (hts : ts ⊆ us)
    (hs : Spaced us p cs ds) (p' : Nat) : ∃ vs q', Reads named p' ds vs q' [] ∧
      vs.map Lexeme.word = ts.map Lexeme.word := by
  induction h generalizing ds p' with
  | done =>
    subst hrest
    have hread : Reads false p' (ds ++ []) [] (p' + bytes ds) [] := .skip hs.separators .done
    rw [List.append_nil] at hread
    exact ⟨[], _, hread, rfl⟩
  | separator hc _ ih =>
    obtain ⟨gap, ds, rfl, hgap, hs⟩ := hs.exists_gap
    obtain ⟨vs, q', hread, hwords⟩ := ih hrest hts hs _
    exact ⟨vs, q', .skip hgap (.separator hc hread), hwords⟩
  | colon _ ih =>
    obtain ⟨gap, ds, rfl, hgap, hs⟩ := hs.exists_gap
    obtain ⟨vs, q', hread, hwords⟩ := ih hrest hts hs _
    exact ⟨vs, q', .skip hgap (.colon hread), hwords⟩
  | @token k p q w cs rest ts hw he _ ih =>
    obtain ⟨ht, hts⟩ := List.cons_subset.mp hts
    obtain ⟨gap, ds, hds, hgap, hs⟩ := @Spaced.token cs ds ⟨k, String.ofList w, p⟩ us
      (by rwa [String.toList_ofList]) ht (by rw [String.toList_ofList]; exact hw.ne_nil)
    rw [String.toList_ofList] at hds
    obtain ⟨vs, q', hread, hwords⟩ := ih hrest hts hs (p' + bytes gap + bytes w)
    refine ⟨⟨k, String.ofList w, p' + bytes gap⟩ :: vs, q', ?_, ?_⟩
    · rw [hds]
      exact .skip hgap (.token hw (hs.endsAt he) hread)
    · rw [List.map_cons, List.map_cons, hwords]
      rfl

/-! ## The tokens of a text -/

/-- The tokens are the text, but for separators and the colons of names. -/
structure Splits (text : String) (ts : List Token) : Prop where
  /-- The text of a token is what stands at its position. -/
  stands : ∀ t ∈ ts, StandsAt text t.position t.text
  /-- The tokens stand one behind the other. -/
  ordered : ts.Pairwise fun t u => t.stop ≤ u.position
  spelled : ∀ t ∈ ts, t.kind.Spells t.text.toList
  /-- Every name has one colon, the first thing behind it that is no separator, and the colon
  stands in front of the tokens behind the name. -/
  colon : ∀ us t vs, ts = us ++ t :: vs → t.kind = .groupName →
    ∃ p, ColonBehind text t p ∧ (∀ p', ColonBehind text t p' → p' = p) ∧ ∀ v ∈ vs, p < v.position
  /-- A character that no token covers is a separator or the colon of a name. -/
  uncovered : ∀ p c, StandsAt text p (String.singleton c) →
    (∀ t ∈ ts, p < t.position ∨ t.stop ≤ p) →
      isSeparator c = true ∨ c = ':' ∧ ∃ t ∈ ts, t.kind = .groupName ∧ ColonBehind text t p
  /-- A run of letters that leads to a colon is a name. -/
  name : ∀ before w after, Run text ts before w after → LeadsToColon after →
    ⟨.groupName, String.ofList w, bytes before⟩ ∈ ts
  /-- Any other run of letters is a die or a symbol for each letter. -/
  letters : ∀ before u c v after, Run text ts before (u ++ c :: v) after → ¬LeadsToColon after →
    ∃ k, Kind.ofLetter? c = some k ∧ ⟨k, String.singleton c, bytes (before ++ u)⟩ ∈ ts
  /-- More separators between the tokens do not change their kinds and texts. -/
  spaced : ∀ text', Spaced ts 0 text.toList text'.toList →
    ∃ us, tokenize text' = .ok us ∧ us.map Lexeme.word = ts.map Lexeme.word

/-- At the error stands its character, and the text before it is split into tokens. -/
def StopsAt (text : String) (e : LexError) : Prop :=
  ∃ before after us, text = before ++ String.singleton e.char ++ after ∧
    before.utf8ByteSize = e.position ∧ tokenize before = .ok us

theorem splits_of_tokenize (h : tokenize text = .ok ts) : Splits text ts := by
  obtain ⟨q, hread⟩ := tokenize_eq_ok_iff.mp h
  refine ⟨fun t ht => ?_, hread.placed.ordered.1, fun t => hread.spells, ?_,
    fun p c => hread.uncovered, fun _ _ _ => hread.name, fun _ _ _ _ _ => hread.letters,
    fun text' hs => ?_⟩
  · obtain ⟨front, behind, hcut, hposition, -⟩ := hread.cut ht
    exact standsAt_iff.mpr ⟨front, behind, hcut, hposition⟩
  · rintro us t vs rfl hk
    obtain ⟨p, hp, hvs⟩ := hread.exists_colonBehind hk
    exact ⟨p, hp, fun p' => hp.unique, hvs⟩
  · obtain ⟨us, q', hread', hwords⟩ := hread.spaced rfl (List.Subset.refl ts) hs 0
    exact ⟨us, tokenize_eq_ok_iff.mpr ⟨q', hread'⟩, hwords⟩

theorem stopsAt_of_tokenize {e : LexError} (h : tokenize text = .error e) : StopsAt text e := by
  obtain ⟨us, after, hread⟩ := exists_reads_of_tokenize_eq_error h
  obtain ⟨before, htext, hposition⟩ := hread.placed.exists_append
  refine ⟨String.ofList before, String.ofList after, us, ?_, ?_, ?_⟩
  · rw [← String.toList_inj, htext]
    simp
  · exact (hposition.trans (Nat.zero_add _)).symm
  · refine tokenize_eq_ok_iff.mpr ⟨e.position, ?_⟩
    rw [String.toList_ofList]
    exact hread.alone htext

/-- Every text is split into its tokens, or up to an error. -/
theorem tokenize_splits_or_stops (text : String) :
    match tokenize text with
    | .ok ts => Splits text ts
    | .error e => StopsAt text e := by
  cases h : tokenize text with
  | ok ts => exact splits_of_tokenize h
  | error e => exact stopsAt_of_tokenize h

/-- Of two runs of letters, the one that leads to a colon is a name. -/
example : tokenize "gp gp ,:y" = .ok [⟨.die .ability, "g", 0⟩, ⟨.die .difficulty, "p", 1⟩,
    ⟨.groupName, "gp", 3⟩, ⟨.die .proficiency, "y", 8⟩] := by
  cbv

end Tabletop.Narrative
