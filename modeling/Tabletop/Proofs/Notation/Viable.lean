import Tabletop.Proofs.Notation.Splitting

/-!
# Viable prefixes

Reading fails at the first token that cannot be right. Every reader can go on to the end of an
expression (`Reader.exists_completion`), so tokens that are read are the start of an accepted
sequence, and no such sequence goes on with a token at which the reader fails.

* `Viable ts`: some accepted sequence starts with the tokens; `viable_iff_readWords`: a reader goes
  through them.
* `Reader.named`: the kinds that the reader would have gone on with, as its errors name them
  (`Reader.step_error`, `Reader.finish_error`); it goes on with all of them but for a dice marker
  behind another (`Reader.exists_step_of_named`).
-/

namespace Tabletop.Notation

open ParseError (Cause)

/-! ## Every reader can be completed -/

namespace Reader

variable {r r' : Reader} {k : Kind} {t : String} {cause : Cause}

/-- What is written in a slot is an operand there. -/
theorem exists_operand?_fill (s : Slot) (e : Expr) : ∃ x, (s.fill e).operand? = some x := by
  cases s <;> exact ⟨_, rfl⟩

/-- An integer is a threshold. -/
theorem exists_step_threshold {d : DiceTerm} {m : Option Redraw} {c : Relation}
    (hf : r.focus = .threshold d m c) :
    ∃ d', r.step .int "1" = .ok { r with focus := .dice d' } := by
  simp only [step, hf]
  exact ⟨_, rfl⟩

/-- From every reader an operand that may end is reached, with an integer where one is missing. -/
theorem exists_operand (r : Reader) : ∃ ws f e,
    readWords step r ws = .ok { r with focus := f } ∧ f.operand? = some e := by
  cases hf : r.focus with
  | slot s =>
    obtain ⟨x, hx⟩ := exists_operand?_fill s (.literal 1)
    have hone : Derives .atom [(.int, "1")] (.literal 1) := .literal rfl
    exact ⟨_, _, x, hone.reads r s hf, hx⟩
  | atom e => exact ⟨[], .atom e, e, by rw [← hf]; rfl, rfl⟩
  | dice d => exact ⟨[], .dice d, d.expr, by rw [← hf]; rfl, rfl⟩
  | select d s => exact ⟨[], .select d s, _, by rw [← hf]; rfl, rfl⟩
  | redraw d m => exact ⟨[], .redraw d m, _, by rw [← hf]; rfl, rfl⟩
  | threshold d m c =>
    obtain ⟨d', hstep⟩ := exists_step_threshold hf
    exact ⟨[(.int, "1")], .dice d', d'.expr, by rw [readWords_singleton, hstep], rfl⟩

/-- Behind an operand an open parenthesis is closed. -/
theorem step_rightParen {e : Expr} {p : Pending} {s : Slot} {outer : List (Pending × Slot)}
    (he : r.focus.operand? = some e) (hout : r.outer = (p, s) :: outer) :
    r.step .rightParen t = .ok ⟨outer, p, s.fill (.group (r.pending.total e))⟩ := by
  rw [step_of_operand he (.inr rfl)]
  simp only [stepOperand, hout]

/-- Every reader can go on to the end of an expression. -/
theorem exists_completion (r : Reader) :
    ∃ ws r' e, readWords step r ws = .ok r' ∧ r'.finish = .ok e := by
  -- By induction on the open parentheses: the operand at hand is closed, and fills the slot around
  -- it.
  obtain ⟨outer, pending, focus⟩ := r
  induction outer generalizing pending focus with
  | nil =>
    obtain ⟨ws, f, e, hrun, hf⟩ := exists_operand ⟨[], pending, focus⟩
    exact ⟨ws, _, pending.total e, hrun, by simp only [finish, hf]⟩
  | cons level outer ih =>
    obtain ⟨p, s⟩ := level
    obtain ⟨ws, f, e, hrun, hf⟩ := exists_operand ⟨(p, s) :: outer, pending, focus⟩
    obtain ⟨us, r', e', hrun', hfinish⟩ := ih p (s.fill (.group (pending.total e)))
    refine ⟨ws ++ (.rightParen, ")") :: us, r', e', ?_, hfinish⟩
    rw [readWords_append_of_ok hrun, readWords_cons, step_rightParen hf rfl, ← hrun']
    rfl

/-! ## What errors name -/

/-- The kinds that the reader's errors name: what fills a slot, a threshold, or what closes a
parenthesis. -/
def named (r : Reader) : List Kind :=
  match r.focus with
  | .slot _ => [.int, .dice, .leftParen, .reference]
  | .threshold .. => [.int]
  | _ => if r.outer.isEmpty then [] else [.rightParen]

/-- The cause is one of a token at hand, and names the kinds of the reader or none. -/
def Faults (r : Reader) (cause : Cause) : Prop :=
  cause = .unexpectedToken (r.named.map Kind.label) ∨ cause = .trailingInput ∨
    cause = .modifierWithoutDice ∨ cause = .integerOutOfRange

/-- A numeral fails by its range alone, which names nothing. -/
theorem numeral_error {α : Type} {read? : String → Option α} {f : α → Reader}
    (h : (numeral read? t >>= fun n => .ok (f n)) = .error cause) : r.Faults cause := by
  rcases Except.bind_eq_error_iff.mp h with h | ⟨n, -, h⟩
  · unfold numeral at h
    split at h <;> cases h
    exact .inr (.inr (.inr rfl))
  · cases h

theorem stepAtom_error {s : Slot} (hf : r.focus = .slot s) (h : r.stepAtom s k t = .error cause) :
    r.Faults cause := by
  unfold stepAtom at h
  split at h
  · exact numeral_error h
  · cases h
  · cases h
  · cases h
    exact .inl (by simp [named, hf, atomLabels])

theorem stepSlot_error {s : Slot} (hf : r.focus = .slot s) (h : r.stepSlot s k t = .error cause) :
    r.Faults cause := by
  unfold stepSlot at h
  split at h
  · split at h
    · cases h
    · cases h
      exact .inl (by simp [named, hf, atomLabels])
  · cases h
  · cases h
  · exact stepAtom_error hf h

/-- Behind an operand nothing but the end of a parenthesis is named. -/
theorem named_of_operand {e : Expr} (h : r.focus.operand? = some e) :
    r.named = if r.outer.isEmpty then [] else [.rightParen] := by
  unfold named
  generalize r.focus = f at h
  cases f <;> first | rfl | cases h

theorem stepOperand_error {e x : Expr} (hf : r.focus.operand? = some x)
    (h : r.stepOperand e k = .error cause) : r.Faults cause := by
  unfold stepOperand at h
  split at h
  · cases h
  · cases h
  · cases h
    exact .inr (.inl rfl)
  · next hout =>
    cases h
    exact .inl (by simp [named_of_operand hf, hout])

theorem stepDice_error {d : DiceTerm} {x : Expr} (hf : r.focus.operand? = some x)
    (h : r.stepDice d k = .error cause) : r.Faults cause := by
  unfold stepDice at h
  split at h
  · cases h
  · cases h
  · cases h
  · exact stepOperand_error hf h

/-- A step fails with what the reader names, or with a cause that names nothing. -/
theorem step_error (h : r.step k t = .error cause) : r.Faults cause := by
  unfold step at h
  split at h
  · next s hf => exact stepSlot_error hf h
  · next e hf =>
    unfold stepCount at h
    split at h
    · cases h
    · split at h
      · cases h
        exact .inr (.inr (.inl rfl))
      · exact stepOperand_error (by rw [hf]; rfl) h
  · next d hf => exact stepDice_error (by rw [hf]; rfl) h
  · next d s hf =>
    split at h
    · exact numeral_error h
    · exact stepDice_error (by rw [hf]; rfl) h
  · next d m hf =>
    split at h
    · exact numeral_error h
    · cases h
    · exact stepDice_error (by rw [hf]; rfl) h
  · next d m c hf =>
    split at h
    · exact numeral_error h
    · cases h
      exact .inl (by simp [named, hf])

/-- The end of the input fails with what the reader names. -/
theorem finish_error (h : r.finish = .error cause) :
    cause = .unexpectedEnd (r.named.map Kind.label) := by
  unfold finish at h
  split at h
  · cases h
  · next hf hout =>
    cases h
    simp [named_of_operand hf, hout]
  · next hf =>
    cases h
    simp [named, hf]
  · next hnone hf =>
    cases h
    cases hfocus : r.focus with
    | slot s => simp [named, hfocus, atomLabels]
    | threshold d m c => exact absurd hfocus (hf d m c)
    | atom | dice | select | redraw =>
      rw [hfocus] at hnone
      cases hnone

/-! ## What is named is read -/

/-- The reader is behind a dice marker. -/
def AtSides (r : Reader) : Prop :=
  ∃ c, r.focus = .slot (.sides c)

/-- In a slot every kind that is named is read, but for a dice marker behind another. -/
theorem exists_step_of_slot {s : Slot} (hf : r.focus = .slot s) (hk : k ∈ r.named)
    (hne : ¬(k = .dice ∧ r.AtSides)) : ∃ t r', r.step k t = .ok r' := by
  simp only [named, hf, List.mem_cons, List.not_mem_nil, or_false] at hk
  simp only [step, hf]
  rcases hk with rfl | rfl | rfl | rfl
  · refine ⟨"1", ?_⟩
    cases s <;> exact ⟨_, rfl⟩
  · cases s with
    | operand => exact ⟨"d", _, rfl⟩
    | sides c => exact absurd ⟨rfl, c, hf⟩ hne
  · refine ⟨"(", ?_⟩
    cases s <;> exact ⟨_, rfl⟩
  · refine ⟨"$\x7bx\x7d", ?_⟩
    cases s <;> exact ⟨_, rfl⟩

/-- The reader goes on with every kind that it names, but for a dice marker behind another. -/
theorem exists_step_of_named (hk : k ∈ r.named) :
    (∃ t r', r.step k t = .ok r') ↔ ¬(k = .dice ∧ r.AtSides) := by
  constructor
  · rintro ⟨t, r', h⟩ ⟨rfl, c, hf⟩
    simp only [step, hf] at h
    cases h
  intro hne
  cases hf : r.focus with
  | slot s => exact exists_step_of_slot hf hk hne
  | threshold d m c =>
    simp only [named, hf, List.mem_singleton] at hk
    subst hk
    exact ⟨"1", _, (exists_step_threshold hf).choose_spec⟩
  | atom | dice | select | redraw =>
    obtain ⟨e, he⟩ : ∃ e, r.focus.operand? = some e := by rw [hf]; exact ⟨_, rfl⟩
    rw [named_of_operand he] at hk
    cases hout : r.outer with
    | nil => simp [hout] at hk
    | cons level outer =>
      rw [hout] at hk
      cases List.mem_singleton.mp hk
      exact ⟨")", _, step_rightParen he hout⟩

/-- The reader is behind a dice marker if that is the last word read. -/
theorem atSides_iff {ws : List Word} (h : readWords step start ws = .ok r) :
    r.AtSides ↔ ∃ w ∈ ws.getLast?, w.1 = .dice := by
  constructor
  · rintro ⟨c, hf⟩
    obtain ⟨us, vs, hws, -, hspans⟩ := readWords_spans start_spans h
    rw [hf] at hspans
    obtain ⟨vs, t, rfl, -⟩ := hspans
    rw [List.nil_append] at hws
    exact ⟨(.dice, t), by simp [hws], rfl⟩
  · rintro ⟨⟨k, t⟩, hlast, rfl⟩
    obtain ⟨us, rfl⟩ := List.getLast?_eq_some_iff.mp hlast
    rw [readWords_append, Except.bind_eq_ok_iff] at h
    obtain ⟨r₁, -, hstep⟩ := h
    rw [readWords_singleton] at hstep
    exact (step_dice hstep).2

end Reader

/-! ## Viable prefixes -/

/-- The sequence of tokens is read as an expression. -/
def Accepted (ts : List Token) : Prop :=
  ∃ e, parseTokens ts = .ok e

/-- Some accepted sequence starts with the tokens. -/
def Viable (ts : List Token) : Prop :=
  ∃ us, Accepted (ts ++ us)

variable {ts : List Token} {e : ParseError}

/-- Tokens start an accepted sequence if they are read. -/
theorem viable_iff_readWords :
    Viable ts ↔ ∃ r, readWords Reader.step .start (ts.map Lexeme.word) = .ok r := by
  constructor
  · rintro ⟨us, e, h⟩
    obtain ⟨r, hr, -⟩ := parseTokens_eq_ok_iff_readWords.mp h
    rw [List.map_append, readWords_append, Except.bind_eq_ok_iff] at hr
    obtain ⟨r', hr', -⟩ := hr
    exact ⟨r', hr'⟩
  · rintro ⟨r, hr⟩
    obtain ⟨ws, r', e, hrun, hfinish⟩ := r.exists_completion
    refine ⟨ws.map fun w => ⟨w.1, w.2, 0⟩, e,
      parseTokens_eq_ok_iff_readWords.mpr ⟨r', ?_, hfinish⟩⟩
    have hwords : (ws.map fun w => (⟨w.1, w.2, 0⟩ : Token)).map Lexeme.word = ws := by
      simp [Lexeme.word, Function.comp_def]
    rw [List.map_append, readWords_append_of_ok hr, hwords, hrun]

/-- One token more starts an accepted sequence if the reader takes a step with it. -/
theorem viable_snoc_iff {r : Reader}
    (hr : readWords Reader.step .start (ts.map Lexeme.word) = .ok r) (t : Token) :
    Viable (ts ++ [t]) ↔ ∃ r', r.step t.kind t.text = .ok r' := by
  rw [viable_iff_readWords, List.map_append, readWords_append_of_ok hr, List.map_singleton,
    readWords_singleton]
  rfl

/-! ## Where reading fails -/

/-- All kinds of token. -/
def Kind.all : List Kind := [
  .int, .dice, .percent, .operator .add, .operator .sub, .operator .mul, .operator .div,
  .leftParen, .rightParen, .select .keepHighest, .select .keepLowest, .select .dropHighest,
  .select .dropLowest, .redraw .reroll, .redraw .rerollOnce, .redraw .explode, .redraw .compound,
  .compare .lt, .compare .le, .compare .gt, .compare .ge, .compare .eq, .reference, .unknown]

theorem Kind.mem_all (k : Kind) : k ∈ Kind.all := by
  cases k with
  | operator op => cases op <;> decide
  | select s => cases s <;> decide
  | redraw r => cases r <;> decide
  | compare r => cases r <;> decide
  | _ => decide

/-- No two kinds have the same name. -/
theorem Kind.label_injective : Function.Injective Kind.label := by
  have hall : ∀ j ∈ Kind.all, ∀ k ∈ Kind.all, j.label = k.label → j = k := by decide +kernel
  exact fun j k => hall j j.mem_all k k.mem_all

/-- The tokens before the index start an accepted sequence, and those up to it start none. -/
structure FirstWrong (ts : List Token) (k : Nat) : Prop where
  viable : Viable (ts.take k)
  stuck : ¬Viable (ts.take (k + 1))

/-- A token that the reader behind those before it does not read is the first wrong one. -/
theorem firstWrong_of_step_error {before after : List Token} {l : Token} {r : Reader}
    {cause : Cause} (hr : readWords Reader.step .start (before.map Lexeme.word) = .ok r)
    (h : r.step l.kind l.text = .error cause) :
    FirstWrong (before ++ l :: after) before.length := by
  refine ⟨by rw [List.take_left]; exact viable_iff_readWords.mpr ⟨r, hr⟩, ?_⟩
  rw [List.take_length_add_append, List.take_succ_cons, List.take_zero, viable_snoc_iff hr, h]
  rintro ⟨r', hr'⟩
  cases hr'

/-- Tokens of the same kinds and texts are accepted alike. -/
theorem accepted_congr {us vs : List Token} (h : us.map Lexeme.word = vs.map Lexeme.word) :
    Accepted us ↔ Accepted vs := by
  unfold Accepted
  simp only [parseTokens_eq_ok_iff, h]

theorem Reader.Faults.ne_unexpectedEnd {r : Reader} {cause : Cause} (h : r.Faults cause)
    (labels : List String) : cause ≠ .unexpectedEnd labels := by
  rcases h with rfl | rfl | rfl | rfl <;> simp

/-- Of a sequence that is not accepted, the error is at the first token that cannot be right; where
all can be, it is at the end, and more tokens are needed. The tokens alone decide this, not their
positions. What is found stands in the text at the position. -/
theorem parseTokens_error_located (h : parseTokens ts = .error e) :
    (ts = [] → e.cause = .emptyInput) ∧
    (∀ labels, e.cause = .unexpectedEnd labels →
      (∃ us, us ≠ [] ∧ Accepted (ts ++ us)) ∧ e.found = "" ∧
        ∃ last ∈ ts.getLast?, e.position = last.stop) ∧
    (ts ≠ [] → (∀ labels, e.cause ≠ .unexpectedEnd labels) →
      ∃ k t, ts[k]? = some t ∧ e.position = t.position ∧ e.found = t.text ∧ FirstWrong ts k) ∧
    (∀ us vs : List Token, us.map Lexeme.word = vs.map Lexeme.word →
      (Accepted us ↔ Accepted vs)) ∧
    ∀ text, tokenize text = .ok ts → StandsAt text e.position e.found := by
  by_cases hne : ts = []
  · subst hne
    cases h
    refine ⟨fun _ => rfl, by simp, by simp, fun us vs => accepted_congr, fun text _ => ?_⟩
    exact ⟨"", text, by simp, rfl⟩
  rcases exists_of_readAll_eq_error h hne with ⟨before, l, after, r, cause, rfl, hr, hl, rfl⟩ |
    ⟨last, r, cause, hlast, hr, hfinish, rfl⟩
  · have hfaults := Reader.step_error hl
    refine ⟨fun hnil => absurd hnil hne, fun labels hc => absurd hc (hfaults.ne_unexpectedEnd _),
      fun _ _ => ⟨before.length, l, by simp, rfl, rfl, firstWrong_of_step_error hr hl⟩,
      fun us vs => accepted_congr, fun text htext => ?_⟩
    exact standsAt_of_mem_tokenize htext (by simp)
  · have hend := Reader.finish_error hfinish
    refine ⟨fun hnil => absurd hnil hne, fun _ _ => ⟨?_, rfl, last, hlast, rfl⟩,
      fun _ hall => absurd hend (hall _), fun us vs => accepted_congr, fun text htext => ?_⟩
    · obtain ⟨us, hus⟩ : Viable ts := viable_iff_readWords.mpr ⟨r, hr⟩
      refine ⟨us, ?_, hus⟩
      rintro rfl
      obtain ⟨x, hx⟩ := hus
      rw [List.append_nil, h] at hx
      cases hx
    · exact (standsAt_of_mem_tokenize htext (List.mem_of_getLast? hlast)).empty_behind

/-- A second integer in an open parenthesis is the first token that cannot be right. -/
theorem parseTokens_error_located_group :
    ∃ k t, ([⟨.leftParen, "(", 0⟩, ⟨.int, "1", 1⟩, ⟨.int, "2", 3⟩] : List Token)[k]? = some t ∧
      3 = t.position ∧ "2" = t.text ∧
        FirstWrong [⟨.leftParen, "(", 0⟩, ⟨.int, "1", 1⟩, ⟨.int, "2", 3⟩] k :=
  (@parseTokens_error_located [⟨.leftParen, "(", 0⟩, ⟨.int, "1", 1⟩, ⟨.int, "2", 3⟩]
    ⟨.unexpectedToken ["')'"], 3, "2"⟩ (by rfl)).2.2.1 (by simp) (by simp)

/-- What the reader names may come next, but for a dice marker behind another. -/
theorem exists_viable_of_named {r : Reader} {kind : Kind}
    (hr : readWords Reader.step .start (ts.map Lexeme.word) = .ok r) (hk : kind ∈ r.named) :
    (∃ t : Token, t.kind = kind ∧ Viable (ts ++ [t])) ↔
      ¬(kind = .dice ∧ ∃ t ∈ ts.getLast?, t.kind = .dice) := by
  have hsides : r.AtSides ↔ ∃ t ∈ ts.getLast?, t.kind = .dice := by
    rw [Reader.atSides_iff hr, List.getLast?_map]
    cases ts.getLast? <;> simp [Lexeme.word]
  rw [← hsides, ← Reader.exists_step_of_named hk]
  simp only [viable_snoc_iff hr]
  constructor
  · rintro ⟨t, rfl, r', h⟩
    exact ⟨t.text, r', h⟩
  · rintro ⟨text, r', h⟩
    exact ⟨⟨kind, text, 0⟩, rfl, r', h⟩

theorem Reader.Faults.mem_labels {r : Reader} {cause : Cause} (h : r.Faults cause) :
    ∀ label ∈ cause.expected, label ∈ r.named.map Kind.label := by
  rcases h with rfl | rfl | rfl | rfl
  · exact fun label hl => hl
  all_goals exact fun label hl => by cases hl

/-- Where only kinds of the reader are named, they are named for what may come next. -/
theorem expected_viable {r : Reader} {cause : Cause}
    (hr : readWords Reader.step .start (ts.map Lexeme.word) = .ok r)
    (hlabels : ∀ label ∈ cause.expected, label ∈ r.named.map Kind.label) :
    (∀ label ∈ cause.expected, ∃ kind : Kind, kind.label = label) ∧
      ∀ kind : Kind, kind.label ∈ cause.expected →
        ((∃ t : Token, t.kind = kind ∧ Viable (ts ++ [t])) ↔
          ¬(kind = .dice ∧ ∃ t ∈ ts.getLast?, t.kind = .dice)) := by
  refine ⟨fun label hl => ?_, fun kind hk => ?_⟩
  · obtain ⟨kind, -, hkind⟩ := List.mem_map.mp (hlabels label hl)
    exact ⟨kind, hkind⟩
  · obtain ⟨j, hj, hlabel⟩ := List.mem_map.mp (hlabels _ hk)
    exact exists_viable_of_named hr (Kind.label_injective hlabel ▸ hj)

/-- What an error names may come where it is: some accepted sequence goes on with it. The one
exception is a dice marker behind a dice marker, which is named but never accepted. -/
theorem expected_accepted_iff (h : parseTokens ts = .error e) :
    ∃ k, (∀ labels, e.cause = .unexpectedToken labels →
        ∃ t, ts[k]? = some t ∧ e.position = t.position ∧ e.found = t.text ∧ FirstWrong ts k) ∧
      (∀ labels, e.cause = .unexpectedEnd labels → k = ts.length) ∧
      (∀ label ∈ e.cause.expected, ∃ kind : Kind, kind.label = label) ∧
      ∀ kind : Kind, kind.label ∈ e.cause.expected →
        ((∃ t : Token, t.kind = kind ∧ Viable (ts.take k ++ [t])) ↔
          ¬(kind = .dice ∧ ∃ t ∈ (ts.take k).getLast?, t.kind = .dice)) := by
  by_cases hne : ts = []
  · subst hne
    cases h
    exact ⟨0, by simp, by simp, by simp [Cause.expected], by simp [Cause.expected]⟩
  rcases exists_of_readAll_eq_error h hne with ⟨before, l, after, r, cause, rfl, hr, hl, rfl⟩ |
    ⟨last, r, cause, hlast, hr, hfinish, rfl⟩
  · have hfaults := Reader.step_error hl
    refine ⟨before.length, fun _ _ => ⟨l, by simp, rfl, rfl, firstWrong_of_step_error hr hl⟩,
      fun labels hc => absurd hc (hfaults.ne_unexpectedEnd _), ?_⟩
    rw [List.take_left]
    exact expected_viable hr hfaults.mem_labels
  · cases Reader.finish_error hfinish
    refine ⟨ts.length, by simp, fun _ _ => rfl, ?_⟩
    rw [List.take_length]
    exact expected_viable hr fun label hl => hl

/-- Where a parenthesis is open, its end is named, and may come. -/
theorem expected_accepted_unclosed :
    ∃ t : Token, t.kind = .rightParen ∧ Viable [⟨.leftParen, "(", 0⟩, ⟨.int, "1", 1⟩, t] := by
  obtain ⟨k, -, hend, -, hall⟩ := @expected_accepted_iff
    [⟨.leftParen, "(", 0⟩, ⟨.int, "1", 1⟩] ⟨.unexpectedEnd ["')'"], 2, ""⟩ (by rfl)
  obtain rfl := hend _ rfl
  exact (hall .rightParen (List.mem_singleton.mpr rfl)).mpr fun h => by cases h.1

/-- Behind a dice marker another is named where something else is found, and no sequence goes on
with it. -/
theorem dice_named_behind_dice :
    parseTokens [⟨.int, "2", 0⟩, ⟨.dice, "d", 1⟩, ⟨.operator .add, "+", 2⟩] =
        .error ⟨.unexpectedToken ["<integer>", "'d'", "'('", "<reference>"], 2, "+"⟩ ∧
      Kind.label .dice = "'d'" ∧
      ∀ t : Token, t.kind = .dice → ¬Viable [⟨.int, "2", 0⟩, ⟨.dice, "d", 1⟩, t] := by
  refine ⟨by rfl, rfl, fun t ht => ?_⟩
  have hr : readWords Reader.step .start
      (([⟨.int, "2", 0⟩, ⟨.dice, "d", 1⟩] : List Token).map Lexeme.word) =
        .ok ⟨[], .empty, .slot (.sides (.literal 2))⟩ := by rfl
  have hsnoc := viable_snoc_iff hr t
  rw [ht] at hsnoc
  intro h
  obtain ⟨r', hr'⟩ := hsnoc.mp h
  cases hr'

end Tabletop.Notation
