import Tabletop.Proofs.Notation.Grammar
import Tabletop.Proofs.Text.Reading

/-!
# What the reader accepts

The reader accepts exactly the sums of the grammar.

* `Reader.step_spans`: a `Reader` that stands for some words (`Reader.Spans`) stands for one word
  more behind a step. So what it accepts is derived by the grammar (`Reader.derives_of_finish`).
* `Derives.reads`: the reader goes through the words of every phrase, and is left with its
  expression. So what the grammar derives is accepted.
* `parseTokens_accepts_grammar`: the two together, for a sequence of tokens, which is then one
  expression.
-/

namespace Tabletop.Notation

open ParseError (Cause)

/-- Positions play no part in what is accepted: a sequence is read word by word. -/
theorem parseTokens_eq_ok_iff_readWords {ts : List Token} {e : Expr} :
    parseTokens ts = .ok e ↔
      ∃ r, readWords Reader.step .start (ts.map Lexeme.word) = .ok r ∧ r.finish = .ok e := by
  refine readAll_eq_ok_iff.trans (and_iff_right_of_imp ?_)
  rintro ⟨r, hr, hfinish⟩ rfl
  cases hr
  simp [Reader.finish, Reader.start, Focus.operand?] at hfinish

/-! ## Soundness: a reader stands for the words it has read -/

/-- The waiting operand and its operator stand for the words: the operand is a phrase `φ`, and the
operator is a sum or not, as `sum` says. -/
def Waits (φ : Phrase) (sum : Bool) : Option (Expr × BinaryOp) → List Word → Prop
  | none, ws => ws = []
  | some (e, op), ws => ∃ us t, ws = us ++ [(.operator op, t)] ∧ op.isSum = sum ∧ Derives φ us e

/-- The waiting signs, the innermost first, stand for the words. -/
inductive Signs : List UnaryOp → List Word → Prop where
  | nil : Signs [] []
  | snoc {ss : List UnaryOp} {ws : List Word} {s : UnaryOp} {op : BinaryOp} {t : String}
      (h : Signs ss ws) (ho : op.sign? = some s) : Signs (s :: ss) (ws ++ [(.operator op, t)])

/-- What waits stands for the words. -/
def Pending.Spans (p : Pending) (ws : List Word) : Prop :=
  ∃ us vs xs, ws = us ++ vs ++ xs ∧ Waits .sum true p.sum us ∧
    Waits .product false p.product vs ∧ Signs p.signs xs

theorem Pending.empty_spans : Pending.empty.Spans [] :=
  ⟨[], [], [], rfl, rfl, rfl, .nil⟩

theorem Signs.derives {ss : List UnaryOp} {ws us : List Word} {e : Expr} (h : Signs ss ws)
    (he : Derives .signed us e) :
    Derives .signed (ws ++ us) (ss.foldl (fun e op => .unary op e) e) := by
  induction h generalizing us e with
  | nil => exact he
  | snoc _ ho ih =>
    rw [List.append_assoc]
    exact ih (.sign ho he)

namespace Pending

variable {p : Pending} {ws us : List Word} {e : Expr}

/-- The words of the waiting product and signs, with an operand behind them, are a product, and the
waiting sum is before them. -/
theorem Spans.term (h : p.Spans ws) (he : Derives .term us e) :
    ∃ xs ys, ws ++ us = xs ++ ys ∧ Waits .sum true p.sum xs ∧ Derives .product ys (p.term e) := by
  obtain ⟨xs, vs, ss, rfl, hsum, hproduct, hsigns⟩ := h
  have hs : Derives .signed (ss ++ us) (p.signed e) := hsigns.derives (.term he)
  refine ⟨xs, vs ++ (ss ++ us), by simp, hsum, ?_⟩
  unfold Pending.term
  rcases hp : p.product with _ | ⟨l, op⟩
  · rw [hp] at hproduct
    cases hproduct
    exact .signed hs
  · rw [hp] at hproduct
    obtain ⟨vs, t, rfl, ho, hl⟩ := hproduct
    rw [List.append_assoc]
    exact .productStep ho hl hs

/-- What waits, with an operand behind it, is a sum. -/
theorem Spans.total (h : p.Spans ws) (he : Derives .term us e) :
    Derives .sum (ws ++ us) (p.total e) := by
  obtain ⟨xs, ys, hw, hsum, hterm⟩ := h.term he
  rw [hw]
  unfold Pending.total
  rcases hp : p.sum with _ | ⟨l, op⟩
  · rw [hp] at hsum
    cases hsum
    exact .product hterm
  · rw [hp] at hsum
    obtain ⟨xs, t, rfl, ho, hl⟩ := hsum
    rw [List.append_assoc]
    exact .sumStep ho hl hterm

/-- An operator behind an operand makes both wait. -/
theorem Spans.extend (h : p.Spans ws) (he : Derives .term us e) (op : BinaryOp) (t : String) :
    (p.extend e op).Spans (ws ++ us ++ [(.operator op, t)]) := by
  unfold Pending.extend
  split
  · next ho =>
    exact ⟨_, [], [], by simp, ⟨_, t, rfl, ho, h.total he⟩, rfl, .nil⟩
  · next ho =>
    obtain ⟨xs, ys, hw, hsum, hterm⟩ := h.term he
    exact ⟨xs, ys ++ [(.operator op, t)], [], by simp [hw], hsum,
      ⟨ys, t, rfl, by simpa using ho, hterm⟩, .nil⟩

/-- A sign waits behind the others. -/
theorem Spans.sign (h : p.Spans ws) {op : BinaryOp} {s : UnaryOp} (ho : op.sign? = some s)
    (t : String) :
    Pending.Spans { p with signs := s :: p.signs } (ws ++ [(.operator op, t)]) := by
  obtain ⟨xs, vs, ss, rfl, hsum, hproduct, hsigns⟩ := h
  exact ⟨xs, vs, ss ++ [(.operator op, t)], by simp, hsum, hproduct, hsigns.snoc ho⟩

end Pending

/-- The slot stands for the words: there are none before an operand, and a count and a dice marker
before sides. -/
def Slot.Spans : Slot → List Word → Prop
  | .operand, ws => ws = []
  | .sides c, ws => ∃ us t, ws = us ++ [(.dice, t)] ∧ Derives .count us c

/-- The dice term stands for the words, and none of its modifiers would take a word of the kind
`next` behind them. -/
def DiceTerm.Spans (d : DiceTerm) (ws : List Word) (next : Kind) : Prop :=
  ∃ us t vs xs, ws = us ++ (.dice, t) :: vs ++ xs ∧ Derives .count us d.count ∧
    Derives .sides vs d.sides ∧ Chain xs d.modifiers.reverse ∧
    ∀ w ∈ xs.getLast?, w.1.takes next = false

/-- The operand being read stands for the words. -/
def Focus.Spans : Focus → List Word → Prop
  | .slot s, ws => s.Spans ws
  | .atom e, ws => Derives .atom ws e
  | .dice d, ws => ∀ next, d.Spans ws next
  | .select d s, ws => ∃ us t, ws = us ++ [(.select s, t)] ∧ d.Spans us (.select s)
  | .redraw d r, ws => ∃ us t, ws = us ++ [(.redraw r, t)] ∧ d.Spans us (.redraw r)
  | .threshold d none c, ws => ∃ us t, ws = us ++ [(.compare c, t)] ∧ d.Spans us (.compare c)
  | .threshold d (some r) c, ws =>
    ∃ us t u, ws = us ++ [(.redraw r, t), (.compare c, u)] ∧ d.Spans us (.redraw r)

/-- The enclosing levels of parentheses stand for the words. -/
def OuterSpans : List (Pending × Slot) → List Word → Prop
  | [], ws => ws = []
  | (p, s) :: outer, ws => ∃ us vs xs t, ws = us ++ vs ++ xs ++ [(.leftParen, t)] ∧
    OuterSpans outer us ∧ p.Spans vs ∧ s.Spans xs

/-- What is open around the focus stands for the words. -/
def Reader.Encloses (r : Reader) (ws : List Word) : Prop :=
  ∃ us vs, ws = us ++ vs ∧ OuterSpans r.outer us ∧ r.pending.Spans vs

/-- The reader stands for the words: it is what they lead to. -/
def Reader.Spans (r : Reader) (ws : List Word) : Prop :=
  ∃ us vs, ws = us ++ vs ∧ r.Encloses us ∧ r.focus.Spans vs

/-- An atom in a slot. -/
theorem Slot.Spans.fill {s : Slot} {ws us : List Word} {e : Expr} (h : s.Spans ws)
    (he : Derives .atom us e) : (s.fill e).Spans (ws ++ us) := by
  cases s with
  | operand =>
    cases h
    exact he
  | sides c =>
    obtain ⟨ws, t, rfl, hc⟩ := h
    exact fun next => ⟨ws, t, us, [], by simp, hc, .sides he, .nil, by simp⟩

namespace DiceTerm

variable {d : DiceTerm} {ws us : List Word} {next : Kind}

theorem Spans.derives (h : d.Spans ws next) : Derives .term ws d.expr := by
  obtain ⟨us, t, vs, xs, rfl, hc, hs, hm, -⟩ := h
  exact .dice hc hs hm

/-- One more modifier, none of whose words is taken by the modifier before it. -/
theorem Spans.push {m : Modifier} {k : Kind} {t : String} (h : d.Spans ws k)
    (hm : Modifies ((k, t) :: us) m) (hn : ∀ w ∈ us.getLast?, w.1.takes next = false)
    (hk : us = [] → k.takes next = false) : (d.push m).Spans (ws ++ (k, t) :: us) next := by
  obtain ⟨xs, t', vs, ys, rfl, hc, hs, hms, hy⟩ := h
  refine ⟨xs, t', vs, ys ++ (k, t) :: us, by simp, hc, hs, ?_, ?_⟩
  · simp only [DiceTerm.push, List.reverse_cons]
    exact hms.snoc hm fun w hw u hu => by
      cases hu
      exact hy w hw
  · intro w hw
    rw [List.getLast?_append] at hw
    cases us with
    | nil => cases hw; exact hk rfl
    | cons u us => exact hn w (by simpa [List.getLast?_cons_cons] using hw)

end DiceTerm

/-- A term that is followed by its modifier alone stands for one word more. -/
theorem DiceTerm.Spans.push_word {d : DiceTerm} {ws : List Word} {k next : Kind} {t : String}
    {m : Modifier} (h : d.Spans ws k) (hm : Modifies [(k, t)] m) (hk : k.takes next = false) :
    (d.push m).Spans (ws ++ [(k, t)]) next :=
  h.push hm (by simp) fun _ => hk

/-- The operand read so far is a term. -/
theorem Focus.Spans.derives {f : Focus} {ws : List Word} {e : Expr} (h : f.Spans ws)
    (he : f.operand? = some e) : Derives .term ws e := by
  cases f with
  | slot s => cases he
  | threshold d r c => cases he
  | atom e' => cases he; exact .atom h
  | dice d => cases he; exact (h .unknown).derives
  | select d s =>
    cases he
    obtain ⟨us, t, rfl, hd⟩ := h
    have hd : (d.push (.select s 1)).Spans (us ++ [(.select s, t)]) .unknown :=
      hd.push_word .select rfl
    exact hd.derives
  | redraw d r =>
    cases he
    obtain ⟨us, t, rfl, hd⟩ := h
    have hd : (d.push (.redraw r none)).Spans (us ++ [(.redraw r, t)]) .unknown :=
      hd.push_word .redraw rfl
    exact hd.derives

namespace Reader

variable {r r' : Reader} {us vs ws : List Word} {k : Kind} {t : String}

theorem numeral_eq_ok_iff {α : Type} {read? : String → Option α} {t : String} {n : α} :
    numeral read? t = .ok n ↔ read? t = some n := by
  unfold numeral
  cases read? t <;> simp

/-- A new focus in the same surroundings. -/
theorem Encloses.focus (h : r.Encloses us) {f : Focus} (hf : f.Spans vs) :
    Reader.Spans { r with focus := f } (us ++ vs) :=
  ⟨us, vs, rfl, h, hf⟩

/-- An operand may begin where the words end. -/
theorem Encloses.operand (h : r.Encloses us) (hf : r.focus = .slot .operand) : r.Spans us :=
  ⟨us, [], by simp, h, by rw [hf]; rfl⟩

theorem stepAtom_spans {s : Slot} (h : r.Encloses us) (hs : s.Spans vs)
    (hr : r.stepAtom s k t = .ok r') : r'.Spans (us ++ (vs ++ [(k, t)])) := by
  unfold stepAtom at hr
  split at hr
  · obtain ⟨n, hn, hr⟩ := Except.bind_eq_ok_iff.mp hr
    cases hr
    exact h.focus (hs.fill (.literal (numeral_eq_ok_iff.mp hn)))
  · cases hr
    exact h.focus (hs.fill .reference)
  · cases hr
    obtain ⟨xs, ys, rfl, ho, hp⟩ := h
    have hout : OuterSpans ((r.pending, s) :: r.outer) (xs ++ ys ++ vs ++ [(.leftParen, t)]) :=
      ⟨xs, ys, vs, t, rfl, ho, hp, hs⟩
    exact Encloses.operand ⟨_, [], by simp, hout, Pending.empty_spans⟩ rfl
  · cases hr

theorem stepSlot_spans {s : Slot} (h : r.Encloses us) (hf : r.focus = .slot s) (hs : s.Spans vs)
    (hr : r.stepSlot s k t = .ok r') : r'.Spans (us ++ (vs ++ [(k, t)])) := by
  unfold stepSlot at hr
  split at hr
  · next op =>
    split at hr
    · next sign ho =>
      cases hr
      cases hs
      obtain ⟨xs, ys, rfl, hx, hp⟩ := h
      exact Encloses.operand ⟨xs, ys ++ [(.operator op, t)], by simp, hx, hp.sign ho t⟩ hf
    · cases hr
  · cases hr
    cases hs
    exact h.focus ⟨[], t, rfl, .one⟩
  · cases hr
    obtain ⟨xs, u, rfl, hc⟩ := hs
    exact h.focus fun next => ⟨xs, u, [(.percent, t)], [], by simp, hc, .percent, .nil, by simp⟩
  · exact stepAtom_spans h hs hr

/-- Behind an operand, an operator makes it wait and a closing parenthesis makes it an atom. -/
theorem stepOperand_spans {e : Expr} (h : r.Encloses us) (he : Derives .term vs e)
    (hr : r.stepOperand e k = .ok r') : r'.Spans (us ++ (vs ++ [(k, t)])) := by
  obtain ⟨xs, ys, rfl, ho, hp⟩ := h
  unfold stepOperand at hr
  split at hr
  · next op =>
    cases hr
    exact Encloses.operand
      ⟨xs, ys ++ vs ++ [(.operator op, t)], by simp, ho, hp.extend he op t⟩ rfl
  · next p s outer hout =>
    cases hr
    rw [hout] at ho
    obtain ⟨zs, as, bs, u, rfl, ho, hp', hs⟩ := ho
    refine ⟨zs ++ as, bs ++ ((.leftParen, u) :: (ys ++ vs) ++ [(.rightParen, t)]), by simp,
      ⟨zs, as, rfl, ho, hp'⟩, hs.fill (.group (hp.total he))⟩
  · cases hr
  · cases hr

theorem stepDice_spans {d : DiceTerm} (h : r.Encloses us) (hd : d.Spans vs k)
    (hr : r.stepDice d k = .ok r') : r'.Spans (us ++ (vs ++ [(k, t)])) := by
  unfold stepDice at hr
  split at hr
  · cases hr; exact h.focus ⟨vs, t, rfl, hd⟩
  · cases hr; exact h.focus ⟨vs, t, rfl, hd⟩
  · cases hr; exact h.focus ⟨vs, t, rfl, hd⟩
  · exact stepOperand_spans h hd.derives hr

/-- Behind a step the reader stands for one word more. -/
theorem step_spans (h : r.Spans ws) (hr : r.step k t = .ok r') : r'.Spans (ws ++ [(k, t)]) := by
  obtain ⟨us, vs, rfl, h, hf⟩ := h
  rw [List.append_assoc]
  unfold step at hr
  generalize hfocus : r.focus = f at hr hf
  cases f with
  | slot s => exact stepSlot_spans h hfocus hf hr
  | atom e =>
    simp only [stepCount] at hr
    split at hr
    · next hk =>
      subst hk
      cases hr
      exact h.focus ⟨vs, t, rfl, .count hf⟩
    · split at hr
      · cases hr
      · exact stepOperand_spans h (.atom hf) hr
  | dice d => exact stepDice_spans h (hf k) hr
  | select d s =>
    obtain ⟨vs, u, rfl, hd⟩ := hf
    simp only at hr
    split at hr
    · obtain ⟨n, hn, hr⟩ := Except.bind_eq_ok_iff.mp hr
      cases hr
      rw [List.append_assoc]
      exact h.focus fun next =>
        hd.push (.selectCount (numeral_eq_ok_iff.mp hn)) (by simp [Kind.takes]) (by simp)
    · next hk =>
      exact stepDice_spans h (hd.push_word .select (by cases k <;> simp_all [Kind.takes])) hr
  | redraw d m =>
    obtain ⟨vs, u, rfl, hd⟩ := hf
    simp only at hr
    split at hr
    · obtain ⟨n, hn, hr⟩ := Except.bind_eq_ok_iff.mp hr
      cases hr
      rw [List.append_assoc]
      exact h.focus fun next =>
        hd.push (.redrawFace (numeral_eq_ok_iff.mp hn)) (by simp [Kind.takes]) (by simp)
    · cases hr
      exact h.focus ⟨vs, u, t, by simp, hd⟩
    · next hk hc =>
      exact stepDice_spans h (hd.push_word .redraw (by cases k <;> simp_all [Kind.takes])) hr
  | threshold d m c =>
    simp only at hr
    split at hr
    · obtain ⟨n, hn, hr⟩ := Except.bind_eq_ok_iff.mp hr
      cases hr
      have hn := numeral_eq_ok_iff.mp hn
      cases m with
      | none =>
        obtain ⟨vs, u, rfl, hd⟩ := hf
        rw [List.append_assoc]
        exact h.focus fun next => hd.push (.countSuccesses hn) (by simp [Kind.takes]) (by simp)
      | some m =>
        obtain ⟨vs, u, v, rfl, hd⟩ := hf
        rw [List.append_assoc]
        exact h.focus fun next => hd.push (.redrawWhen hn) (by simp [Kind.takes]) (by simp)
    · cases hr

theorem start_spans : start.Spans [] :=
  ⟨[], [], rfl, ⟨[], [], rfl, rfl, Pending.empty_spans⟩, rfl⟩

/-- Behind a run the reader stands for all words read. -/
theorem readWords_spans (h : r.Spans ws) (hr : readWords step r us = .ok r') :
    r'.Spans (ws ++ us) := by
  induction us generalizing r ws with
  | nil => cases hr; simpa using h
  | cons u us ih =>
    rw [readWords_cons, Except.bind_eq_ok_iff] at hr
    obtain ⟨r₁, h₁, hr⟩ := hr
    simpa using ih (step_spans h h₁) hr

/-- What the reader accepts is a sum. -/
theorem derives_of_finish {e : Expr} (h : r.Spans ws) (hf : r.finish = .ok e) :
    Derives .sum ws e := by
  obtain ⟨_, vs, rfl, ⟨us, xs, rfl, ho, hp⟩, hfocus⟩ := h
  unfold finish at hf
  split at hf
  · next x hx hout =>
    cases hf
    rw [hout] at ho
    cases ho
    exact hp.total (hfocus.derives hx)
  · cases hf
  · cases hf
  · cases hf

end Reader

/-! ## Completeness: the reader goes through every phrase -/

namespace Focus

/-- The dice term being read, as it is. -/
def term? : Focus → Option DiceTerm
  | slot _ | atom _ | threshold .. => none
  | dice d => some d
  | select d s => some (d.push (.select s 1))
  | redraw d r => some (d.push (.redraw r none))

/-- A word of the given kind is taken as an optional argument. -/
def takes : Focus → Kind → Bool
  | select _ s, k => (Kind.select s).takes k
  | redraw _ r, k => (Kind.redraw r).takes k
  | _, _ => false

theorem operand?_of_term? {f : Focus} {d : DiceTerm} (h : f.term? = some d) :
    f.operand? = some d.expr := by
  cases f <;> cases h <;> rfl

end Focus

namespace Reader

variable {r : Reader} {k : Kind} {t : String}

theorem step_of_term {d : DiceTerm} (hd : r.focus.term? = some d)
    (hk : r.focus.takes k = false) : r.step k t = r.stepDice d k := by
  unfold step
  generalize r.focus = f at hd hk
  cases f <;> cases hd
  case dice => rfl
  case select => cases k <;> first | rfl | cases hk
  case redraw => cases k <;> first | rfl | cases hk

/-- An operator or a closing parenthesis ends the operand before it. -/
theorem step_of_operand {e : Expr} (he : r.focus.operand? = some e)
    (hk : (∃ op, k = .operator op) ∨ k = .rightParen) : r.step k t = r.stepOperand e k := by
  unfold step
  generalize r.focus = f at he
  cases f <;> cases he <;> obtain ⟨op, rfl⟩ | rfl := hk <;> rfl

end Reader

/-- A modifier is read behind a dice term that does not take its first word. -/
theorem Modifies.reads {ws : List Word} {m : Modifier} (h : Modifies ws m) {r : Reader}
    {d : DiceTerm} (hd : r.focus.term? = some d)
    (hk : ∀ w ∈ ws.head?, r.focus.takes w.1 = false) :
    ∃ f, readWords Reader.step r ws = .ok { r with focus := f } ∧ f.term? = some (d.push m) ∧
      ∀ k, (∀ w ∈ ws.getLast?, w.1.takes k = false) → f.takes k = false := by
  cases h with
  | select =>
    refine ⟨.select d _, ?_, rfl, fun k hl => hl _ rfl⟩
    rw [readWords_singleton, Reader.step_of_term hd (hk _ rfl)]
    rfl
  | redraw =>
    refine ⟨.redraw d _, ?_, rfl, fun k hl => hl _ rfl⟩
    rw [readWords_singleton, Reader.step_of_term hd (hk _ rfl)]
    rfl
  -- The modifiers that end in an integer, which is read wherever it is taken.
  | selectCount hn | redrawFace hn | redrawWhen hn | countSuccesses hn =>
    refine ⟨.dice (d.push _), ?_, rfl, fun k _ => rfl⟩
    rw [readWords_cons, Reader.step_of_term hd (hk _ rfl)]
    simp only [Reader.stepDice, Except.bind, readWords_cons, Reader.step, Reader.numeral, hn]
    rfl

/-- The modifiers of a dice term are read behind its sides. -/
theorem Chain.reads {ws : List Word} {ms : List Modifier} (h : Chain ws ms) {r : Reader}
    {c s : Expr} (hr : r.focus = .dice ⟨c, s, []⟩) :
    ∃ f, readWords Reader.step r ws = .ok { r with focus := f } ∧
      f.term? = some ⟨c, s, ms.reverse⟩ ∧
        ∀ k, (∀ w ∈ ws.getLast?, w.1.takes k = false) → f.takes k = false := by
  induction h with
  | nil => exact ⟨.dice ⟨c, s, []⟩, by rw [← hr]; rfl, rfl, fun _ _ => rfl⟩
  | @snoc ws us ms m _ hm ha ih =>
    obtain ⟨f, hf, hd, hk⟩ := ih
    obtain ⟨f', hf', hd', hk'⟩ := hm.reads (r := { r with focus := f }) hd
      fun u hu => hk u.1 fun w hw => ha w hw u hu
    refine ⟨f', by rw [readWords_append_of_ok hf, hf'], by simpa [DiceTerm.push] using hd',
      fun k hl => hk' k fun w hw => hl w ?_⟩
    rw [List.getLast?_append, hw]
    rfl

/-- What a reader is left with behind the words of a phrase that stands for `e`: the phrase fills
the slot it is in, or leaves an operand that is `e` under what waits for it. -/
def Phrase.Reads : Phrase → List Word → Expr → Prop
  | .sum, ws, e => ∀ outer, ∃ p f x,
    readWords Reader.step ⟨outer, .empty, .slot .operand⟩ ws = .ok ⟨outer, p, f⟩ ∧
      f.operand? = some x ∧ p.total x = e
  | .product, ws, e => ∀ outer sum, ∃ p f x,
    readWords Reader.step ⟨outer, ⟨sum, none, []⟩, .slot .operand⟩ ws = .ok ⟨outer, p, f⟩ ∧
      f.operand? = some x ∧ p.sum = sum ∧ p.term x = e
  | .signed, ws, e => ∀ r : Reader, r.focus = .slot .operand → ∃ p f x,
    readWords Reader.step r ws = .ok ⟨r.outer, p, f⟩ ∧ f.operand? = some x ∧
      p.sum = r.pending.sum ∧ p.product = r.pending.product ∧ p.signed x = r.pending.signed e
  | .term, ws, e => ∀ r : Reader, r.focus = .slot .operand → ∃ f,
    readWords Reader.step r ws = .ok { r with focus := f } ∧ f.operand? = some e
  | .count, ws, e => ∀ (r : Reader) (t : String), r.focus = .slot .operand →
    readWords Reader.step r (ws ++ [(.dice, t)]) = .ok { r with focus := .slot (.sides e) }
  | .sides, ws, e => ∀ (r : Reader) (c : Expr), r.focus = .slot (.sides c) →
    readWords Reader.step r ws = .ok { r with focus := .dice ⟨c, e, []⟩ }
  | .atom, ws, e => ∀ (r : Reader) (s : Slot), r.focus = .slot s →
    readWords Reader.step r ws = .ok { r with focus := s.fill e }

/-- The reader goes through the words of every phrase. -/
theorem Derives.reads {φ : Phrase} {ws : List Word} {e : Expr} (h : Derives φ ws e) :
    φ.Reads ws e := by
  induction h with
  | product _ ih =>
    intro outer
    obtain ⟨p, f, x, hr, hf, hs, hx⟩ := ih outer none
    exact ⟨p, f, x, hr, hf, by rw [Pending.total, hs, hx]; rfl⟩
  | @sumStep ws us l r op t ho _ _ ihl ihr =>
    intro outer
    obtain ⟨p, f, x, hrun, hf, hx⟩ := ihl outer
    obtain ⟨p', f', x', hrun', hf', hs, hx'⟩ := ihr outer (some (l, op))
    refine ⟨p', f', x', ?_, hf', by rw [Pending.total, hs, hx']; rfl⟩
    rw [readWords_append_of_ok hrun, readWords_cons,
      Reader.step_of_operand hf (.inl ⟨op, rfl⟩), ← hrun']
    simp only [Reader.stepOperand, Except.bind, Pending.extend, ho, if_true, hx]
  | signed _ ih =>
    intro outer sum
    obtain ⟨p, f, x, hr, hf, hs, hp, hx⟩ := ih ⟨outer, ⟨sum, none, []⟩, .slot .operand⟩ rfl
    exact ⟨p, f, x, hr, hf, hs, by rw [Pending.term, hp, hx]; rfl⟩
  | @productStep ws us l r op t ho _ _ ihl ihr =>
    intro outer sum
    obtain ⟨p, f, x, hrun, hf, hsum, hx⟩ := ihl outer sum
    obtain ⟨p', f', x', hrun', hf', hs, hp, hx'⟩ :=
      ihr ⟨outer, ⟨sum, some (l, op), []⟩, .slot .operand⟩ rfl
    refine ⟨p', f', x', ?_, hf', hs, by rw [Pending.term, hp, hx']; rfl⟩
    rw [readWords_append_of_ok hrun, readWords_cons,
      Reader.step_of_operand hf (.inl ⟨op, rfl⟩), ← hrun']
    simp only [Reader.stepOperand, Except.bind, Pending.extend, ho, hx, hsum]
    rfl
  | term _ ih =>
    intro r hr
    obtain ⟨f, hrun, hf⟩ := ih r hr
    exact ⟨r.pending, f, _, hrun, hf, rfl, rfl, rfl⟩
  | @sign ws e op s t ho _ ih =>
    intro r hr
    obtain ⟨p, f, x, hrun, hf, hs, hp, hx⟩ :=
      ih { r with pending := { r.pending with signs := s :: r.pending.signs } } hr
    refine ⟨p, f, x, ?_, hf, hs, hp, hx⟩
    rw [← hrun, readWords_cons]
    simp only [Reader.step, hr, Reader.stepSlot, ho]
    rfl
  | atom _ ih =>
    intro r hr
    exact ⟨.atom _, ih r .operand hr, rfl⟩
  | @dice ws us vs c d ms t _ _ hm ihc ihd =>
    intro r hr
    obtain ⟨f, hf, hd, -⟩ := hm.reads (r := { r with focus := .dice ⟨c, d, []⟩ }) rfl
    refine ⟨f, ?_, by simp [Focus.operand?_of_term? hd, DiceTerm.expr]⟩
    have hw : ws ++ (.dice, t) :: us ++ vs = (ws ++ [(.dice, t)]) ++ (us ++ vs) := by simp
    rw [hw, readWords_append_of_ok (ihc r t hr), readWords_append_of_ok (ihd _ c rfl), hf]
  | one =>
    intro r t hr
    rw [List.nil_append, readWords_singleton]
    simp only [Reader.step, hr]
    rfl
  | count _ ih =>
    intro r t hr
    rw [readWords_append_of_ok (ih r .operand hr), readWords_singleton]
    rfl
  | percent =>
    intro r c hr
    rw [readWords_singleton]
    simp only [Reader.step, hr]
    rfl
  | sides _ ih => exact fun r c hr => ih r (.sides c) hr
  | @literal t n hn =>
    intro r s hr
    rw [readWords_singleton]
    simp only [Reader.step, hr]
    cases s <;> simp only [Reader.stepSlot, Reader.stepAtom, Reader.numeral, hn] <;> rfl
  | reference =>
    intro r s hr
    rw [readWords_singleton]
    simp only [Reader.step, hr]
    cases s <;> rfl
  | @group ws e t u _ ih =>
    intro r s hr
    obtain ⟨p, f, x, hrun, hf, hx⟩ := ih ((r.pending, s) :: r.outer)
    have hopen : readWords Reader.step r [(.leftParen, t)] =
        .ok ⟨(r.pending, s) :: r.outer, .empty, .slot .operand⟩ := by
      rw [readWords_singleton]
      simp only [Reader.step, hr]
      cases s <;> rfl
    have hw : (.leftParen, t) :: ws ++ [(.rightParen, u)] =
        [(.leftParen, t)] ++ (ws ++ [(.rightParen, u)]) := rfl
    rw [hw, readWords_append_of_ok hopen, readWords_append_of_ok hrun, readWords_singleton,
      Reader.step_of_operand hf (.inr rfl)]
    simp only [Reader.stepOperand, hx]

/-- The reader accepts what the grammar derives. -/
theorem Derives.readWords_start {ws : List Word} {e : Expr} (h : Derives .sum ws e) :
    ∃ r, readWords Reader.step .start ws = .ok r ∧ r.finish = .ok e := by
  obtain ⟨p, f, x, hr, hf, rfl⟩ := h.reads []
  exact ⟨⟨[], p, f⟩, hr, by simp only [Reader.finish, hf]⟩

/-- A sequence of tokens is accepted if and only if the grammar derives an expression from it, which
is then the one it is read as. -/
theorem parseTokens_eq_ok_iff {ts : List Token} {e : Expr} :
    parseTokens ts = .ok e ↔ Derives .sum (ts.map Lexeme.word) e := by
  rw [parseTokens_eq_ok_iff_readWords]
  constructor
  · rintro ⟨r, hr, hf⟩
    exact Reader.derives_of_finish (Reader.readWords_spans Reader.start_spans hr) hf
  · exact Derives.readWords_start

/-- No sequence of words is derived as two expressions. -/
theorem Derives.unique {ws : List Word} {e e' : Expr} (h : Derives .sum ws e)
    (h' : Derives .sum ws e') : e = e' := by
  obtain ⟨r, hr, hf⟩ := h.readWords_start
  obtain ⟨r', hr', hf'⟩ := h'.readWords_start
  rw [hr] at hr'
  cases hr'
  rw [hf] at hf'
  exact Except.ok.inj hf'

/-- What is accepted is what the grammar derives, and it is one expression. -/
theorem parseTokens_accepts_grammar (ts : List Token) :
    (∀ e, parseTokens ts = .ok e ↔ Derives .sum (ts.map Lexeme.word) e) ∧
      ∀ e e', Derives .sum (ts.map Lexeme.word) e → Derives .sum (ts.map Lexeme.word) e' →
        e = e' :=
  ⟨fun _ => parseTokens_eq_ok_iff, fun _ _ => Derives.unique⟩

end Tabletop.Notation

open Tabletop.Notation in
/-- A text is read as the expression that is derived from its tokens. -/
theorem Tabletop.Expr.ofText_eq_ok_iff {text : String} {e : Expr} : ofText text = .ok e ↔
    ∃ ts, tokenize text = .ok ts ∧ Derives .sum (ts.map Lexeme.word) e := by
  refine Except.bind_eq_ok_iff.trans (exists_congr fun ts => ?_)
  rw [Except.mapError_eq_ok_iff, Except.mapError_eq_ok_iff, parseTokens_eq_ok_iff]
