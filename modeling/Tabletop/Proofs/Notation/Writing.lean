import Tabletop.Proofs.Notation.Marking
import Tabletop.Proofs.Notation.WellFormed

/-!
# Written expressions

An expression is written as a sequence of words (`Expr.words?`).

* `Expr.spelled_words?`: the words of a well-formed expression are spelled as their kinds say.
* `Expr.derives_words?`: the words of an expression are derived as it, but for its references, which
  are those read from their texts (`Expr.reread`).
* `Expr.WellFormed.reads_back`, `Expr.wellFormed_of_reread`: the well-formed expressions are those
  that have words and are read from them as they are.
-/

namespace Tabletop

open Notation

/-- The operator that is written like the sign. -/
def UnaryOp.operator : UnaryOp → BinaryOp
  | plus => .add
  | minus => .sub

@[simp] theorem UnaryOp.sign?_operator (op : UnaryOp) : op.operator.sign? = some op := by
  cases op <;> rfl

/-- The words of a comparison. -/
def Comparison.words (c : Comparison) : List Word :=
  [(.compare c.relation, c.relation.symbol), (.int, toString c.threshold)]

/-- The words of a modifier. -/
def Modifier.words : Modifier → List Word
  | select s n => [(.select s, s.symbol), (.int, toString n)]
  | redraw r none => [(.redraw r, r.symbol)]
  | redraw r (some c) => (.redraw r, r.symbol) :: c.words
  | countSuccesses c => c.words

namespace Expr

/-- The words of an expression. There is no token `${}`. -/
def words? : Expr → Option (List Word)
  | literal n => some [(.int, toString n)]
  | reference r => if r.body = [] then none else some [(.reference, toString r)]
  | dice c s ms => do
    let ws ← c.words?
    let us ← s.words?
    some (ws ++ (.dice, "d") :: us ++ ms.flatMap Modifier.words)
  | group e => do
    let ws ← e.words?
    some ((.leftParen, "(") :: ws ++ [(.rightParen, ")")])
  | unary op e => do
    let ws ← e.words?
    some ((.operator op.operator, op.symbol) :: ws)
  | binary op l r => do
    let ws ← l.words?
    let us ← r.words?
    some (ws ++ (.operator op, op.symbol) :: us)

/-- The expression with its references as they are read from their texts. -/
def reread : Expr → Expr
  | literal n => literal n
  | reference r => reference (.ofText (toString r))
  | dice c s ms => dice c.reread s.reread ms
  | group e => group e.reread
  | unary op e => unary op e.reread
  | binary op l r => binary op l.reread r.reread

/-- A well-formed expression has words, and is read from them as it is. -/
theorem WellFormed.reads_back {e : Expr} (h : e.WellFormed) :
    e.WellFormedWith Closed ∧ (∃ ws, e.words? = some ws) ∧ e.reread = e := by
  unfold WellFormed at h
  induction e with
  | literal n => exact ⟨h, ⟨_, rfl⟩, rfl⟩
  | reference r =>
    obtain ⟨hclosed, hbody, hread⟩ := Reference.wellFormed_iff.mp h
    exact ⟨hclosed, ⟨_, if_neg hbody⟩, congrArg reference hread⟩
  | dice c s ms ihc ihs =>
    obtain ⟨hc, hs, hcw, hsw, hms⟩ := h
    obtain ⟨hcw, ⟨ws, hws⟩, hcr⟩ := ihc hcw
    obtain ⟨hsw, ⟨us, hus⟩, hsr⟩ := ihs hsw
    exact ⟨⟨hc, hs, hcw, hsw, hms⟩, ⟨_, by rw [words?, hws, hus]; rfl⟩, by rw [reread, hcr, hsr]⟩
  | group e ih =>
    obtain ⟨hw, ⟨ws, hws⟩, hr⟩ := ih h
    exact ⟨hw, ⟨_, by rw [words?, hws]; rfl⟩, by rw [reread, hr]⟩
  | unary op e ih =>
    obtain ⟨he, h⟩ := h
    obtain ⟨hw, ⟨ws, hws⟩, hr⟩ := ih h
    exact ⟨⟨he, hw⟩, ⟨_, by rw [words?, hws]; rfl⟩, by rw [reread, hr]⟩
  | binary op l r ihl ihr =>
    obtain ⟨hop, hl, hr⟩ := h
    obtain ⟨hlw, ⟨ws, hws⟩, hlr⟩ := ihl hl
    obtain ⟨hrw, ⟨us, hus⟩, hrr⟩ := ihr hr
    exact ⟨⟨hop, hlw, hrw⟩, ⟨_, by rw [words?, hws, hus]; rfl⟩, by rw [reread, hlr, hrr]⟩

/-- What has words, and is read from them as it is, is well formed. -/
theorem wellFormed_of_reread {e : Expr} {ws : List Word} (h : e.WellFormedWith Closed)
    (hw : e.words? = some ws) (hr : e.reread = e) : e.WellFormed := by
  unfold WellFormed
  induction e generalizing ws with
  | literal n => exact h
  | reference r =>
    rw [words?, Option.ite_none_left_eq_some] at hw
    exact Reference.wellFormed_iff.mpr ⟨h, hw.1, reference.inj hr⟩
  | dice c s ms ihc ihs =>
    obtain ⟨hc, hs, hcw, hsw, hms⟩ := h
    obtain ⟨ws, hws, hw⟩ := Option.bind_eq_some_iff.mp hw
    obtain ⟨us, hus, -⟩ := Option.bind_eq_some_iff.mp hw
    obtain ⟨hcr, hsr, -⟩ := dice.inj hr
    exact ⟨hc, hs, ihc hcw hws hcr, ihs hsw hus hsr, hms⟩
  | group e ih =>
    obtain ⟨ws, hws, -⟩ := Option.bind_eq_some_iff.mp hw
    exact ih h hws (group.inj hr)
  | unary op e ih =>
    obtain ⟨he, h⟩ := h
    obtain ⟨ws, hws, -⟩ := Option.bind_eq_some_iff.mp hw
    exact ⟨he, ih h hws (unary.inj hr).2⟩
  | binary op l r ihl ihr =>
    obtain ⟨hop, hlw, hrw⟩ := h
    obtain ⟨ws, hws, hw⟩ := Option.bind_eq_some_iff.mp hw
    obtain ⟨us, hus, -⟩ := Option.bind_eq_some_iff.mp hw
    obtain ⟨-, hlr, hrr⟩ := binary.inj hr
    exact ⟨hop, ihl hlw hws hlr, ihr hrw hus hrr⟩

end Expr

/-! ## The words are derived -/

namespace Notation

theorem spells_literal {n : Int64} (h : 0 ≤ n) : Kind.Spells .int (toString n).toList := by
  obtain ⟨m, hm⟩ := Numeral.exists_toNat_of_nonneg h
  rw [Numeral.toList_toString_int64 hm]
  exact ⟨by simp, Numeral.isDigit_of_mem_toDigits⟩

theorem spells_count (n : UInt64) : Kind.Spells .int (toString n).toList := by
  rw [Numeral.toList_toString_uint64]
  exact ⟨by simp, Numeral.isDigit_of_mem_toDigits⟩

theorem spells_reference {r : Reference} (hc : Closed r) (hb : r.body ≠ []) :
    Kind.Spells .reference (toString r).toList := by
  refine ⟨r.body, hb, ?_, r.toList_toString⟩
  rw [Reference.body, List.mem_append]
  rintro (h | h)
  · obtain ⟨k, name⟩ := r
    cases k <;> simp [Reference.Kind.sigil] at h
  · exact hc h

theorem spells_selection (s : Selection) : (Kind.select s).Spells s.symbol.toList := by
  cases s
  · exact .inr rfl
  · rfl
  · rfl
  · exact .inr (.inr rfl)

end Notation

theorem Comparison.spelled_words {c : Comparison} (h : 0 ≤ c.threshold) : Spelled c.words :=
  List.forall_mem_cons.mpr ⟨rfl, List.forall_mem_singleton.mpr (spells_literal h)⟩

namespace Modifier

variable {m : Modifier}

theorem spelled_words (h : m.WellFormed) : Spelled m.words := by
  cases m with
  | select s n =>
    exact List.forall_mem_cons.mpr
      ⟨spells_selection s, List.forall_mem_singleton.mpr (spells_count n)⟩
  | redraw r c =>
    cases c with
    | none => exact List.forall_mem_singleton.mpr rfl
    | some c => exact List.forall_mem_cons.mpr ⟨rfl, Comparison.spelled_words h⟩
  | countSuccesses c => exact Comparison.spelled_words h

theorem modifies_words (h : m.WellFormed) : Modifies m.words m := by
  cases m with
  | select s n => exact .selectCount (Numeral.uint64?_toString n)
  | redraw r c =>
    cases c with
    | none => exact .redraw
    | some c => exact .redrawWhen (Numeral.int64?_toString h)
  | countSuccesses c => exact .countSuccesses (Numeral.int64?_toString h)

theorem chain_words {ms : List Modifier} (hw : ∀ m ∈ ms, m.WellFormed)
    (hc : ms.IsChain fun m n => m.absorbs n = false) : Chain (ms.flatMap words) ms := by
  induction ms using List.reverseRecOn with
  | nil => exact .nil
  | append_singleton ms m ih =>
    obtain ⟨hms, -, hlast⟩ := List.isChain_append.mp hc
    obtain ⟨hw, hm⟩ := List.forall_mem_append.mp hw
    have hm := modifies_words (hm m (by simp))
    rw [List.flatMap_append, List.flatMap_singleton]
    have ih := ih hw hms
    refine ih.snoc hm ?_
    cases hx : ms.getLast? with
    | none =>
      rw [List.getLast?_eq_none_iff.mp hx]
      intro w hw
      cases hw
    | some x =>
      obtain ⟨us, hus, hwords⟩ := ih.getLast? hx
      rw [Apart, hwords]
      exact (hus.apart_iff hm).mpr (hlast x hx m rfl)

end Modifier

namespace Expr

variable {e : Expr}

theorem spelled_words? {ws : List Word} (h : e.WellFormedWith Closed) (hw : e.words? = some ws) :
    Spelled ws := by
  induction e generalizing ws with
  | literal n =>
    cases hw
    exact List.forall_mem_singleton.mpr (spells_literal h)
  | reference r =>
    rw [words?, Option.ite_none_left_eq_some, Option.some.injEq] at hw
    obtain ⟨hb, rfl⟩ := hw
    exact List.forall_mem_singleton.mpr (spells_reference h hb)
  | dice c s ms ihc ihs =>
    obtain ⟨-, -, hcw, hsw, hms, -⟩ := h
    obtain ⟨ws, hws, hw⟩ := Option.bind_eq_some_iff.mp hw
    obtain ⟨us, hus, hw⟩ := Option.bind_eq_some_iff.mp hw
    cases hw
    refine List.forall_mem_append.mpr ⟨List.forall_mem_append.mpr
      ⟨ihc hcw hws, List.forall_mem_cons.mpr ⟨.inl rfl, ihs hsw hus⟩⟩, fun w hw => ?_⟩
    obtain ⟨m, hm, hw⟩ := List.mem_flatMap.mp hw
    exact Modifier.spelled_words (hms m hm) w hw
  | group e ih =>
    obtain ⟨ws, hws, hw⟩ := Option.bind_eq_some_iff.mp hw
    cases hw
    exact List.forall_mem_cons.mpr
      ⟨rfl, List.forall_mem_append.mpr ⟨ih h hws, List.forall_mem_singleton.mpr rfl⟩⟩
  | unary op e ih =>
    obtain ⟨ws, hws, hw⟩ := Option.bind_eq_some_iff.mp hw
    cases hw
    exact List.forall_mem_cons.mpr ⟨by cases op <;> rfl, ih h.2 hws⟩
  | binary op l r ihl ihr =>
    obtain ⟨ws, hws, hw⟩ := Option.bind_eq_some_iff.mp hw
    obtain ⟨us, hus, hw⟩ := Option.bind_eq_some_iff.mp hw
    cases hw
    exact List.forall_mem_append.mpr
      ⟨ihl h.2.1 hws, List.forall_mem_cons.mpr ⟨rfl, ihr h.2.2 hus⟩⟩

/-- The words of an expression are derived as every phrase that may have its form. -/
theorem derives_words? {φ : Phrase} {ws : List Word} (h : e.WellFormedWith Closed)
    (hw : e.words? = some ws) (ht : φ.takes e = true) : Derives φ ws e.reread := by
  induction e generalizing ws φ with
  | literal n =>
    cases hw
    exact (Derives.literal (Numeral.int64?_toString h)).loosen_atom φ
  | reference r =>
    rw [words?, Option.ite_none_left_eq_some, Option.some.injEq] at hw
    obtain ⟨-, rfl⟩ := hw
    exact Derives.reference.loosen_atom φ
  | dice c s ms ihc ihs =>
    obtain ⟨hc, hs, hcw, hsw, hms⟩ := h
    obtain ⟨ws, hws, hw⟩ := Option.bind_eq_some_iff.mp hw
    obtain ⟨us, hus, hw⟩ := Option.bind_eq_some_iff.mp hw
    cases hw
    refine Derives.loosen ?_ ht
    exact .dice (ihc hcw hws hc) (ihs hsw hus hs) (Modifier.chain_words hms.1 hms.2)
  | group e ih =>
    obtain ⟨ws, hws, hw⟩ := Option.bind_eq_some_iff.mp hw
    cases hw
    exact (Derives.group (ih h hws rfl)).loosen_atom φ
  | unary op e ih =>
    obtain ⟨he, h⟩ := h
    obtain ⟨ws, hws, hw⟩ := Option.bind_eq_some_iff.mp hw
    cases hw
    refine Derives.loosen ?_ ht
    exact .sign op.sign?_operator (ih h hws (by simpa [Phrase.takes] using he))
  | binary op l r ihl ihr =>
    obtain ⟨hop, hlw, hrw⟩ := h
    obtain ⟨ws, hws, hw⟩ := Option.bind_eq_some_iff.mp hw
    obtain ⟨us, hus, hw⟩ := Option.bind_eq_some_iff.mp hw
    cases hw
    refine Derives.loosen ?_ ht
    simp only [phrase]
    split at hop
    · next ho =>
      rw [if_pos ho]
      exact .sumStep ho (ihl hlw hws rfl) (ihr hrw hus (by simpa [Phrase.takes] using hop))
    · next ho =>
      rw [if_neg ho]
      obtain ⟨hl, hr⟩ := hop
      exact .productStep (Bool.not_eq_true _ ▸ ho) (ihl hlw hws (by simpa [Phrase.takes] using hl))
        (ihr hrw hus (by simpa [Phrase.takes] using hr))

end Expr

end Tabletop
