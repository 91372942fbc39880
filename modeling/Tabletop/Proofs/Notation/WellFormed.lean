import Mathlib.Data.List.Chain
import Mathlib.Data.List.Induction
import Tabletop.Proofs.Notation.Grammar
import Tabletop.Proofs.Notation.Spelling
import Tabletop.Proofs.Numeral
import Tabletop.Proofs.Reference

/-!
# Well-formed expressions

The expressions that notation can stand for: no parentheses are missing, no number is negative, and
no success count is behind a redraw that would take it as its condition.

* `Expr.WellFormedWith p`: the expression is well formed, and its references meet `p`.
* `Expr.WellFormed`: the expression is well formed, with references that are read back.
* `Derives.wellFormedWith`: what the grammar derives from spelled tokens is well formed, and is of a
  form that the phrase may have (`Phrase.takes`).
* `Derives.loosen`: an expression is derived as every phrase that may have its form.
-/

namespace Tabletop

namespace Modifier

/-- The threshold is not negative, if there is one. -/
def WellFormed : Modifier → Prop
  | select .. | redraw _ none => True
  | redraw _ (some c) | countSuccesses c => 0 ≤ c.threshold

/-- `next` right behind `m` would be read as the condition of `m`. -/
def absorbs : (m next : Modifier) → Bool
  | redraw _ none, countSuccesses _ => true
  | _, _ => false

end Modifier

namespace Expr

/-- The expression is a literal, a reference or a group. -/
def isAtom : Expr → Bool
  | literal _ | reference _ | group _ => true
  | dice .. | unary .. | binary .. => false

/-- The expression has a sign in front. -/
def isSigned : Expr → Bool
  | unary .. => true
  | _ => false

/-- The expression has an operator between two operands. -/
def isBinary : Expr → Bool
  | binary .. => true
  | _ => false

/-- The expression is a sum or a difference. -/
def isSum : Expr → Bool
  | binary op _ _ => op.isSum
  | _ => false

/-- The expression stands for itself in notation, up to its references, which meet `p`. -/
def WellFormedWith (p : Reference → Prop) : Expr → Prop
  | literal n => 0 ≤ n
  | reference r => p r
  | dice c s ms =>
    c.isAtom = true ∧ s.isAtom = true ∧ c.WellFormedWith p ∧ s.WellFormedWith p ∧
      (∀ m ∈ ms, m.WellFormed) ∧ ms.IsChain fun m n => m.absorbs n = false
  | group e => e.WellFormedWith p
  | unary _ e => e.isBinary = false ∧ e.WellFormedWith p
  | binary op l r =>
    (if op.isSum then r.isSum = false else l.isSum = false ∧ r.isBinary = false) ∧
      l.WellFormedWith p ∧ r.WellFormedWith p

/-- The expression is read back from its text. -/
def WellFormed (e : Expr) : Prop :=
  e.WellFormedWith Reference.WellFormed

end Expr

namespace Notation

/-- The phrase may have the form of the expression. -/
def Phrase.takes : Phrase → Expr → Bool
  | .sum, _ => true
  | .product, e => !e.isSum
  | .signed, e => !e.isBinary
  | .term, e => !e.isBinary && !e.isSigned
  | .count, e | .sides, e | .atom, e => e.isAtom

end Notation

open Notation in
/-- The tightest phrase that may have the form of the expression. -/
def Expr.phrase : Expr → Phrase
  | literal _ | reference _ | group _ => .atom
  | dice .. => .term
  | unary .. => .signed
  | binary op _ _ => if op.isSum then .sum else .product

namespace Notation

namespace Phrase

variable {e : Expr}

theorem takes_product (h : Phrase.signed.takes e = true) : Phrase.product.takes e = true := by
  cases e with
  | binary op l r => cases h
  | _ => rfl

theorem takes_term (h : Phrase.atom.takes e = true) : Phrase.term.takes e = true := by
  cases e with
  | unary op e => cases h
  | binary op l r => cases h
  | _ => rfl

end Phrase

/-! ## What is derived is well formed -/

/-- The name of the reference has no closing brace. -/
def Closed (r : Reference) : Prop := '\x7d' ∉ r.name.toList

/-- The tokens are spelled as their kinds say. -/
def Spelled (ws : List Word) : Prop := ∀ w ∈ ws, w.1.Spells w.2.toList

theorem Spelled.append {ws us : List Word} (h : Spelled (ws ++ us)) : Spelled ws ∧ Spelled us :=
  List.forall_mem_append.mp h

theorem Spelled.nonneg {t : String} {n : Int64} (h : Kind.Spells .int t.toList)
    (hn : Numeral.int64? t = some n) : 0 ≤ n :=
  Numeral.int64?_nonneg h.1 h.2 hn

theorem Modifies.wellFormed {ws : List Word} {m : Modifier} (h : Modifies ws m)
    (hs : Spelled ws) : m.WellFormed := by
  cases h with
  | select | selectCount _ | redraw => trivial
  | redrawFace hn => exact Spelled.nonneg (hs (.int, _) (by simp)) hn
  | redrawWhen hn => exact Spelled.nonneg (hs (.int, _) (by simp)) hn
  | countSuccesses hn => exact Spelled.nonneg (hs (.int, _) (by simp)) hn

/-- A modifier takes nothing of the next one, but for a redraw without a condition, which takes the
comparison that a success count starts with. -/
theorem Modifies.apart_iff {ws us : List Word} {m n : Modifier} (hm : Modifies ws m)
    (hn : Modifies us n) : Apart ws us ↔ m.absorbs n = false := by
  cases hm <;> cases hn <;> simp [Apart, Kind.takes, Modifier.absorbs]

theorem Modifies.ne_nil {ws : List Word} {m : Modifier} (h : Modifies ws m) : ws ≠ [] := by
  cases h <;> exact List.cons_ne_nil _ _

/-- What a chain ends with is the words of its last modifier. -/
theorem Chain.getLast? {ws : List Word} {ms : List Modifier} (h : Chain ws ms) {m : Modifier}
    (hm : m ∈ ms.getLast?) : ∃ us, Modifies us m ∧ ws.getLast? = us.getLast? := by
  cases h with
  | nil => cases hm
  | @snoc ws us ms n hc hn ha =>
    rw [List.getLast?_concat, Option.mem_some] at hm
    subst hm
    exact ⟨us, hn, List.getLast?_append_of_ne_nil _ hn.ne_nil⟩

theorem Chain.wellFormed {ws : List Word} {ms : List Modifier} (h : Chain ws ms)
    (hs : Spelled ws) :
    (∀ m ∈ ms, m.WellFormed) ∧ ms.IsChain fun m n => m.absorbs n = false := by
  induction h with
  | nil => exact ⟨by simp, .nil⟩
  | @snoc ws us ms m hc hm ha ih =>
    obtain ⟨hws, hus⟩ := hs.append
    obtain ⟨hwf, hchain⟩ := ih hws
    refine ⟨List.forall_mem_append.mpr ⟨hwf, by simpa using hm.wellFormed hus⟩,
      List.isChain_append.mpr ⟨hchain, .singleton m, fun x hx y hy => ?_⟩⟩
    cases hy
    obtain ⟨vs, hv, hlast⟩ := hc.getLast? hx
    exact (hv.apart_iff hm).mp fun w hw => ha w (hlast ▸ hw)

/-- What is derived from spelled tokens is well formed, and the phrase may have its form. -/
theorem Derives.wellFormedWith {φ : Phrase} {ws : List Word} {e : Expr} (h : Derives φ ws e)
    (hs : Spelled ws) : φ.takes e = true ∧ e.WellFormedWith Closed := by
  induction h with
  | product _ ih => exact ⟨rfl, (ih hs).2⟩
  | @sumStep ws us l r op t ho hl hr ihl ihr =>
    obtain ⟨hws, hus⟩ := hs.append
    obtain ⟨hr, hrw⟩ := ihr (List.forall_mem_cons.mp hus).2
    refine ⟨rfl, ?_, (ihl hws).2, hrw⟩
    rw [if_pos ho]
    simpa [Phrase.takes] using hr
  | signed _ ih =>
    obtain ⟨ht, hw⟩ := ih hs
    exact ⟨Phrase.takes_product ht, hw⟩
  | @productStep ws us l r op t ho hl hr ihl ihr =>
    obtain ⟨hws, hus⟩ := hs.append
    obtain ⟨hl, hlw⟩ := ihl hws
    obtain ⟨hr, hrw⟩ := ihr (List.forall_mem_cons.mp hus).2
    refine ⟨by simp [Phrase.takes, Expr.isSum, ho], ?_, hlw, hrw⟩
    simpa [ho, Phrase.takes] using And.intro hl hr
  | term _ ih =>
    obtain ⟨ht, hw⟩ := ih hs
    exact ⟨(Bool.and_eq_true_iff.mp ht).1, hw⟩
  | sign ho _ ih =>
    obtain ⟨ht, hw⟩ := ih (List.forall_mem_cons.mp hs).2
    exact ⟨rfl, by simpa [Phrase.takes] using ht, hw⟩
  | atom _ ih =>
    obtain ⟨ht, hw⟩ := ih hs
    exact ⟨Phrase.takes_term ht, hw⟩
  | dice _ _ hm ihc ihd =>
    obtain ⟨hs, hvs⟩ := hs.append
    obtain ⟨hws, hus⟩ := hs.append
    obtain ⟨hc, hcw⟩ := ihc hws
    obtain ⟨hd, hdw⟩ := ihd (List.forall_mem_cons.mp hus).2
    exact ⟨rfl, hc, hd, hcw, hdw, hm.wellFormed hvs⟩
  | one => exact ⟨rfl, show (0 : Int64) ≤ 1 by decide⟩
  | count _ ih => exact ih hs
  | percent => exact ⟨rfl, show (0 : Int64) ≤ 100 by decide⟩
  | sides _ ih => exact ih hs
  | literal hn => exact ⟨rfl, Spelled.nonneg (hs (.int, _) (by simp)) hn⟩
  | @reference t =>
    obtain ⟨name, -, hb, ht⟩ := hs (.reference, t) (by simp)
    exact ⟨rfl, fun h => hb (Reference.mem_name_ofText ht h)⟩
  | group _ ih =>
    obtain ⟨hs, -⟩ := Spelled.append (List.forall_mem_cons.mp hs).2
    exact ⟨rfl, (ih hs).2⟩

/-! ## Looser phrases -/

namespace Derives

variable {φ : Phrase} {ws : List Word} {e e' : Expr}

/-- An atom is derived as every phrase. -/
theorem loosen_atom (h : Derives .atom ws e') (φ : Phrase) : Derives φ ws e' := by
  cases φ with
  | sum => exact .product (.signed (.term (.atom h)))
  | product => exact .signed (.term (.atom h))
  | signed => exact .term (.atom h)
  | term => exact .atom h
  | count => exact .count h
  | sides => exact .sides h
  | atom => exact h

/-- What is derived as the tightest phrase of some form is derived as all that may have the form. -/
theorem loosen (h : Derives e.phrase ws e') (ht : φ.takes e = true) : Derives φ ws e' := by
  cases e with
  | literal n | reference r | group e => exact loosen_atom h φ
  | dice c s ms =>
    cases φ with
    | sum => exact .product (.signed (.term h))
    | product => exact .signed (.term h)
    | signed => exact .term h
    | term => exact h
    | count | sides | atom => cases ht
  | unary op e =>
    cases φ with
    | sum => exact .product (.signed h)
    | product => exact .signed h
    | signed => exact h
    | term | count | sides | atom => cases ht
  | binary op l r =>
    simp only [Expr.phrase] at h
    cases φ with
    | sum =>
      split at h
      · exact h
      · exact .product h
    | product =>
      have ho : ¬op.isSum = true := by simpa [Phrase.takes, Expr.isSum] using ht
      rwa [if_neg ho] at h
    | signed | term | count | sides | atom => cases ht

end Derives

end Notation

end Tabletop
