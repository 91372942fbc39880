import Mathlib.Algebra.Ring.Int.Defs
import Tabletop.Narrative.Roll

/-!
# Dice and symbols in reading order

Groups say how an outcome is divided, and not what is rolled: a list of terms throws the dice and
adds the symbols that stand in it at any depth, from left to right.

* `termsItems`: the dice and symbols of terms, those of groups in place.
* `thrownDice`, `addedSymbols`: the dice that are thrown for them, and the symbols that are added
  without a throw.
* `termsClosings`: the groups, in the order in which they are closed, each with its share of the
  dice.
-/

namespace Tabletop.Narrative

/-! ## Counts -/

namespace Count

variable {resolve : Resolver} {c : Count}

/-- The integer that the count stands for. -/
def integer? (resolve : Resolver) : Count → Option Int64
  | literal n => some n
  | reference r => resolve r

/-- The count stands for a natural number. -/
def IsNatural (resolve : Resolver) (c : Count) : Prop :=
  ∃ n, c.integer? resolve = some n ∧ 0 ≤ n

/-- How many there are. -/
def amount (resolve : Resolver) (c : Count) : Nat :=
  ((c.integer? resolve).getD 0).toInt.toNat

theorem value_of_isNatural (h : c.IsNatural resolve) (sides : Int64) :
    c.value resolve sides = .ok (c.amount resolve) := by
  obtain ⟨n, hn, hnonneg⟩ := h
  have hnatural : value.natural sides n = .ok n.toInt.toNat :=
    if_neg (Int64.not_lt.mpr hnonneg)
  cases c with
  | literal m =>
    cases hn
    exact hnatural
  | reference r =>
    have hr : resolve r = some n := hn
    rw [value, amount, integer?, hr]
    exact hnatural

theorem value_eq_ok_iff {sides : Int64} {n : Nat} :
    c.value resolve sides = .ok n ↔ c.IsNatural resolve ∧ n = c.amount resolve := by
  constructor
  · intro h
    have hnatural : c.IsNatural resolve := by
      cases c with
      | literal m =>
        rw [value, value.natural] at h
        split at h
        · cases h
        · next hm => exact ⟨m, rfl, Int64.not_lt.mp hm⟩
      | reference r =>
        rw [value] at h
        split at h
        · next m hr =>
          rw [value.natural] at h
          split at h
          · cases h
          · next hm => exact ⟨m, hr, Int64.not_lt.mp hm⟩
        · cases h
    rw [value_of_isNatural hnatural, Except.ok.injEq] at h
    exact ⟨hnatural, h.symm⟩
  · rintro ⟨hnatural, rfl⟩
    exact value_of_isNatural hnatural sides

/-- A count has no value if it is negative or unknown. -/
theorem eq_of_value_eq_error {sides : Int64} {e : EvalError}
    (h : c.value resolve sides = .error e) :
    (∃ n, e = .invalidDice (.int n) (.int sides)) ∨ ∃ r, e = .unresolved r := by
  have hnatural : ∀ m, value.natural sides m = .error e →
      ∃ n, e = .invalidDice (.int n) (.int sides) := by
    intro m hm
    rw [value.natural] at hm
    split at hm
    · cases hm
      exact ⟨m, rfl⟩
    · cases hm
  cases c with
  | literal m => exact .inl (hnatural m h)
  | reference r =>
    rw [value] at h
    split at h
    · next m hr => exact .inl (hnatural m h)
    · cases h
      exact .inr ⟨r, rfl⟩

end Count

/-! ## Items -/

/-- Dice or symbols with their count: a term that is no group. -/
inductive Item where
  | dice (count : Count) (die : SymbolDie)
  | symbols (count : Count) (face : Face)
deriving DecidableEq, Repr, Inhabited

namespace Item

def count : Item → Count
  | dice count _ => count
  | symbols count _ => count

/-- The dice that are thrown for the item. -/
def thrown (resolve : Resolver) : Item → List SymbolDie
  | dice count d => List.replicate (count.amount resolve) d
  | symbols .. => []

/-- What the item adds to the counter of a symbol without a throw. -/
def added (resolve : Resolver) (s : Symbol) : Item → Int
  | dice .. => 0
  | symbols count f => count.amount resolve * (f.tally.get s).toInt

end Item

mutual

/-- The dice and symbols of a term in reading order, those of groups in place. -/
def Term.items : Term → List Item
  | .dice count d => [.dice count d]
  | .symbols count f => [.symbols count f]
  | .group _ terms => termsItems terms

/-- The dice and symbols of terms in reading order. -/
def termsItems : List Term → List Item
  | [] => []
  | t :: terms => t.items ++ termsItems terms

end

theorem termsItems_append (terms more : List Term) :
    termsItems (terms ++ more) = termsItems terms ++ termsItems more := by
  induction terms with
  | nil => rfl
  | cons term terms ih =>
    rw [List.cons_append, termsItems, termsItems, ih, List.append_assoc]

/-- The dice that are thrown for items, in order. -/
def thrownDice (resolve : Resolver) (items : List Item) : List SymbolDie :=
  items.flatMap (Item.thrown resolve)

/-- What items add to the counter of a symbol without a throw. -/
def addedSymbols (resolve : Resolver) (items : List Item) (s : Symbol) : Int :=
  (items.map (Item.added resolve s)).sum

/-- What thrown faces count for a symbol. -/
def shownSymbols (throws : List Throw) (s : Symbol) : Int :=
  (throws.map fun th => (th.face.tally.get s).toInt).sum

/-- The exact number of a symbol, when the dice of the items show the faces thrown. -/
def symbolTotal (resolve : Resolver) (items : List Item) (throws : List Throw) (s : Symbol) : Int :=
  shownSymbols throws s + addedSymbols resolve items s

section

variable {resolve : Resolver}

@[simp] theorem thrownDice_dice (count : Count) (d : SymbolDie) :
    thrownDice resolve [.dice count d] = List.replicate (count.amount resolve) d :=
  List.append_nil _

@[simp] theorem addedSymbols_dice (count : Count) (d : SymbolDie) (s : Symbol) :
    addedSymbols resolve [.dice count d] s = 0 := rfl

@[simp] theorem addedSymbols_symbols (count : Count) (f : Face) (s : Symbol) :
    addedSymbols resolve [.symbols count f] s = count.amount resolve * (f.tally.get s).toInt :=
  Int.add_zero _

@[simp] theorem shownSymbols_nil (s : Symbol) : shownSymbols [] s = 0 := rfl

theorem thrownDice_append (is js : List Item) :
    thrownDice resolve (is ++ js) = thrownDice resolve is ++ thrownDice resolve js :=
  List.flatMap_append

theorem addedSymbols_append (is js : List Item) (s : Symbol) :
    addedSymbols resolve (is ++ js) s = addedSymbols resolve is s + addedSymbols resolve js s := by
  rw [addedSymbols, List.map_append, List.sum_append]
  rfl

theorem shownSymbols_append (throws more : List Throw) (s : Symbol) :
    shownSymbols (throws ++ more) s = shownSymbols throws s + shownSymbols more s := by
  rw [shownSymbols, List.map_append, List.sum_append]
  rfl

theorem symbolTotal_append (is js : List Item) (throws more : List Throw) (s : Symbol) :
    symbolTotal resolve (is ++ js) (throws ++ more) s =
      symbolTotal resolve is throws s + symbolTotal resolve js more s := by
  rw [symbolTotal, shownSymbols_append, addedSymbols_append, symbolTotal, symbolTotal]
  omega

end

/-! ## Groups -/

/-- A group, and the throws of the dice in it. -/
structure Closing where
  name : String
  terms : List Term
  throws : List Throw

mutual

/-- The groups in a term, when its dice show the faces thrown; a group stands behind those in
it. -/
def Term.closings (resolve : Resolver) : Term → List Throw → List Closing
  | .dice .., _ => []
  | .symbols .., _ => []
  | .group name terms, throws => termsClosings resolve terms throws ++ [⟨name, terms, throws⟩]

/-- The groups in a list of terms, in the order in which they are closed. -/
def termsClosings (resolve : Resolver) : List Term → List Throw → List Closing
  | [], _ => []
  | t :: terms, throws =>
    let n := (thrownDice resolve t.items).length
    t.closings resolve (throws.take n) ++ termsClosings resolve terms (throws.drop n)

end

/-- Each term takes the throws of its own dice. -/
theorem termsClosings_cons_append {resolve : Resolver} {t : Term} {throws : List Throw}
    (h : throws.map Throw.die = thrownDice resolve t.items) (terms : List Term)
    (more : List Throw) :
    termsClosings resolve (t :: terms) (throws ++ more) =
      t.closings resolve throws ++ termsClosings resolve terms more := by
  have hlength : (thrownDice resolve t.items).length = throws.length := by
    rw [← h, List.length_map]
  rw [termsClosings]
  simp only [hlength, List.take_left, List.drop_left]

end Tabletop.Narrative
