import Tabletop.Notation.Reader

/-!
# The grammar of dice notation

What a sequence of tokens stands for, said without the reader. The grammar sees a token as a `Word`:
its kind and its text; positions play no part.

* `Modifies ws m`: the words `ws` are the modifier `m`.
* `Chain ws ms`: the words `ws` are the modifiers `ms`. An optional argument that is there is always
  taken: no modifier ends with a word that takes the one behind it (`Kind.takes`).
* `Derives φ ws e`: the words `ws` are a phrase `φ` that stands for the expression `e`. Operators
  of one rank group to the left.
-/

namespace Tabletop.Notation

/-- A token as the grammar sees it. -/
abbrev Word := Kind × String

/-- A word of the kind `k` takes a following word of the given kind as (the start of) its optional
argument: a keep or drop takes a count, a redraw takes a face or a comparison. -/
def Kind.takes : (k next : Kind) → Bool
  | .select _, .int => true
  | .redraw _, .int => true
  | .redraw _, .compare _ => true
  | _, _ => false

/-- The words are one modifier. A count that is left out is one, and a bare face `n` stands for
the condition `=n`. -/
inductive Modifies : List Word → Modifier → Prop where
  | select {s : Selection} {t : String} : Modifies [(.select s, t)] (.select s 1)
  | selectCount {s : Selection} {t u : String} {n : UInt64} (hn : Numeral.uint64? u = some n) :
      Modifies [(.select s, t), (.int, u)] (.select s n)
  | redraw {r : Redraw} {t : String} : Modifies [(.redraw r, t)] (.redraw r none)
  | redrawFace {r : Redraw} {t u : String} {n : Int64} (hn : Numeral.int64? u = some n) :
      Modifies [(.redraw r, t), (.int, u)] (.redraw r (some (.equalTo n)))
  | redrawWhen {r : Redraw} {c : Relation} {t u v : String} {n : Int64}
      (hn : Numeral.int64? v = some n) :
      Modifies [(.redraw r, t), (.compare c, u), (.int, v)] (.redraw r (some ⟨c, n⟩))
  | countSuccesses {c : Relation} {t u : String} {n : Int64} (hn : Numeral.int64? u = some n) :
      Modifies [(.compare c, t), (.int, u)] (.countSuccesses ⟨c, n⟩)

/-- No word of `us` is taken as an argument by the last word of `ws`. -/
def Apart (ws us : List Word) : Prop :=
  ∀ w ∈ ws.getLast?, ∀ u ∈ us.head?, w.1.takes u.1 = false

/-- The words are a sequence of modifiers. -/
inductive Chain : List Word → List Modifier → Prop where
  | nil : Chain [] []
  | snoc {ws us : List Word} {ms : List Modifier} {m : Modifier} (hc : Chain ws ms)
      (hm : Modifies us m) (ha : Apart ws us) : Chain (ws ++ us) (ms ++ [m])

/-- The phrases of an expression, the loosest first. -/
inductive Phrase where
  | sum
  | product
  | signed
  | term
  | count
  | sides
  | atom
deriving DecidableEq, Repr

/-- The words are the phrase, and stand for the expression. -/
inductive Derives : Phrase → List Word → Expr → Prop where
  | product {ws : List Word} {e : Expr} (h : Derives .product ws e) : Derives .sum ws e
  | sumStep {ws us : List Word} {l r : Expr} {op : BinaryOp} {t : String} (ho : op.isSum = true)
      (hl : Derives .sum ws l) (hr : Derives .product us r) :
      Derives .sum (ws ++ (.operator op, t) :: us) (.binary op l r)
  | signed {ws : List Word} {e : Expr} (h : Derives .signed ws e) : Derives .product ws e
  | productStep {ws us : List Word} {l r : Expr} {op : BinaryOp} {t : String}
      (ho : op.isSum = false) (hl : Derives .product ws l) (hr : Derives .signed us r) :
      Derives .product (ws ++ (.operator op, t) :: us) (.binary op l r)
  | term {ws : List Word} {e : Expr} (h : Derives .term ws e) : Derives .signed ws e
  | sign {ws : List Word} {e : Expr} {op : BinaryOp} {s : UnaryOp} {t : String}
      (ho : op.sign? = some s) (h : Derives .signed ws e) :
      Derives .signed ((.operator op, t) :: ws) (.unary s e)
  | atom {ws : List Word} {e : Expr} (h : Derives .atom ws e) : Derives .term ws e
  | dice {ws us vs : List Word} {c d : Expr} {ms : List Modifier} {t : String}
      (hc : Derives .count ws c) (hd : Derives .sides us d) (hm : Chain vs ms) :
      Derives .term (ws ++ (.dice, t) :: us ++ vs) (.dice c d ms)
  | one : Derives .count [] (.literal 1)
  | count {ws : List Word} {e : Expr} (h : Derives .atom ws e) : Derives .count ws e
  | percent {t : String} : Derives .sides [(.percent, t)] (.literal 100)
  | sides {ws : List Word} {e : Expr} (h : Derives .atom ws e) : Derives .sides ws e
  | literal {t : String} {n : Int64} (hn : Numeral.int64? t = some n) :
      Derives .atom [(.int, t)] (.literal n)
  | reference {t : String} : Derives .atom [(.reference, t)] (.reference (.ofText t))
  | group {ws : List Word} {e : Expr} {t u : String} (h : Derives .sum ws e) :
      Derives .atom ((.leftParen, t) :: ws ++ [(.rightParen, u)]) (.group e)

end Tabletop.Notation
