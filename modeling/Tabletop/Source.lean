/-!
# Sources of faces

A source is asked for a number in a range and answers with one; what it answers is not trusted, and
the dice check that it is in the range.

* `Script`: replays numbers whatever range is asked for.
* `Highest`: always the top of the range.
* `Uniform`: every number of the range alike, from a generator of 64-bit words.
-/

namespace Tabletop

/-- What faces can be drawn from. -/
class Source (σ : Type) where
  /-- A number for the range from `low` to `high`, and the source behind it. -/
  next : σ → (low high : Int64) → Int64 × σ

/-! ## Scripts -/

/-- Numbers that are handed out in turn, starting over at the end. -/
structure Script where
  values : Array Int64
  /-- How many numbers have been handed out. -/
  consumed : Nat
deriving DecidableEq, Repr, Inhabited

namespace Script

/-- The script that starts with the first of the numbers. -/
def ofList (values : List Int64) : Script := ⟨values.toArray, 0⟩

/-- Always the same number. -/
def constant (value : Int64) : Script := ofList [value]

/-- The next number of the script. An empty script has none to hand out, and answers with the
bottom of the range. -/
def next (s : Script) (low : Int64) : Int64 × Script :=
  match s.values[s.consumed % s.values.size]? with
  | some value => (value, { s with consumed := s.consumed + 1 })
  | none => (low, s)

instance : Source Script := ⟨fun s low _ => s.next low⟩

end Script

/-! ## The highest face -/

/-- Answers with the top of every range. -/
structure Highest where
deriving DecidableEq, Repr, Inhabited

instance : Source Highest := ⟨fun s _ high => (high, s)⟩

/-! ## Uniform numbers -/

/-- A generator of 64-bit words. -/
class WordGenerator (γ : Type) where
  next : γ → UInt64 × γ

/-- Words that grow by the same step, modulo `2 ^ 64`. -/
structure Progression where
  word : UInt64
  step : UInt64
deriving DecidableEq, Repr, Inhabited

instance : WordGenerator Progression :=
  ⟨fun p => (p.word, { p with word := p.word + p.step })⟩

/-- A mixed progression: each word is scrambled on its way out, so that its bits look random. -/
structure SplitMix where
  state : UInt64
deriving DecidableEq, Repr, Inhabited

namespace SplitMix

/-- The next word. -/
def next (g : SplitMix) : UInt64 × SplitMix :=
  let s := g.state + 0x9e3779b97f4a7c15
  let z := (s ^^^ (s >>> 30)) * 0xbf58476d1ce4e5b9
  let z := (z ^^^ (z >>> 27)) * 0x94d049bb133111eb
  (z ^^^ (z >>> 31), ⟨s⟩)

instance : WordGenerator SplitMix := ⟨next⟩

end SplitMix

/-- A source that spreads the words of a generator over the range. -/
structure Uniform (γ : Type) where
  generator : γ
deriving Repr, Inhabited

namespace Uniform

/-- Of the words `w`, those whose `w * range` modulo `2 ^ 64` is at most this are accepted: each
number of the range then has the same share of the accepted words. -/
def zone (range : Nat) : Nat :=
  range * Nat.pow 2 (63 - range.log2) - 1

/-- A number below `range`: the high word of `w * range` for the first accepted word `w`, of at
most `tries`. -/
def below {γ : Type} [WordGenerator γ] (range : Nat) : (tries : Nat) → γ → Nat × γ
  | 0, g => (0, g)
  | n + 1, g =>
    let (w, g) := WordGenerator.next g
    let product := w.toNat * range
    if product % Nat.pow 2 64 ≤ zone range then (product / Nat.pow 2 64, g) else below range n g

/-- After `2 ^ 64` rejected words no other is to be hoped for, and the bottom of the range is
taken. -/
def next {γ : Type} [WordGenerator γ] (s : Uniform γ) (low high : Int64) :
    Int64 × Uniform γ :=
  let range := (high.toInt - low.toInt + 1).toNat
  let (n, g) := below range (Nat.pow 2 64) s.generator
  (Int64.ofInt (low.toInt + n), ⟨g⟩)

instance {γ : Type} [WordGenerator γ] : Source (Uniform γ) := ⟨next⟩

end Uniform

end Tabletop
