import Tabletop.Integer
import Tabletop.Narrative.Face

/-!
# Tallies

How often each symbol counts. `Tally.get` reads a counter, and a tally is made from its counters by
`Tally.ofCounters`; sums and multiples are exact and fail where a counter leaves the 64-bit
integers.
-/

namespace Tabletop.Narrative

/-- The counters of the eight symbols. -/
structure Tally where
  /-- With the triumphs. -/
  success : Int64
  /-- With the despairs. -/
  failure : Int64
  advantage : Int64
  threat : Int64
  triumph : Int64
  despair : Int64
  light : Int64
  dark : Int64
deriving DecidableEq, Repr

namespace Tally

/-- The counter of a symbol. -/
def get (t : Tally) : Symbol → Int64
  | .success => t.success
  | .failure => t.failure
  | .advantage => t.advantage
  | .threat => t.threat
  | .triumph => t.triumph
  | .despair => t.despair
  | .light => t.light
  | .dark => t.dark

/-- The tally with these counters. -/
def ofCounters (f : Symbol → Int64) : Tally where
  success := f .success
  failure := f .failure
  advantage := f .advantage
  threat := f .threat
  triumph := f .triumph
  despair := f .despair
  light := f .light
  dark := f .dark

/-- The tally with these counters, if each of them is in range. -/
def checked (f : Symbol → Int) : Option Tally := do
  return {
    success := ← Tabletop.checked (f .success)
    failure := ← Tabletop.checked (f .failure)
    advantage := ← Tabletop.checked (f .advantage)
    threat := ← Tabletop.checked (f .threat)
    triumph := ← Tabletop.checked (f .triumph)
    despair := ← Tabletop.checked (f .despair)
    light := ← Tabletop.checked (f .light)
    dark := ← Tabletop.checked (f .dark) }

/-- Nothing has been counted. -/
def zero : Tally := ofCounters fun _ => 0

instance : Inhabited Tally := ⟨zero⟩

/-- The sum. -/
def add? (t u : Tally) : Option Tally :=
  checked fun s => (t.get s).toInt + (u.get s).toInt

/-- The multiple. -/
def scale? (t : Tally) (n : Nat) : Option Tally :=
  checked fun s => (t.get s).toInt * n

/-- The successes less the failures. -/
def netSuccess (t : Tally) : Int64 :=
  clamped (t.success.toInt - t.failure.toInt)

/-- The advantages less the threats. -/
def netAdvantage (t : Tally) : Int64 :=
  clamped (t.advantage.toInt - t.threat.toInt)

@[simp] theorem get_ofCounters (f : Symbol → Int64) (s : Symbol) : (ofCounters f).get s = f s := by
  cases s <;> rfl

theorem ext_get {t u : Tally} (h : ∀ s, t.get s = u.get s) : t = u := by
  have h1 := h .success
  have h2 := h .failure
  have h3 := h .advantage
  have h4 := h .threat
  have h5 := h .triumph
  have h6 := h .despair
  have h7 := h .light
  have h8 := h .dark
  cases t; cases u
  simp_all [get]

/-- A tally is made just if every counter is in range, and then it has these counters. -/
theorem checked_eq_some_iff {f : Symbol → Int} {t : Tally} :
    checked f = some t ↔ ∀ s, (t.get s).toInt = f s := by
  constructor
  · intro h
    simp only [checked, Option.pure_def, Option.bind_eq_bind, Option.bind_eq_some_iff,
      Tabletop.checked_eq_some_iff, Option.some.injEq] at h
    obtain ⟨_, h1, _, h2, _, h3, _, h4, _, h5, _, h6, _, h7, _, h8, rfl⟩ := h
    intro s
    cases s <;> assumption
  · intro h
    have hs : ∀ s, Tabletop.checked (f s) = some (t.get s) := fun s =>
      Tabletop.checked_eq_some_iff.mpr (h s)
    simp only [checked, hs, Option.pure_def, Option.bind_eq_bind, Option.bind_some,
      Option.some.injEq]
    exact ext_get fun s => by cases s <;> rfl

end Tally

namespace Face

/-- What the symbols of the face count for. -/
def tally (f : Face) : Tally :=
  .ofCounters fun s => Int64.ofNat (f.symbols.countP (·.countsAs s))

end Face

end Tabletop.Narrative
