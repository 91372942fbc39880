import Tabletop.Proofs.Dice.Tray

/-!
# What a computation does on every tray

`Ensures x Q`: on every tray, the calls that `x` makes and what comes of it, a value or an error,
are in the relation `Q`. Unlike a fact about a run that succeeds, it says what has been drawn when
the computation fails.

* `Ensures.bind`: the calls of two computations follow one another, and a failure of the first
  leaves out the second.
* `Ensures.ask`, `Ensures.draw`: one call, and what its answer leads to.
* `CallsAtMost x n`: no more than `n` calls are made.
* `FailsWith x E`: `x` fails with errors of the kind `E` alone, or reports an answer out of range;
  `FailsOnly x E` leaves out the runs with such an answer.
* `FollowsSource x`: the answers of the source decide what comes of `x`, also when it fails.

The last three go through all loops of a roll (`CallsAtMost.composes`, `FailsWith.composes`,
`FollowsSource.composes`).
-/

namespace Tabletop

variable {σ α β : Type} [Source σ]

/-- The answer is in the range asked for. -/
def Call.InRange (c : Call) : Prop :=
  c.low ≤ c.value ∧ c.value ≤ c.high

/-- On every tray, the calls that are made and what comes of them are in the relation. -/
def Ensures (x : Rolling σ α) (Q : List Call → Except EvalError α → Prop) : Prop :=
  ∀ t : Tray σ, ∃ cs, t.Adds cs (t.roll x).2 ∧ Q cs (t.roll x).1

namespace Ensures

variable {x : Rolling σ α} {f : α → Rolling σ β} {Q Q' : List Call → Except EvalError α → Prop}
  {R : List Call → Except EvalError β → Prop}

theorem mono (h : Ensures x Q) (hq : ∀ cs r, Q cs r → Q' cs r) : Ensures x Q' := by
  intro t
  obtain ⟨cs, hcs, hQ⟩ := h t
  exact ⟨cs, hcs, hq _ _ hQ⟩

/-- What is known of the runs that succeed holds of them beside the rest. -/
theorem and_ok {S : List Call → α → Prop} (h : Ensures x Q)
    (hs : ∀ (t : Tray σ) (a : α) (t' : Tray σ), t.roll x = (.ok a, t') →
      ∃ cs, t.Adds cs t' ∧ S cs a) :
    Ensures x fun cs r => Q cs r ∧ ∀ a, r = .ok a → S cs a := by
  intro t
  obtain ⟨cs, hcs, hQ⟩ := h t
  refine ⟨cs, hcs, hQ, fun a ha => ?_⟩
  obtain ⟨ds, hds, hS⟩ := hs t a (t.roll x).2 (by rw [← ha])
  rwa [hcs.unique hds]

protected theorem pure {a : α} (h : Q [] (.ok a)) : Ensures (pure a : Rolling σ α) Q :=
  fun _ => ⟨[], Tray.adds_nil_iff.mpr rfl, h⟩

protected theorem throw {e : EvalError} (h : Q [] (.error e)) : Ensures (throw e : Rolling σ α) Q :=
  fun _ => ⟨[], Tray.adds_nil_iff.mpr rfl, h⟩

protected theorem liftM {r : Except EvalError α} (h : Q [] r) :
    Ensures (liftM r : Rolling σ α) Q :=
  fun _ => ⟨[], Tray.adds_nil_iff.mpr rfl, h⟩

protected theorem orOverflow {o : Option α} (hsome : ∀ a, o = some a → Q [] (.ok a))
    (hnone : o = none → Q [] (.error .overflow)) :
    Ensures (Rolling.orOverflow o : Rolling σ α) Q := by
  cases o with
  | some a => exact .pure (hsome a rfl)
  | none => exact .throw (hnone rfl)

/-- The second computation goes on with the value of the first, and is left out if that fails. -/
theorem bind (hx : Ensures x Q)
    (hok : ∀ cs a, Q cs (.ok a) → Ensures (f a) fun ds r => R (cs ++ ds) r)
    (herror : ∀ cs e, Q cs (.error e) → R cs (.error e)) : Ensures (x >>= f) R := by
  intro t
  obtain ⟨cs, hcs, hQ⟩ := hx t
  rw [Tray.roll_bind]
  generalize t.roll x = run at hcs hQ
  obtain ⟨e | a, t₁⟩ := run
  · exact ⟨cs, hcs, herror cs e hQ⟩
  · obtain ⟨ds, hds, hR⟩ := hok cs a hQ t₁
    exact ⟨cs ++ ds, Tray.adds_append_iff.mpr ⟨t₁, hcs, hds⟩, hR⟩

protected theorem ask (sides : Int64) :
    Ensures (Rolling.ask sides : Rolling σ Int64) fun cs r =>
      ∃ value, cs = [⟨1, sides, value⟩] ∧ r = .ok value := by
  intro t
  rw [Tray.roll_ask]
  exact ⟨_, Tray.call_eq_iff.mp rfl, _, rfl, rfl⟩

/-- A draw makes one call, whose answer is a face or is refused. -/
protected theorem draw (sides : Int64) :
    Ensures (Rolling.draw sides : Rolling σ Int64) fun cs r =>
      ∃ value, cs = [⟨1, sides, value⟩] ∧
        r = if 1 ≤ value ∧ value ≤ sides then .ok value
          else .error (.outOfRange value 1 sides) := by
  refine (Ensures.ask sides).bind ?_ (by simp)
  rintro _ face ⟨_, rfl, hface⟩
  cases hface
  split
  · next hin => exact .pure ⟨face, rfl, (if_pos hin).symm⟩
  · next hout => exact .throw ⟨face, rfl, (if_neg hout).symm⟩

end Ensures

/-! ## The number of calls -/

/-- At most `n` calls are made, whether the computation succeeds or fails. -/
def CallsAtMost (x : Rolling σ α) (n : Nat) : Prop :=
  Ensures x fun cs _ => cs.length ≤ n

namespace CallsAtMost

variable {x : Rolling σ α} {f : α → Rolling σ β} {m n : Nat}

theorem mono (h : CallsAtMost x m) (hmn : m ≤ n) : CallsAtMost x n :=
  Ensures.mono h fun _ _ hcs => Nat.le_trans hcs hmn

protected theorem pure (a : α) (n : Nat) : CallsAtMost (pure a : Rolling σ α) n :=
  Ensures.pure (Nat.zero_le n)

protected theorem throw (e : EvalError) (n : Nat) : CallsAtMost (throw e : Rolling σ α) n :=
  Ensures.throw (Nat.zero_le n)

/-- The second computation may use what the first has left. -/
theorem bind (hx : CallsAtMost x m) (hf : ∀ a, CallsAtMost (f a) n) :
    CallsAtMost (x >>= f) (m + n) := by
  refine Ensures.bind hx (fun cs a hcs => Ensures.mono (hf a) fun ds r hds => ?_)
    fun cs e hcs => Nat.le_add_right_of_le hcs
  rw [List.length_append]
  exact Nat.add_le_add hcs hds

protected theorem draw (sides : Int64) :
    CallsAtMost (Rolling.draw sides : Rolling σ Int64) 1 :=
  (Ensures.draw sides).mono fun cs r ⟨_, hcs, _⟩ => by simp [hcs]

theorem composes : Composes (fun _ => True)
    fun _ (x : Rolling σ _) (_ : Rolling σ _) n => CallsAtMost x n where
  pure a n := .pure a n
  throw _ _ n := .throw _ n
  bind hx hf := hx.bind hf
  draw sides := .draw sides
  mono hx hmn := hx.mono hmn

end CallsAtMost

/-! ## Errors -/

/-- Nothing but an error of the given kind goes wrong, or the source answers out of range and that
answer is reported. -/
def FailsWith (x : Rolling σ α) (E : EvalError → Prop) : Prop :=
  Ensures x fun cs r => ∀ e, r = .error e →
    E e ∨ ∃ c ∈ cs, ¬c.InRange ∧ e = .outOfRange c.value c.low c.high

/-- As long as the answers are in range, nothing but an error of the given kind goes wrong. -/
def FailsOnly (x : Rolling σ α) (E : EvalError → Prop) : Prop :=
  Ensures x fun cs r => (∀ c ∈ cs, c.InRange) → ∀ e, r = .error e → E e

namespace FailsWith

variable {x : Rolling σ α} {f : α → Rolling σ β} {E : EvalError → Prop}

theorem failsOnly (h : FailsWith x E) : FailsOnly x E := by
  refine Ensures.mono h fun cs r hr hin e he => (hr e he).resolve_right ?_
  rintro ⟨c, hc, hout, -⟩
  exact hout (hin c hc)

protected theorem pure (a : α) (E : EvalError → Prop) : FailsWith (pure a : Rolling σ α) E :=
  Ensures.pure (by simp)

protected theorem throw {e : EvalError} (h : E e) : FailsWith (throw e : Rolling σ α) E :=
  Ensures.throw (by simpa using h)

theorem bind (hx : FailsWith x E) (hf : ∀ a, FailsWith (f a) E) : FailsWith (x >>= f) E := by
  refine Ensures.bind hx (fun cs a _ => Ensures.mono (hf a) fun ds r hr e he => ?_)
    fun cs e he e' he' => ?_
  · refine (hr e he).imp_right ?_
    rintro ⟨c, hc, hout⟩
    exact ⟨c, List.mem_append_right cs hc, hout⟩
  · cases he'
    exact he e rfl

/-- A draw fails for an answer out of range alone. -/
protected theorem draw (sides : Int64) (E : EvalError → Prop) :
    FailsWith (Rolling.draw sides : Rolling σ Int64) E := by
  refine (Ensures.draw sides).mono ?_
  rintro cs r ⟨value, rfl, rfl⟩ e he
  split at he
  · cases he
  · next hout =>
    cases he
    exact .inr ⟨_, List.mem_cons_self, hout, rfl⟩

theorem composes (E : EvalError → Prop) :
    Composes E fun _ (x : Rolling σ _) (_ : Rolling σ _) _ => FailsWith x E where
  pure a _ := .pure a E
  throw he _ _ := .throw he
  bind hx hf := hx.bind hf
  draw sides := .draw sides E
  mono hx _ := hx

end FailsWith

namespace FailsOnly

variable {x : Rolling σ α} {f : α → Rolling σ β} {E : EvalError → Prop}

protected theorem pure (a : α) (E : EvalError → Prop) : FailsOnly (pure a : Rolling σ α) E :=
  (FailsWith.pure a E).failsOnly

theorem bind (hx : FailsOnly x E) (hf : ∀ a, FailsOnly (f a) E) : FailsOnly (x >>= f) E := by
  refine Ensures.bind hx (fun cs a _ => Ensures.mono (hf a) fun ds r hr hin => ?_)
    fun cs e he hin e' he' => ?_
  · exact hr (List.forall_mem_append.mp hin).2
  · cases he'
    exact he hin e rfl

end FailsOnly

/-! ## The source decides -/

/-- What comes of the computation, a value or an error, comes of it on every tray whose source gives
the same answers. -/
def FollowsSource (x : Rolling σ α) : Prop :=
  Ensures x fun cs r => ∀ u u' : Tray σ, u.Adds cs u' → u.roll x = (r, u')

namespace FollowsSource

variable {x : Rolling σ α} {f : α → Rolling σ β}

protected theorem pure (a : α) : FollowsSource (pure a : Rolling σ α) :=
  Ensures.pure fun u u' hu => by rw [Tray.adds_nil_iff.mp hu, Tray.roll_pure]

protected theorem throw (e : EvalError) : FollowsSource (throw e : Rolling σ α) :=
  Ensures.throw fun u u' hu => by rw [Tray.adds_nil_iff.mp hu, Tray.roll_throw]

protected theorem ask (sides : Int64) : FollowsSource (Rolling.ask sides : Rolling σ Int64) := by
  refine (Ensures.ask sides).mono ?_
  rintro _ _ ⟨value, rfl, rfl⟩ u u' hu
  rw [Tray.roll_ask, Tray.call_eq_iff.mpr hu]

theorem bind (hx : FollowsSource x) (hf : ∀ a, FollowsSource (f a)) :
    FollowsSource (x >>= f) := by
  refine Ensures.bind hx (fun cs a ha => Ensures.mono (hf a) fun ds r hr u u' hu => ?_)
    fun cs e he u u' hu => Tray.roll_bind_of_error (he u u' hu) f
  obtain ⟨u₁, hu₁, hu'⟩ := Tray.adds_append_iff.mp hu
  rw [Tray.roll_bind_of_ok (ha u u₁ hu₁), hr u₁ u' hu']

protected theorem draw (sides : Int64) : FollowsSource (Rolling.draw sides : Rolling σ Int64) := by
  refine (FollowsSource.ask sides).bind fun face => ?_
  split
  · exact .pure face
  · exact .throw _

theorem composes : Composes (fun _ => True)
    fun _ (x : Rolling σ _) (_ : Rolling σ _) _ => FollowsSource x where
  pure a _ := .pure a
  throw _ _ _ := .throw _
  bind hx hf := hx.bind hf
  draw sides := .draw sides
  mono hx _ := hx

/-- On two trays with the same source, the same calls lead to the same. -/
theorem exists_adds (h : FollowsSource x) {t u : Tray σ} (hs : t.source = u.source) :
    ∃ cs, t.Adds cs (t.roll x).2 ∧ u.Adds cs (u.roll x).2 ∧ (t.roll x).1 = (u.roll x).1 := by
  obtain ⟨cs, hcs, hx⟩ := h t
  have hu : u.Adds cs ⟨(t.roll x).2.source, (u.calls.toList ++ cs).toArray⟩ :=
    ⟨rfl, hs ▸ hcs.2⟩
  have hroll := hx u _ hu
  refine ⟨cs, hcs, ?_, ?_⟩
  · rw [hroll]
    exact hu
  · rw [hroll]

end FollowsSource

end Tabletop
