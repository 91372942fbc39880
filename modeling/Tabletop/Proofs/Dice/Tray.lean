import Tabletop.Proofs.Dice.Composing

/-!
# Runs on a tray

How a computation goes through a tray, and that nothing but the answers of the source decides it.

* `Tray.roll_bind_eq_ok_iff`: a run of two computations is a run of the one and then of the other.
* `Answers s cs s'`: the source `s` gives the answers recorded in the calls `cs`, and is left as
  `s'`.
* `Tray.Draws t sides faces t'`: the faces are drawn one after the other.
* `Repeats x y`: a run of `x` that succeeds records the answers it was given, and `y` gives the same
  value on every source that gives these answers. It goes through `pure`, `>>=` and `draw`
  (`Repeats.composes`), and so through all loops.
-/

namespace Tabletop

variable {σ τ α β : Type}

namespace Tray

variable {t t' : Tray σ}

theorem roll_pure (t : Tray σ) (a : α) : t.roll (pure a) = (.ok a, t) := rfl

theorem roll_throw (t : Tray σ) (e : EvalError) :
    t.roll (throw e : Rolling σ α) = (.error e, t) := rfl

theorem roll_pure_eq_ok_iff {a b : α} :
    t.roll (pure a) = (.ok b, t') ↔ b = a ∧ t' = t := by
  rw [roll_pure, Prod.mk.injEq, Except.ok.injEq, eq_comm, @eq_comm _ t]

theorem roll_bind (t : Tray σ) (x : Rolling σ α) (f : α → Rolling σ β) :
    t.roll (x >>= f) = match t.roll x with
      | (.ok a, t₁) => t₁.roll (f a)
      | (.error e, t₁) => (.error e, t₁) := by
  change (ExceptT.bindCont f (t.roll x).1).run (t.roll x).2 = _
  rcases t.roll x with ⟨_ | a, t₁⟩ <;> rfl

theorem roll_bind_of_ok {x : Rolling σ α} {a : α} (h : t.roll x = (.ok a, t'))
    (f : α → Rolling σ β) : t.roll (x >>= f) = t'.roll (f a) := by
  rw [roll_bind, h]

theorem roll_bind_of_error {x : Rolling σ α} {e : EvalError} (h : t.roll x = (.error e, t'))
    (f : α → Rolling σ β) : t.roll (x >>= f) = (.error e, t') := by
  rw [roll_bind, h]

/-- A run of two computations, the second with the value of the first. -/
theorem roll_bind_eq_ok_iff {x : Rolling σ α} {f : α → Rolling σ β} {b : β} :
    t.roll (x >>= f) = (.ok b, t') ↔
      ∃ a t₁, t.roll x = (.ok a, t₁) ∧ t₁.roll (f a) = (.ok b, t') := by
  rw [roll_bind]
  rcases t.roll x with ⟨e | a, t₁⟩
  · simp
  · constructor
    · exact fun h => ⟨a, t₁, rfl, h⟩
    · rintro ⟨a, t₁, h, hf⟩
      cases h
      exact hf

/-- A run of two computations that fails fails in the one or in the other. -/
theorem roll_bind_eq_error_iff {x : Rolling σ α} {f : α → Rolling σ β} {e : EvalError} :
    t.roll (x >>= f) = (.error e, t') ↔
      t.roll x = (.error e, t') ∨
        ∃ a t₁, t.roll x = (.ok a, t₁) ∧ t₁.roll (f a) = (.error e, t') := by
  rw [roll_bind]
  rcases t.roll x with ⟨e' | a, t₁⟩
  · simp
  · simp only [Prod.mk.injEq, reduceCtorEq, false_and, false_or]
    constructor
    · exact fun h => ⟨a, t₁, ⟨rfl, rfl⟩, h⟩
    · rintro ⟨a, t₁, ⟨h, rfl⟩, hf⟩
      cases h
      exact hf

theorem roll_liftM_eq_iff {x r : Except EvalError α} :
    t.roll (liftM x : Rolling σ α) = (r, t') ↔ x = r ∧ t' = t := by
  have hlift : t.roll (liftM x : Rolling σ α) = (x, t) := rfl
  rw [hlift, Prod.mk.injEq, @eq_comm _ t]

theorem roll_orOverflow_eq_ok_iff {o : Option α} {a : α} :
    t.roll (Rolling.orOverflow o) = (.ok a, t') ↔ o = some a ∧ t' = t := by
  cases o with
  | none => simp [Rolling.orOverflow, roll_throw]
  | some b => rw [Rolling.orOverflow, roll_pure_eq_ok_iff, Option.some.injEq, @eq_comm _ a]

theorem roll_ask [Source σ] (t : Tray σ) (sides : Int64) :
    t.roll (Rolling.ask sides) = (.ok (t.call 1 sides).1, (t.call 1 sides).2) := rfl

/-- A draw makes one call and gives its answer, which is a face. -/
theorem roll_draw_eq_ok_iff [Source σ] {sides face : Int64} :
    t.roll (Rolling.draw sides) = (.ok face, t') ↔
      t.call 1 sides = (face, t') ∧ 1 ≤ face ∧ face ≤ sides := by
  unfold Rolling.draw
  rw [roll_bind_eq_ok_iff]
  constructor
  · rintro ⟨a, t₁, hask, h⟩
    rw [roll_ask] at hask
    cases hask
    split at h
    · next hin =>
      obtain ⟨rfl, rfl⟩ := roll_pure_eq_ok_iff.mp h
      exact ⟨rfl, hin⟩
    · rw [roll_throw] at h
      cases h
  · rintro ⟨hcall, hin⟩
    refine ⟨face, t', ?_, ?_⟩
    · rw [roll_ask, hcall]
    · rw [if_pos hin]
      exact roll_pure_eq_ok_iff.mpr ⟨rfl, rfl⟩

/-- A draw that fails has been given a number that is no face. -/
theorem roll_draw_eq_error_iff [Source σ] {sides : Int64} {e : EvalError} :
    t.roll (Rolling.draw sides) = (.error e, t') ↔ ∃ value, t.call 1 sides = (value, t') ∧
      ¬(1 ≤ value ∧ value ≤ sides) ∧ e = .outOfRange value 1 sides := by
  unfold Rolling.draw
  rw [roll_bind_eq_error_iff, roll_ask]
  constructor
  · rintro (hask | ⟨value, t₁, hask, h⟩)
    · cases hask
    · cases hask
      split at h
      · cases h
      · next hout =>
        cases h
        exact ⟨_, rfl, hout, rfl⟩
  · rintro ⟨value, hcall, hout, rfl⟩
    refine .inr ⟨value, t', by rw [hcall], ?_⟩
    rw [if_neg hout, roll_throw]

end Tray

/-! ## The answers of a source -/

/-- The range that a call asks for. -/
def Call.range (c : Call) : Int64 × Int64 :=
  (c.low, c.high)

/-- The source gives the answers of the calls, one after the other, and is left as the last one. -/
def Answers [Source σ] : σ → List Call → σ → Prop
  | s, [], s' => s' = s
  | s, c :: cs, s' =>
    (Source.next s c.low c.high).1 = c.value ∧ Answers (Source.next s c.low c.high).2 cs s'

theorem answers_append_iff [Source σ] {s s₂ : σ} {cs ds : List Call} :
    Answers s (cs ++ ds) s₂ ↔ ∃ s₁, Answers s cs s₁ ∧ Answers s₁ ds s₂ := by
  constructor
  · intro h
    induction cs generalizing s with
    | nil => exact ⟨s, rfl, h⟩
    | cons c cs ih =>
      obtain ⟨s₁, hcs, hds⟩ := ih h.2
      exact ⟨s₁, ⟨h.1, hcs⟩, hds⟩
  · rintro ⟨s₁, h, h'⟩
    induction cs generalizing s with
    | nil =>
      cases h
      exact h'
    | cons c cs ih => exact ⟨h.1, ih h.2⟩

namespace Answers

variable [Source σ] {s s₁ s₂ : σ} {cs ds : List Call}

theorem unique (h : Answers s cs s₁) (h' : Answers s cs s₂) : s₁ = s₂ := by
  induction cs generalizing s with
  | nil => exact h.trans h'.symm
  | cons c cs ih => exact ih h.2 h'.2

/-- A source that is asked for the same ranges gives the same answers. -/
theorem isPrefix_calls (h : Answers s cs s₁) (h' : Answers s ds s₂)
    (hrange : cs.map Call.range <+: ds.map Call.range) : cs <+: ds := by
  induction cs generalizing s ds with
  | nil => exact List.nil_prefix
  | cons c cs ih =>
    cases ds with
    | nil => simp at hrange
    | cons d ds =>
      rw [List.map_cons, List.map_cons, List.cons_prefix_cons] at hrange
      obtain ⟨hcd, hrest⟩ := hrange
      obtain ⟨hlow, hhigh⟩ := Prod.mk.inj hcd
      have hvalue : c.value = d.value := by rw [← h.1, ← h'.1, hlow, hhigh]
      obtain rfl : c = d := by
        cases c
        cases d
        simp_all
      exact List.cons_prefix_cons.mpr ⟨rfl, ih h.2 h'.2 hrest⟩

end Answers

namespace Tray

variable [Source σ] {t t' : Tray σ} {cs ds : List Call}

/-- From `t` to `t'` the source has been called just for `cs`, and has given their answers. -/
def Adds (t : Tray σ) (cs : List Call) (t' : Tray σ) : Prop :=
  t'.calls.toList = t.calls.toList ++ cs ∧ Answers t.source cs t'.source

theorem adds_nil_iff : t.Adds [] t' ↔ t' = t := by
  obtain ⟨s, calls⟩ := t
  obtain ⟨s', calls'⟩ := t'
  rw [Adds, List.append_nil, Array.toList_inj, and_comm, Tray.mk.injEq]
  rfl

theorem Adds.unique (h : t.Adds cs t') (h' : t.Adds ds t') : cs = ds :=
  List.append_cancel_left (h.1.symm.trans h'.1)

theorem Adds.tray_unique {t₁ t₂ : Tray σ} (h : t.Adds cs t₁) (h' : t.Adds cs t₂) : t₁ = t₂ := by
  obtain ⟨s₁, calls₁⟩ := t₁
  obtain ⟨s₂, calls₂⟩ := t₂
  rw [Tray.mk.injEq]
  exact ⟨h.2.unique h'.2, Array.toList_inj.mp (h.1.trans h'.1.symm)⟩

theorem adds_append_iff : t.Adds (cs ++ ds) t' ↔ ∃ t₁, t.Adds cs t₁ ∧ t₁.Adds ds t' := by
  unfold Adds
  rw [answers_append_iff]
  constructor
  · rintro ⟨hcalls, s₁, hcs, hds⟩
    refine ⟨⟨s₁, (t.calls.toList ++ cs).toArray⟩, ⟨rfl, hcs⟩, ?_, hds⟩
    rw [hcalls, List.append_assoc]
  · rintro ⟨t₁, ⟨hcalls, hcs⟩, hcalls', hds⟩
    exact ⟨by rw [hcalls', hcalls, List.append_assoc], t₁.source, hcs, hds⟩

/-- One call adds its record. -/
theorem call_eq_iff {low high value : Int64} :
    t.call low high = (value, t') ↔ t.Adds [⟨low, high, value⟩] t' := by
  obtain ⟨s', calls'⟩ := t'
  unfold call Adds Answers
  rw [Prod.mk.injEq, Tray.mk.injEq, ← Array.toList_inj, Array.toList_push]
  constructor
  · rintro ⟨hvalue, hs, hcalls⟩
    exact ⟨by rw [← hcalls, hvalue], hvalue, hs.symm⟩
  · rintro ⟨hcalls, hvalue, hs⟩
    exact ⟨hvalue, hs.symm, by rw [hcalls, hvalue]⟩

/-- From `t` to `t'` the faces are drawn one after the other, of dice with `sides` faces. -/
structure Draws (t : Tray σ) (sides : Int64) (faces : List Int64) (t' : Tray σ) : Prop where
  adds : t.Adds (faces.map (Call.mk 1 sides)) t'
  mem : ∀ face ∈ faces, 1 ≤ face ∧ face ≤ sides

theorem draws_nil (t : Tray σ) (sides : Int64) : t.Draws sides [] t :=
  ⟨adds_nil_iff.mpr rfl, by simp⟩

theorem draws_of_draw {sides face : Int64} (h : t.roll (Rolling.draw sides) = (.ok face, t')) :
    t.Draws sides [face] t' := by
  obtain ⟨hcall, hin⟩ := roll_draw_eq_ok_iff.mp h
  exact ⟨call_eq_iff.mp hcall, by simpa using hin⟩

namespace Draws

variable {t₁ : Tray σ} {sides : Int64} {faces faces' : List Int64}

theorem append (h : t.Draws sides faces t₁) (h' : t₁.Draws sides faces' t') :
    t.Draws sides (faces ++ faces') t' := by
  refine ⟨?_, List.forall_mem_append.mpr ⟨h.mem, h'.mem⟩⟩
  rw [List.map_append]
  exact adds_append_iff.mpr ⟨t₁, h.adds, h'.adds⟩

theorem one_le (h : t.Draws sides faces t') : ∀ face ∈ faces, 1 ≤ face.toInt :=
  fun face hface => Int64.le_iff_toInt_le.mp (h.mem face hface).1

end Draws

theorem draws_nil_iff {sides : Int64} : t.Draws sides [] t' ↔ t' = t := by
  constructor
  · exact fun h => adds_nil_iff.mp h.adds
  · rintro rfl
    exact draws_nil t' sides

/-- Faces that are drawn are drawn up to any place, and from there on. -/
theorem draws_append_iff {sides : Int64} {faces faces' : List Int64} :
    t.Draws sides (faces ++ faces') t' ↔
      ∃ t₁, t.Draws sides faces t₁ ∧ t₁.Draws sides faces' t' := by
  constructor
  · intro h
    have hadds := h.adds
    rw [List.map_append] at hadds
    obtain ⟨t₁, hfaces, hfaces'⟩ := adds_append_iff.mp hadds
    obtain ⟨hmem, hmem'⟩ := List.forall_mem_append.mp h.mem
    exact ⟨t₁, ⟨hfaces, hmem⟩, hfaces', hmem'⟩
  · rintro ⟨t₁, h, h'⟩
    exact h.append h'

theorem draws_cons_iff {sides face : Int64} {faces : List Int64} :
    t.Draws sides (face :: faces) t' ↔
      ∃ t₁, t.roll (Rolling.draw sides) = (.ok face, t₁) ∧ t₁.Draws sides faces t' := by
  rw [← List.singleton_append, draws_append_iff]
  constructor
  · rintro ⟨t₁, h, h'⟩
    have hin := h.mem face List.mem_cons_self
    exact ⟨t₁, roll_draw_eq_ok_iff.mpr ⟨call_eq_iff.mpr h.adds, hin⟩, h'⟩
  · rintro ⟨t₁, h, h'⟩
    exact ⟨t₁, draws_of_draw h, h'⟩

end Tray

/-! ## Runs that repeat each other -/

/-- A run of `x` that succeeds is recorded, and `y` gives its value wherever the source gives the
answers of the record. -/
def Repeats [Source σ] [Source τ] (x : Rolling σ α) (y : Rolling τ α) : Prop :=
  ∀ (t : Tray σ) (a : α) (t' : Tray σ), t.roll x = (.ok a, t') →
    ∃ cs, t.Adds cs t' ∧ ∀ u u' : Tray τ, u.Adds cs u' → u.roll y = (.ok a, u')

namespace Repeats

variable [Source σ] [Source τ]

/-- On one and the same tray the run itself is repeated. -/
theorem roll_eq_ok {x y : Rolling σ α} (h : Repeats x y) {t t' : Tray σ} {a : α}
    (ht : t.roll x = (.ok a, t')) : t.roll y = (.ok a, t') := by
  obtain ⟨cs, hcs, hy⟩ := h t a t' ht
  exact hy t t' hcs

protected theorem pure (a : α) : Repeats (pure a : Rolling σ α) (pure a : Rolling τ α) := by
  intro t b t' h
  obtain ⟨rfl, rfl⟩ := Tray.roll_pure_eq_ok_iff.mp h
  refine ⟨[], Tray.adds_nil_iff.mpr rfl, fun u u' hu => ?_⟩
  rw [Tray.adds_nil_iff.mp hu]
  rfl

/-- What always fails is repeated by anything. -/
theorem throw_left (e : EvalError) (y : Rolling τ α) : Repeats (throw e : Rolling σ α) y := by
  intro t a t' h
  rw [Tray.roll_throw] at h
  cases h

theorem bind {x : Rolling σ α} {y : Rolling τ α} {f : α → Rolling σ β} {g : α → Rolling τ β}
    (hx : Repeats x y) (hf : ∀ a, Repeats (f a) (g a)) : Repeats (x >>= f) (y >>= g) := by
  intro t b t' h
  obtain ⟨a, t₁, ha, hb⟩ := Tray.roll_bind_eq_ok_iff.mp h
  obtain ⟨cs, hcs, hy⟩ := hx t a t₁ ha
  obtain ⟨ds, hds, hg⟩ := hf a t₁ b t' hb
  refine ⟨cs ++ ds, Tray.adds_append_iff.mpr ⟨t₁, hcs, hds⟩, fun u u' hu => ?_⟩
  obtain ⟨u₁, hu₁, hu'⟩ := Tray.adds_append_iff.mp hu
  exact Tray.roll_bind_eq_ok_iff.mpr ⟨a, u₁, hy u u₁ hu₁, hg u₁ u' hu'⟩

protected theorem ask (sides : Int64) :
    Repeats (Rolling.ask sides : Rolling σ Int64) (Rolling.ask sides : Rolling τ Int64) := by
  intro t value t' h
  rw [Tray.roll_ask] at h
  have hcall : t.call 1 sides = (value, t') := by
    cases h
    rfl
  refine ⟨[⟨1, sides, value⟩], Tray.call_eq_iff.mp hcall, fun u u' hu => ?_⟩
  rw [Tray.roll_ask, Tray.call_eq_iff.mpr hu]

protected theorem draw (sides : Int64) :
    Repeats (Rolling.draw sides : Rolling σ Int64) (Rolling.draw sides : Rolling τ Int64) := by
  intro t face t' h
  obtain ⟨hcall, hin⟩ := Tray.roll_draw_eq_ok_iff.mp h
  exact ⟨[⟨1, sides, face⟩], Tray.call_eq_iff.mp hcall,
    fun u u' hu => Tray.roll_draw_eq_ok_iff.mpr ⟨Tray.call_eq_iff.mpr hu, hin⟩⟩

theorem composes : Composes (fun _ => True)
    fun _ (x : Rolling σ _) (y : Rolling τ _) _ => Repeats x y where
  pure a _ := .pure a
  throw _ y _ := .throw_left _ y
  bind hx hf := hx.bind hf
  draw sides := .draw sides
  mono hx _ := hx

protected theorem liftM {r r' : Except EvalError α} (h : ∀ a, r = .ok a → r' = .ok a) :
    Repeats (liftM r : Rolling σ α) (liftM r' : Rolling τ α) :=
  composes.liftM (fun _ _ => trivial) h 0

protected theorem orOverflow (o : Option α) :
    Repeats (Rolling.orOverflow o : Rolling σ α) (Rolling.orOverflow o : Rolling τ α) :=
  composes.orOverflow trivial o 0

end Repeats

end Tabletop
