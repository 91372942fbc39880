import Tabletop.Dice.Session
import Tabletop.Proofs.Dice.Replay

/-!
# Rolls on one table

Rolls that follow one another on a table have nothing to do with each other but the source, whether
they succeed or fail. Two things could come between them: the record of the calls made before, and
the groups that lie on the table.

* `FollowsSource.roll`: the evaluation does not look at the record.
* `Table.Lays`: a computation on a table does what another does on the tray, and lays down the
  groups that the other returns behind those that lie there. It goes through `pure`, `>>=` and the
  evaluation of an expression.
* `Session.perform_independent`: in a session that has been used, everything is as in a new one.
-/

namespace Tabletop

variable {σ α β : Type}

/-! ## The record is not looked at -/

/-- What comes of an expression is decided by the answers of the source alone. -/
protected theorem FollowsSource.roll [Source σ] (config : Config) (resolve : Resolver) (e : Expr) :
    FollowsSource (e.roll config resolve : Rolling σ RollResult) :=
  FollowsSource.composes.roll (.refl config) (.refl resolve) e

/-! ## Groups on the table -/

namespace Table

open Laying

theorem lay_bind (table : Table σ) (x : Laying σ α) (f : α → Laying σ β) :
    table.lay (x >>= f) = match table.lay x with
      | (.ok a, table₁) => table₁.lay (f a)
      | (.error e, table₁) => (.error e, table₁) := by
  change (ExceptT.bindCont f (table.lay x).1).run (table.lay x).2 = _
  rcases table.lay x with ⟨_ | a, table₁⟩ <;> rfl

theorem lay_bind_of_ok {table table₁ : Table σ} {x : Laying σ α} {a : α}
    (h : table.lay x = (.ok a, table₁)) (f : α → Laying σ β) :
    table.lay (x >>= f) = table₁.lay (f a) := by
  rw [lay_bind, h]

theorem lay_bind_of_error {table table₁ : Table σ} {x : Laying σ α} {e : EvalError}
    (h : table.lay x = (.error e, table₁)) (f : α → Laying σ β) :
    table.lay (x >>= f) = (.error e, table₁) := by
  rw [lay_bind, h]

/-- A roll on the tray leaves the groups as they lie. -/
theorem lay_onTray {t t' : Tray σ} {x : Rolling σ α} {r : Except EvalError α}
    (h : t.roll x = (r, t')) (laid : Array DiceGroup) :
    (⟨t, laid⟩ : Table σ).lay (onTray x) = (r, ⟨t', laid⟩) := by
  change ((t.roll x).1, (⟨(t.roll x).2, laid⟩ : Table σ)) = _
  rw [h]

theorem lay_layDown (t : Tray σ) (laid : List DiceGroup) (g : DiceGroup) :
    (⟨t, laid.toArray⟩ : Table σ).lay (layDown g) = (.ok (), ⟨t, (laid ++ [g]).toArray⟩) := by
  rw [← List.push_toArray]
  rfl

theorem lay_takeGroups (t : Tray σ) (laid : Array DiceGroup) :
    (⟨t, laid⟩ : Table σ).lay takeGroups = (.ok laid.toList, ⟨t, #[]⟩) := rfl

/-- Where `gs` has been laid down behind `laid`, `x` does what `y` does: `y` returns the groups that
lie behind `laid` in the end. The groups that a failure leaves are left open. -/
structure Lays (laid gs : List DiceGroup) (x : Laying σ α) (y : Rolling σ (α × List DiceGroup)) :
    Prop where
  ok : ∀ (t : Tray σ) (a : α) (gs' : List DiceGroup) (t' : Tray σ),
    t.roll y = (.ok (a, gs'), t') →
      (⟨t, (laid ++ gs).toArray⟩ : Table σ).lay x = (.ok a, ⟨t', (laid ++ gs').toArray⟩)
  error : ∀ (t : Tray σ) (e : EvalError) (t' : Tray σ), t.roll y = (.error e, t') →
    ∃ left, (⟨t, (laid ++ gs).toArray⟩ : Table σ).lay x = (.error e, ⟨t', left⟩)

namespace Lays

variable {laid gs : List DiceGroup} {x : Laying σ α} {y : Rolling σ (α × List DiceGroup)}
  {z : Rolling σ α}

protected theorem pure (a : α) : Lays laid gs (pure a : Laying σ α) (pure (a, gs)) where
  ok t b gs' t' h := by
    cases h
    rfl
  error t e t' h := by cases h

protected theorem throw (e : EvalError) : Lays laid gs (throw e : Laying σ α) (throw e) where
  ok t b gs' t' h := by cases h
  error t e' t' h := by
    cases h
    exact ⟨_, rfl⟩

/-- The groups of the second computation lie behind those of the first. -/
theorem bind {f : α → Laying σ β} {k : α × List DiceGroup → Rolling σ (β × List DiceGroup)}
    (hx : ∀ laid, Lays laid [] x y) (hf : ∀ a gs', Lays laid (gs ++ gs') (f a) (k (a, gs'))) :
    Lays laid gs (x >>= f) (y >>= k) where
  ok t b gs'' t' h := by
    obtain ⟨⟨a, gs'⟩, t₁, ha, hb⟩ := Tray.roll_bind_eq_ok_iff.mp h
    have hlay := (hx (laid ++ gs)).ok t a gs' t₁ ha
    rw [List.append_nil, List.append_assoc] at hlay
    rw [lay_bind_of_ok hlay, (hf a gs').ok t₁ b gs'' t' hb]
  error t e t' h := by
    rcases Tray.roll_bind_eq_error_iff.mp h with ha | ⟨⟨a, gs'⟩, t₁, ha, hb⟩
    · obtain ⟨left, hlay⟩ := (hx (laid ++ gs)).error t e t' ha
      rw [List.append_nil] at hlay
      exact ⟨left, lay_bind_of_error hlay f⟩
    · have hlay := (hx (laid ++ gs)).ok t a gs' t₁ ha
      rw [List.append_nil, List.append_assoc] at hlay
      rw [lay_bind_of_ok hlay]
      exact (hf a gs').error t₁ e t' hb

/-- A roll on the tray lays nothing down. -/
theorem onTray_bind {f : α → Laying σ β} {k : α → Rolling σ (β × List DiceGroup)}
    (hf : ∀ a, Lays laid gs (f a) (k a)) : Lays laid gs (onTray z >>= f) (z >>= k) where
  ok t b gs' t' h := by
    obtain ⟨a, t₁, ha, hb⟩ := Tray.roll_bind_eq_ok_iff.mp h
    rw [lay_bind_of_ok (lay_onTray ha _), (hf a).ok t₁ b gs' t' hb]
  error t e t' h := by
    rcases Tray.roll_bind_eq_error_iff.mp h with ha | ⟨a, t₁, ha, hb⟩
    · exact ⟨_, lay_bind_of_error (lay_onTray ha _) f⟩
    · rw [lay_bind_of_ok (lay_onTray ha _)]
      exact (hf a).error t₁ e t' hb

protected theorem onTray : Lays laid gs (onTray z) (z >>= fun a => pure (a, gs)) where
  ok t a gs' t' h := by
    obtain ⟨b, t₁, hb, h⟩ := Tray.roll_bind_eq_ok_iff.mp h
    cases h
    exact lay_onTray hb _
  error t e t' h := by
    rcases Tray.roll_bind_eq_error_iff.mp h with hz | ⟨a, t₁, -, h⟩
    · exact ⟨_, lay_onTray hz _⟩
    · cases h

theorem layDown_bind {f : Unit → Laying σ α} {g : DiceGroup} (h : Lays laid (gs ++ [g]) (f ()) y) :
    Lays laid gs (layDown g >>= f) y := by
  have hlay (t : Tray σ) : (⟨t, (laid ++ gs).toArray⟩ : Table σ).lay (layDown g >>= f) =
      (⟨t, (laid ++ (gs ++ [g])).toArray⟩ : Table σ).lay (f ()) := by
    rw [lay_bind_of_ok (lay_layDown t (laid ++ gs) g), List.append_assoc]
  constructor
  · intro t
    rw [hlay]
    exact h.ok t
  · intro t
    rw [hlay]
    exact h.error t

/-- An expression lays its groups down behind those that lie there. -/
protected theorem eval [Source σ] (config : Config) (resolve : Resolver) (e : Expr)
    (laid : List DiceGroup) :
    Lays laid [] (e.evalLaying config resolve : Laying σ Number) (e.eval config resolve) := by
  induction e generalizing laid with
  | literal n => exact .pure _
  | reference r =>
    unfold Expr.evalLaying Expr.eval
    cases resolve r with
    | none => exact .throw _
    | some n => exact .pure _
  | dice count sides ms ihc ihs =>
    exact .bind ihc fun n gs => .bind ihs fun s gs' => .onTray_bind fun pool =>
      .onTray_bind fun group => .layDown_bind (.pure _)
  | group e ih => exact ih laid
  | unary op e ih => exact .bind ih fun x gs => .onTray
  | binary op l r ihl ihr => exact .bind ihl fun x gs => .bind ihr fun y gs' => .onTray

end Lays

/-- On a table a roll does what it does on the tray, whatever lies there. -/
theorem lay_rollLaying [Source σ] (table : Table σ) (config : Config) (resolve : Resolver)
    (e : Expr) :
    ∃ left, table.lay (e.rollLaying config resolve) =
      ((table.tray.roll (e.roll config resolve)).1,
        ⟨(table.tray.roll (e.roll config resolve)).2, left⟩) := by
  obtain ⟨t, laid⟩ := table
  have heval := Lays.eval (σ := σ) config resolve e []
  unfold Expr.rollLaying Expr.roll
  rw [lay_bind_of_ok (lay_takeGroups t laid)]
  rcases h : t.roll (e.eval config resolve) with ⟨err | ⟨total, gs⟩, t'⟩
  · obtain ⟨left, hlay⟩ := heval.error t err t' h
    exact ⟨left, by rw [Tray.roll_bind_of_error h, ← lay_bind_of_error hlay]; rfl⟩
  · have hlay := heval.ok t total gs t' h
    refine ⟨#[], ?_⟩
    rw [Tray.roll_bind_of_ok h]
    refine (lay_bind_of_ok hlay _).trans ?_
    rw [lay_bind_of_ok (lay_takeGroups t' _)]
    rfl

end Table

/-! ## One session -/

namespace Session

variable [Source σ]

/-- What can be done at the table of a session. -/
inductive Task where
  /-- Roll an expression. -/
  | eval (e : Expr)
  /-- Draw one face of a die. -/
  | draw (sides : Int64)

/-- The task on a tray, where no group can be laid down. -/
def Task.roll (config : Config) (resolve : Resolver) : Task → Rolling σ (RollResult ⊕ Int64)
  | eval e => do
    let result ← e.roll config resolve
    pure (.inl result)
  | draw sides => do
    let face ← Rolling.draw sides
    pure (.inr face)

/-- Does the task at the table of the session. -/
def perform (s : Session σ) : Task → Except EvalError (RollResult ⊕ Int64) × Session σ
  | .eval e =>
    let (result, s) := s.eval e
    (result.map .inl, s)
  | .draw sides =>
    let (face, s) := s.draw sides
    (face.map .inr, s)

/-- The session after some tasks, any of which may have failed. -/
def after (s : Session σ) (tasks : List Task) : Session σ :=
  tasks.foldl (fun s task => (s.perform task).2) s

/-- A task does what it does on the tray, whatever lies on the table. -/
theorem perform_eq (s : Session σ) (task : Task) :
    ∃ left, s.perform task =
      ((s.tray.roll (task.roll s.config s.resolve)).1,
        { s with table := ⟨(s.tray.roll (task.roll s.config s.resolve)).2, left⟩ }) := by
  cases task with
  | eval e =>
    obtain ⟨left, hlay⟩ := s.table.lay_rollLaying s.config s.resolve e
    refine ⟨left, ?_⟩
    simp only [perform, Session.eval, Task.roll, tray, hlay, Tray.roll_bind]
    rcases s.table.tray.roll (e.roll s.config s.resolve) with ⟨_ | result, t'⟩ <;> rfl
  | draw sides =>
    obtain ⟨config, resolve, ⟨t, laid⟩, exprs⟩ := s
    refine ⟨laid, ?_⟩
    simp only [perform, Session.draw, Task.roll, tray, Tray.roll_bind]
    rcases hroll : t.roll (Rolling.draw sides) with ⟨_ | face, t'⟩ <;>
      · rw [Table.lay_onTray hroll]
        rfl

/-- A session keeps its configuration and its resolver. -/
theorem after_config_resolve (s : Session σ) (tasks : List Task) :
    (s.after tasks).config = s.config ∧ (s.after tasks).resolve = s.resolve := by
  induction tasks generalizing s with
  | nil => exact ⟨rfl, rfl⟩
  | cons task tasks ih =>
    obtain ⟨left, hs⟩ := s.perform_eq task
    have hkept : (s.perform task).2.config = s.config ∧ (s.perform task).2.resolve = s.resolve := by
      rw [hs]
      exact ⟨rfl, rfl⟩
    have hrest := ih (s.perform task).2
    rwa [hkept.1, hkept.2] at hrest

/-- After any tasks at the table, the next one returns what it returns in a new session whose source
is in the same state, and makes the same calls. It is what it is on a tray of its own, so no group
of an earlier task is in it. -/
theorem perform_independent (s : Session σ) (earlier : List Task) (task : Task) :
    let used := s.after earlier
    let new : Session σ := ⟨s.config, s.resolve, .ofSource used.tray.source, #[]⟩
    (used.perform task).1 = (new.perform task).1 ∧
      (∃ cs, used.tray.Adds cs (used.perform task).2.tray ∧
        new.tray.Adds cs (new.perform task).2.tray) ∧
      (used.perform task).1 =
        ((Tray.ofSource used.tray.source).roll (task.roll s.config s.resolve)).1 := by
  intro used new
  obtain ⟨hconfig, hresolve⟩ := s.after_config_resolve earlier
  obtain ⟨left, hused⟩ := used.perform_eq task
  obtain ⟨left', hnew⟩ := new.perform_eq task
  have hfollows : FollowsSource (task.roll s.config s.resolve : Rolling σ _) := by
    cases task with
    | eval e => exact (FollowsSource.roll _ _ e).bind fun _ => .pure _
    | draw sides => exact (FollowsSource.draw sides).bind fun _ => .pure _
  obtain ⟨cs, hcs, hcs', hresult⟩ := hfollows.exists_adds (t := used.tray) (u := new.tray) rfl
  rw [hused, hnew, hconfig, hresolve]
  exact ⟨hresult, ⟨cs, hcs, hcs'⟩, hresult⟩

/-- A division by zero leaves the group of its left operand on the table. -/
example :
    let s : Session Script := ⟨default, .empty, .ofSource (.constant 3), #[]⟩
    let e : Expr := .binary .div (.dice (.literal 1) (.literal 6) []) (.literal 0)
    (s.after [.eval e]).table.groups.size = 1 := rfl

end Session

end Tabletop
