import Tabletop.Proofs.Dice.Record

/-!
# Rolling again

A roll is decided by the answers of the source: on any source that gives the same answers, the
expression is rolled in the same way (`Repeats.roll`), for every step of the evaluation repeats
itself. The limits decide only whether a roll fails, so each step is also repeated under limits that
are no tighter (`Config.AtMost`), and with a resolver that knows more (`Resolver.AtMost`):
`Repeats.roll_of_atMost`. This is so for all that goes through `pure`, `>>=` and `draw`
(`Composes.eval`). A script gives the answers that it holds (`Script.answers`).
-/

namespace Tabletop

/-- The limits of `config'` are no tighter, and both divide alike. -/
structure Config.AtMost (config config' : Config) : Prop where
  maxDice : config.maxDice ≤ config'.maxDice
  maxChain : config.maxChain ≤ config'.maxChain
  division : config.division = config'.division

theorem Config.AtMost.refl (config : Config) : config.AtMost config :=
  ⟨Nat.le_refl _, Nat.le_refl _, rfl⟩

/-- `resolve'` gives the same value wherever `resolve` gives one. -/
def Resolver.AtMost (resolve resolve' : Resolver) : Prop :=
  ∀ r n, resolve r = some n → resolve' r = some n

theorem Resolver.AtMost.refl (resolve : Resolver) : resolve.AtMost resolve :=
  fun _ _ h => h

/-- A dice term that passes the checks passes them under looser limits. -/
theorem Pool.check_of_atMost {config config' : Config} (h : config.AtMost config')
    {count sides : Number} {ms : List Modifier} {r : Nat × Int64}
    (hr : check config count sides ms = .ok r) : check config' count sides ms = .ok r := by
  obtain ⟨n, s⟩ := r
  obtain ⟨k, hspec, hk, hmax, hendless⟩ := check_eq_ok_iff.mp hr
  exact check_eq_ok_iff.mpr ⟨k, hspec, hk, Nat.le_trans hmax h.maxDice, hendless⟩

variable {σ τ : Type} [Source σ] [Source τ] {config config' : Config} {resolve resolve' : Resolver}

/-! ## Every step of a roll -/

namespace Composes

variable {E : EvalError → Prop} {R : (α : Type) → Rolling σ α → Rolling τ α → Prop}

theorem modify (h : Composes E fun α x y _ => R α x y) (he : E (.chainTooLong config.maxChain))
    (ho : E .overflow) (hc : config.maxChain ≤ config'.maxChain) (p : Pool) (m : Modifier) :
    R Pool (p.modify config m) (p.modify config' m) := by
  cases m with
  | select s n => exact h.pure _ 0
  | countSuccesses c => exact h.pure _ 0
  | redraw r c =>
    cases r with
    | reroll => exact h.reroll _ false he hc p
    | rerollOnce => exact h.reroll _ true he hc p
    | explode => exact h.andThen (h.generations _ _ he _ hc _) fun dice => h.pure _ 0
    | compound => exact h.compound _ he ho hc p

/-- A dice term whose check fails, if at all, with an error of the kind `E`. -/
theorem rollPool (h : Composes E fun α x y _ => R α x y) (he : E (.chainTooLong config.maxChain))
    (ho : E .overflow) {count sides : Number} {ms : List Modifier}
    (hcheck : ∀ e, Pool.check config count sides ms = .error e → E e)
    (hc : config.AtMost config') :
    R Pool (Pool.roll config count sides ms) (Pool.roll config' count sides ms) :=
  h.andThen (h.liftM hcheck (fun _ => Pool.check_of_atMost hc) 0) fun _ =>
    h.andThen (h.drawFaces _ _) fun _ => h.foldlM 0 (h.modify he ho hc.maxChain) ms _

theorem group {R : (α : Type) → Rolling σ α → Rolling τ α → Nat → Prop} (h : Composes E R)
    (ho : E .overflow) (p : Pool) (text : String) (n : Nat) :
    R DiceGroup (p.group text) (p.group text) n :=
  h.map (h.orOverflow ho p.value? n) _

theorem applyUnary (h : Composes (fun _ => True) fun α x y _ => R α x y) (op : UnaryOp)
    (x : Number) : R Number (Expr.applyUnary op x) (Expr.applyUnary op x) := by
  cases op with
  | plus => exact h.pure x 0
  | minus => exact h.orOverflow trivial _ 0

theorem applyBinary (h : Composes (fun _ => True) fun α x y _ => R α x y) (division : Division)
    (op : BinaryOp) (x y : Number) :
    R Number (Expr.applyBinary division op x y) (Expr.applyBinary division op x y) := by
  cases op with
  | add => exact h.orOverflow trivial _ 0
  | sub => exact h.orOverflow trivial _ 0
  | mul => exact h.orOverflow trivial _ 0
  | div =>
    simp only [Expr.applyBinary]
    split
    · exact h.throw trivial _ 0
    · exact h.orOverflow trivial _ 0

/-- What goes through every step goes through the evaluation of an expression, the second time under
limits that are no tighter. -/
theorem eval (h : Composes (fun _ => True) fun α x y _ => R α x y) (hc : config.AtMost config')
    (hr : resolve.AtMost resolve') (e : Expr) :
    R (Number × List DiceGroup) (e.eval config resolve) (e.eval config' resolve') := by
  induction e with
  | literal n => exact h.pure _ 0
  | reference r =>
    unfold Expr.eval
    cases hn : resolve r with
    | none => exact h.throw trivial _ 0
    | some n =>
      rw [hr r n hn]
      exact h.pure _ 0
  | dice count sides ms ihc ihs =>
    have hpool : ∀ n s, R Pool (Pool.roll config n s ms) (Pool.roll config' n s ms) :=
      fun _ _ => h.rollPool trivial trivial (fun _ _ => trivial) hc
    exact h.andThen ihc fun _ => h.andThen ihs fun _ => h.andThen (hpool _ _) fun p =>
      h.andThen (h.group trivial p _ 0) fun _ => h.pure _ 0
  | group e ih => exact ih
  | unary op e ih =>
    exact h.andThen ih fun _ => h.andThen (h.applyUnary _ _) fun _ => h.pure _ 0
  | binary op l r ihl ihr =>
    refine h.andThen ihl fun _ => h.andThen ihr fun _ => ?_
    rw [← hc.division]
    exact h.andThen (h.applyBinary _ _ _ _) fun _ => h.pure _ 0

theorem roll (h : Composes (fun _ => True) fun α x y _ => R α x y) (hc : config.AtMost config')
    (hr : resolve.AtMost resolve') (e : Expr) :
    R RollResult (e.roll config resolve) (e.roll config' resolve') :=
  h.andThen (h.eval hc hr e) fun _ => h.pure _ 0

end Composes

namespace Repeats

/-- An expression is rolled alike under limits that are no tighter. -/
theorem roll_of_atMost (h : config.AtMost config') (hr : resolve.AtMost resolve') (e : Expr) :
    Repeats (e.roll config resolve : Rolling σ RollResult)
      (e.roll config' resolve' : Rolling τ RollResult) :=
  Repeats.composes.roll h hr e

/-- An expression is rolled alike wherever the answers of the source are the same. -/
protected theorem roll (config : Config) (resolve : Resolver) (e : Expr) :
    Repeats (e.roll config resolve : Rolling σ RollResult)
      (e.roll config resolve : Rolling τ RollResult) :=
  roll_of_atMost (.refl config) (.refl resolve) e

end Repeats

/-! ## Scripts -/

namespace Script

theorem next_eq {values : Array Int64} {k : Nat} {value : Int64} (low high : Int64)
    (h : values[k]? = some value) :
    Source.next (⟨values, k⟩ : Script) low high = (value, ⟨values, k + 1⟩) := by
  have hk : k % values.size = k :=
    Nat.mod_eq_of_lt (Array.getElem?_eq_some_iff.mp h).1
  change Script.next ⟨values, k⟩ low = _
  simp only [Script.next, hk, h]

/-- A script gives the answers that it goes on with. -/
theorem answers {values : Array Int64} {k : Nat} {cs : List Call}
    (h : ∀ i c, cs[i]? = some c → values[k + i]? = some c.value) :
    Answers (⟨values, k⟩ : Script) cs ⟨values, k + cs.length⟩ := by
  induction cs generalizing k with
  | nil => rfl
  | cons c cs ih =>
    have hnext : Source.next (⟨values, k⟩ : Script) c.low c.high = (c.value, ⟨values, k + 1⟩) :=
      next_eq c.low c.high (h 0 c rfl)
    refine ⟨by rw [hnext], ?_⟩
    rw [hnext, List.length_cons, Nat.add_comm cs.length, ← Nat.add_assoc]
    refine ih fun i c' hc => ?_
    rw [Nat.add_assoc, Nat.add_comm 1]
    exact h (i + 1) c' hc

/-- A script of the values of the calls gives their answers, and is then used up. -/
theorem ofList_answers (cs : List Call) :
    Answers (ofList (cs.map Call.value)) cs ⟨(cs.map Call.value).toArray, cs.length⟩ := by
  have h : Answers (ofList (cs.map Call.value)) cs
      ⟨(cs.map Call.value).toArray, 0 + cs.length⟩ := answers fun i c hc => by
    simp [hc]
  rwa [Nat.zero_add] at h

end Script

end Tabletop
