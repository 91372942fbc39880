import Tabletop.Dice.Redraw

/-!
# What goes through the loops of a roll

A roll is put together from `pure`, `throw`, `>>=` and `draw`. `Composes E R` says that the relation
`R` between two computations goes through these. So it goes through the loops that are written with
them, each by one induction. `R` comes with a bound on the draws: a relation that has no use for it
leaves it out, and a fact about one computation leaves out the other.

* `Composes.drawFaces`, `Composes.mapM`, `Composes.foldlM`: one computation behind the other.
* `Composes.chain`, `Composes.growingChain`: chains under limits of which the second is no lower.
* `Composes.extend`: what is done to each die that meets a condition. `Composes.reroll` and
  `Composes.compound` are chains for these dice.
-/

namespace Tabletop

variable {σ τ : Type} [Source σ] [Source τ]

/-- The relation goes through `pure`, `>>=` and `draw`, and what fails with an error of the kind `E`
is related to anything. The number bounds the draws. -/
structure Composes (E : EvalError → Prop)
    (R : (α : Type) → Rolling σ α → Rolling τ α → Nat → Prop) : Prop where
  pure {α : Type} (a : α) (n : Nat) : R α (pure a) (pure a) n
  throw {α : Type} {e : EvalError} (he : E e) (y : Rolling τ α) (n : Nat) : R α (throw e) y n
  bind {α β : Type} {x : Rolling σ α} {y : Rolling τ α} {f : α → Rolling σ β}
    {g : α → Rolling τ β} {m n : Nat} (hx : R α x y m) (hf : ∀ a, R β (f a) (g a) n) :
    R β (x >>= f) (y >>= g) (m + n)
  draw (sides : Int64) : R Int64 (Rolling.draw sides) (Rolling.draw sides) 1
  mono {α : Type} {x : Rolling σ α} {y : Rolling τ α} {m n : Nat} (hx : R α x y m)
    (hmn : m ≤ n) : R α x y n

namespace Composes

variable {E : EvalError → Prop} {R : (α : Type) → Rolling σ α → Rolling τ α → Nat → Prop}
  {α β : Type} {m n : Nat}

/-- What depends on the value alone may follow. -/
theorem map (h : Composes E R) {x : Rolling σ α} {y : Rolling τ α} (hx : R α x y n) (k : α → β) :
    R β (x >>= fun a => Pure.pure (k a)) (y >>= fun a => Pure.pure (k a)) n :=
  h.bind hx fun a => h.pure (k a) 0

/-- For a relation that has no use for the bound. -/
theorem andThen {R : (α : Type) → Rolling σ α → Rolling τ α → Prop}
    (h : Composes E fun α x y _ => R α x y) {x : Rolling σ α} {y : Rolling τ α}
    {f : α → Rolling σ β} {g : α → Rolling τ β} (hx : R α x y) (hf : ∀ a, R β (f a) (g a)) :
    R β (x >>= f) (y >>= g) :=
  h.bind (m := 0) (n := 0) hx hf

theorem orOverflow (h : Composes E R) (he : E .overflow) (o : Option α) (n : Nat) :
    R α (Rolling.orOverflow o) (Rolling.orOverflow o) n := by
  cases o with
  | none => exact h.throw he _ n
  | some a => exact h.pure a n

/-- A result that is an error of the kind `E`, or the same on both sides. -/
theorem liftM (h : Composes E R) {r r' : Except EvalError α} (he : ∀ e, r = .error e → E e)
    (hr : ∀ a, r = .ok a → r' = .ok a) (n : Nat) :
    R α (liftM r) (liftM r') n := by
  cases r with
  | error e => exact h.throw (he e rfl) _ n
  | ok a =>
    rw [hr a rfl]
    exact h.pure a n

/-! ## Lists -/

theorem drawFaces (h : Composes E R) (sides : Int64) (n : Nat) :
    R (List Int64) (Rolling.drawFaces sides n) (Rolling.drawFaces sides n) n := by
  induction n with
  | zero => exact h.pure [] 0
  | succ n ih =>
    exact h.mono (h.bind (h.draw sides) fun face => h.map ih (face :: ·)) (by omega)

theorem mapM (h : Composes E R) {f : α → Rolling σ β} {g : α → Rolling τ β} (n : Nat)
    (hf : ∀ a, R β (f a) (g a) n) (as : List α) :
    R (List β) (as.mapM f) (as.mapM g) (as.length * n) := by
  induction as with
  | nil => exact h.pure [] _
  | cons a as ih =>
    rw [List.mapM_cons, List.mapM_cons, List.length_cons, Nat.succ_mul, Nat.add_comm]
    exact h.bind (hf a) fun b => h.map ih (b :: ·)

theorem foldlM (h : Composes E R) {f : β → α → Rolling σ β} {g : β → α → Rolling τ β} (n : Nat)
    (hf : ∀ b a, R β (f b a) (g b a) n) (as : List α) (b : β) :
    R β (as.foldlM f b) (as.foldlM g b) (as.length * n) := by
  induction as generalizing b with
  | nil => exact h.pure b _
  | cons a as ih =>
    rw [List.foldlM_cons, List.foldlM_cons, List.length_cons, Nat.succ_mul, Nat.add_comm]
    exact h.bind (hf b a) fun b => ih b

/-! ## Chains -/

/-- A chain draws no more faces than there may be. -/
theorem chain (h : Composes E R) (again : Int64 → Bool) (sides : Int64) {limit : Nat}
    (he : E (.chainTooLong limit)) (limit' : Nat) {n n' : Nat} (hn : n ≤ n') :
    R (List Int64) (Pool.chain again sides limit n) (Pool.chain again sides limit' n') n := by
  induction n generalizing n' with
  | zero => exact h.throw he _ 0
  | succ n ih =>
    obtain ⟨k, rfl⟩ : ∃ k, n' = k + 1 := ⟨n' - 1, by omega⟩
    refine h.mono (h.bind (h.draw sides) fun face => ?_) (Nat.le_of_eq (Nat.add_comm 1 n))
    split
    · exact h.map (ih (by omega)) (face :: ·)
    · exact h.pure _ n

theorem growingChain (h : Composes E R) (again : Int64 → Bool) (sides : Int64) {limit : Nat}
    (he : E (.chainTooLong limit)) (ho : E .overflow) (limit' : Nat) {n n' : Nat} (hn : n ≤ n')
    (total : Int64) :
    R (List Int64 × Int64) (Pool.growingChain again sides limit n total)
      (Pool.growingChain again sides limit' n' total) n := by
  induction n generalizing n' total with
  | zero => exact h.throw he _ 0
  | succ n ih =>
    obtain ⟨k, rfl⟩ : ∃ k, n' = k + 1 := ⟨n' - 1, by omega⟩
    have hn : 1 + (0 + n) ≤ n + 1 := by omega
    refine h.mono (h.bind (h.draw sides) fun face => h.bind (h.orOverflow ho _ 0)
      fun total => ?_) hn
    split
    · exact h.map (ih (by omega) total) _
    · exact h.pure _ n

/-- What goes through the change of one die goes through those of a pool. -/
theorem extend (h : Composes E R) {f : Die → Rolling σ (Die × List Die)}
    {g : Die → Rolling τ (Die × List Die)} (n : Nat) (hf : ∀ d, R _ (f d) (g d) n)
    (c : Comparison) (p : Pool) : R Pool (p.extend c f) (p.extend c g) (p.dice.length * n) := by
  refine h.map (h.mapM n (fun d => ?_) p.dice) _
  split
  · exact hf d
  · exact h.pure _ n

theorem reroll (h : Composes E R) (c : Comparison) (once : Bool) {limit limit' : Nat}
    (he : E (.chainTooLong limit)) (hn : limit ≤ limit') (p : Pool) :
    R Pool (p.reroll c once limit) (p.reroll c once limit') (p.dice.length * limit) :=
  h.extend limit (fun _ => h.map (h.chain _ p.sides he limit' hn) _) c p

theorem compound (h : Composes E R) (c : Comparison) {limit limit' : Nat}
    (he : E (.chainTooLong limit)) (ho : E .overflow) (hn : limit ≤ limit') (p : Pool) :
    R Pool (p.compound c limit) (p.compound c limit') (p.dice.length * limit) :=
  h.extend limit (fun d => h.map (h.growingChain _ p.sides he ho limit' hn d.face) _) c p

end Composes

end Tabletop
