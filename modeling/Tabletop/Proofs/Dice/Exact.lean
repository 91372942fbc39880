import Tabletop.Proofs.Dice.Trace

/-!
# Exact arithmetic

Where division drops the fraction, every number of an evaluation is an integer, and the arithmetic
is that of the unbounded integers: an evaluation that succeeds has stayed in the 64-bit integers
throughout, and one that leaves them fails.

* `Expr.unbounded?`: the value of an expression over the unbounded integers, where each dice term
  has the value of its group.
* `Expr.eval_exact`: a value is that of the unbounded integers, at each part of the expression.
* `Expr.truncating_arithmetic`: that, and just when an operation fails.
-/

namespace Tabletop

/-- The sign before an unbounded integer. -/
def UnaryOp.unbounded : UnaryOp → Int → Int
  | plus, x => x
  | minus, x => -x

/-- The operator between unbounded integers. A quotient is without its fraction, and there is none
by zero. -/
def BinaryOp.unbounded? : BinaryOp → Int → Int → Option Int
  | add, x, y => some (x + y)
  | sub, x, y => some (x - y)
  | mul, x, y => some (x * y)
  | div, x, y => if y = 0 then none else some (x.tdiv y)

/-- The one operation without an exact result is a division by zero. -/
theorem BinaryOp.unbounded?_eq_none_iff {op : BinaryOp} {x y : Int} :
    op.unbounded? x y = none ↔ op = .div ∧ y = 0 := by
  cases op <;> simp [unbounded?]

namespace Expr

/-- The value of an expression over the unbounded integers. Its dice terms are numbered from `k` on
in the order of evaluation, and each has the value of the group at its number. -/
def unbounded? (resolve : Resolver) (groups : List DiceGroup) : (k : Nat) → Expr → Option Int
  | _, literal n => some n.toInt
  | _, reference r => (resolve r).map Int64.toInt
  | k, dice count sides _ =>
    groups[k + count.terms.length + sides.terms.length]?.map fun g => g.value.toInt
  | k, group e => unbounded? resolve groups k e
  | k, unary op e => (unbounded? resolve groups k e).map op.unbounded
  | k, binary op l r => do
    let x ← unbounded? resolve groups k l
    let y ← unbounded? resolve groups (k + l.terms.length) r
    op.unbounded? x y

/-- The expression and everything in it, counts and sides included, each behind its parts and with
the number that its dice terms are numbered from. -/
def parts : (k : Nat) → Expr → List (Nat × Expr)
  | k, literal n => [(k, literal n)]
  | k, reference r => [(k, reference r)]
  | k, dice count sides ms =>
    parts k count ++ parts (k + count.terms.length) sides ++ [(k, dice count sides ms)]
  | k, group e => parts k e ++ [(k, group e)]
  | k, unary op e => parts k e ++ [(k, unary op e)]
  | k, binary op l r => parts k l ++ parts (k + l.terms.length) r ++ [(k, binary op l r)]

/-- What an operation with an exact result comes to; without one it divides by zero. -/
def settle : Option Int → Except EvalError Number
  | none => .error .divideByZero
  | some z =>
    match checked z with
    | some v => .ok (.int v)
    | none => .error .overflow

theorem settle_toInt (v : Int64) : settle (some v.toInt) = .ok (.int v) := by
  simp [settle]

theorem settle_eq_ok_iff {z? : Option Int} {x : Number} :
    settle z? = .ok x ↔ ∃ v : Int64, x = .int v ∧ z? = some v.toInt := by
  constructor
  · intro h
    cases z? with
    | none => cases h
    | some z =>
      cases hz : checked z with
      | none =>
        simp only [settle, hz] at h
        cases h
      | some v =>
        simp only [settle, hz] at h
        cases h
        exact ⟨v, rfl, by rw [checked_eq_some_iff.mp hz]⟩
  · rintro ⟨v, rfl, rfl⟩
    exact settle_toInt v

theorem settle_of_overflow {z : Int} (h : z < Int64.minValue.toInt ∨ Int64.maxValue.toInt < z) :
    settle (some z) = .error .overflow := by
  simp only [settle, checked_eq_none_iff.mpr h]

variable {σ : Type} {t t' : Tray σ}

/-! ## Operations -/

theorem roll_orOverflow_checked (t : Tray σ) (z : Int) :
    t.roll (Rolling.orOverflow ((checked z).map Number.int)) = (settle (some z), t) := by
  cases h : checked z with
  | none =>
    simp only [settle, h]
    rfl
  | some v =>
    simp only [settle, h]
    rfl

theorem roll_applyUnary_int (t : Tray σ) (op : UnaryOp) (m : Int64) :
    t.roll (applyUnary op (.int m)) = (settle (some (op.unbounded m.toInt)), t) := by
  cases op with
  | plus =>
    rw [UnaryOp.unbounded, settle_toInt]
    rfl
  | minus => exact roll_orOverflow_checked t _

theorem roll_applyBinary_int (t : Tray σ) (op : BinaryOp) (m n : Int64) :
    t.roll (applyBinary .truncate op (.int m) (.int n)) =
      (settle (op.unbounded? m.toInt n.toInt), t) := by
  cases op with
  | add => exact roll_orOverflow_checked t _
  | sub => exact roll_orOverflow_checked t _
  | mul => exact roll_orOverflow_checked t _
  | div =>
    have hzero : n.toInt = 0 ↔ n = 0 := by
      rw [← Int64.toInt_inj]
      rfl
    by_cases hn : n = 0
    · have hisZero : (Number.int n).isZero = true := by simp [Number.isZero, hn]
      simp only [applyBinary, hisZero, if_true, BinaryOp.unbounded?, hzero.mpr hn, settle]
      rfl
    · have hisZero : (Number.int n).isZero = false := by simp [Number.isZero, hn]
      have hne : ¬n.toInt = 0 := fun h => hn (hzero.mp h)
      simp only [applyBinary, hisZero, Bool.false_eq_true, if_false, BinaryOp.unbounded?, hne]
      exact roll_orOverflow_checked t _

/-! ## Expressions -/

variable [Source σ] {config : Config} {resolve : Resolver}

omit [Source σ] in
/-- Groups in a row are numbered one behind the other. -/
theorem prefix_append {gs gs' all : List DiceGroup} {k : Nat} (h : gs ++ gs' <+: all.drop k) :
    gs <+: all.drop k ∧ gs' <+: all.drop (k + gs.length) := by
  obtain ⟨rest, hrest⟩ := h
  refine ⟨⟨gs' ++ rest, by simpa using hrest⟩, rest, ?_⟩
  rw [← List.drop_drop, ← hrest]
  simp

/-- With the groups in `all`, the dice terms numbered from `k` on, the expression has the value `v`
over the unbounded integers, and each of its parts has a value among the 64-bit integers. -/
def HasValue (resolve : Resolver) (all : List DiceGroup) (k : Nat) (e : Expr) (v : Int64) : Prop :=
  e.unbounded? resolve all k = some v.toInt ∧
    ∀ part ∈ e.parts k, ∃ w : Int64, part.2.unbounded? resolve all part.1 = some w.toInt

omit [Source σ] in
/-- The parts of an expression are itself and the parts `ps` of its operands. -/
theorem hasValue_of_parts {all : List DiceGroup} {k : Nat} {e : Expr} {v : Int64}
    {ps : List (Nat × Expr)} (hparts : e.parts k = ps ++ [(k, e)])
    (hv : e.unbounded? resolve all k = some v.toInt)
    (hps : ∀ part ∈ ps, ∃ w : Int64, part.2.unbounded? resolve all part.1 = some w.toInt) :
    HasValue resolve all k e v := by
  refine ⟨hv, fun part hpart => ?_⟩
  rw [hparts, List.mem_append, List.mem_singleton] at hpart
  rcases hpart with hpart | rfl
  · exact hps part hpart
  · exact ⟨v, hv⟩

/-- A value is an integer, and the one that the expression has over the unbounded integers, where
its groups stand in `all` from place `k` on. -/
theorem eval_exact (hdiv : config.division = .truncate) {e : Expr} {x : Number}
    {groups : List DiceGroup} (h : t.roll (e.eval config resolve) = (.ok (x, groups), t')) :
    ∃ v : Int64, x = .int v ∧ ∀ (all : List DiceGroup) (k : Nat), groups <+: all.drop k →
      e.HasValue resolve all k v := by
  induction e generalizing t t' x groups with
  | literal n =>
    obtain ⟨hx, -⟩ := Tray.roll_pure_eq_ok_iff.mp h
    cases hx
    exact ⟨n, rfl, fun all k _ => hasValue_of_parts (List.nil_append _).symm rfl (by simp)⟩
  | reference r =>
    unfold eval at h
    split at h
    · next n hn =>
      obtain ⟨hx, -⟩ := Tray.roll_pure_eq_ok_iff.mp h
      cases hx
      refine ⟨n, rfl, fun all k _ => hasValue_of_parts (List.nil_append _).symm ?_ (by simp)⟩
      rw [unbounded?, hn]
      rfl
    · rw [Tray.roll_throw] at h
      cases h
  | dice count sides ms ihc ihs =>
    obtain ⟨⟨n, gs⟩, t₁, hcount, hrest⟩ := Tray.roll_bind_eq_ok_iff.mp h
    obtain ⟨⟨s, gs'⟩, t₂, hsides, hterm⟩ := Tray.roll_bind_eq_ok_iff.mp hrest
    obtain ⟨p, t₃, -, htail⟩ := Tray.roll_bind_eq_ok_iff.mp hterm
    obtain ⟨g, t₄, -, hpure⟩ := Tray.roll_bind_eq_ok_iff.mp htail
    obtain ⟨hx, -⟩ := Tray.roll_pure_eq_ok_iff.mp hpure
    cases hx
    obtain ⟨_, _, hn⟩ := ihc hcount
    obtain ⟨_, _, hs⟩ := ihs hsides
    refine ⟨g.value, rfl, fun all k hall => ?_⟩
    obtain ⟨hgss, hg⟩ := prefix_append hall
    obtain ⟨hgs, hgs'⟩ := prefix_append hgss
    rw [List.length_append, length_groups hcount, length_groups hsides, ← Nat.add_assoc] at hg
    rw [length_groups hcount] at hgs'
    refine hasValue_of_parts rfl ?_ (List.forall_mem_append.mpr
      ⟨(hn all k hgs).2, (hs all _ hgs').2⟩)
    obtain ⟨rest, hrest⟩ := hg
    have hown : all[k + count.terms.length + sides.terms.length]? = some g := by
      rw [← List.head?_drop, ← hrest]
      rfl
    rw [unbounded?, hown]
    rfl
  | group e ih =>
    obtain ⟨v, rfl, hv⟩ := ih h
    exact ⟨v, rfl, fun all k hall => hasValue_of_parts rfl (hv all k hall).1 (hv all k hall).2⟩
  | unary op e ih =>
    obtain ⟨⟨y, gs⟩, t₁, he, hrest⟩ := Tray.roll_bind_eq_ok_iff.mp h
    obtain ⟨z, t₂, hop, hpure⟩ := Tray.roll_bind_eq_ok_iff.mp hrest
    obtain ⟨hx, -⟩ := Tray.roll_pure_eq_ok_iff.mp hpure
    cases hx
    obtain ⟨m, rfl, hm⟩ := ih he
    rw [roll_applyUnary_int, Prod.mk.injEq] at hop
    obtain ⟨v, rfl, hv⟩ := settle_eq_ok_iff.mp hop.1
    refine ⟨v, rfl, fun all k hall => hasValue_of_parts rfl ?_ (hm all k hall).2⟩
    rw [unbounded?, (hm all k hall).1]
    exact hv
  | binary op l r ihl ihr =>
    obtain ⟨⟨y, gs⟩, t₁, hl, hrest⟩ := Tray.roll_bind_eq_ok_iff.mp h
    obtain ⟨⟨z, gs'⟩, t₂, hr, hrest'⟩ := Tray.roll_bind_eq_ok_iff.mp hrest
    obtain ⟨u, t₃, hop, hpure⟩ := Tray.roll_bind_eq_ok_iff.mp hrest'
    obtain ⟨hx, -⟩ := Tray.roll_pure_eq_ok_iff.mp hpure
    cases hx
    obtain ⟨m, rfl, hm⟩ := ihl hl
    obtain ⟨n, rfl, hn⟩ := ihr hr
    rw [hdiv, roll_applyBinary_int, Prod.mk.injEq] at hop
    obtain ⟨v, rfl, hv⟩ := settle_eq_ok_iff.mp hop.1
    refine ⟨v, rfl, fun all k hall => ?_⟩
    obtain ⟨hgs, hgs'⟩ := prefix_append hall
    rw [length_groups hl] at hgs'
    refine hasValue_of_parts rfl ?_ (List.forall_mem_append.mpr
      ⟨(hm all k hgs).2, (hn all _ hgs').2⟩)
    rw [unbounded?, (hm all k hgs).1, (hn all _ hgs').1]
    exact hv

/-- A sign applied to an operand that has a value. -/
theorem roll_unary {op : UnaryOp} {e : Expr} {m : Int64} {groups : List DiceGroup}
    (h : t.roll (e.eval config resolve) = (.ok (.int m, groups), t')) :
    t.roll ((unary op e).eval config resolve) =
      ((settle (some (op.unbounded m.toInt))).map (·, groups), t') := by
  rw [eval, Tray.roll_bind_of_ok h]
  dsimp only
  rw [Tray.roll_bind, roll_applyUnary_int]
  cases settle (some (op.unbounded m.toInt)) <;> rfl

/-- An operator applied to operands that have values, the right one evaluated behind the left. -/
theorem roll_binary (hdiv : config.division = .truncate) {op : BinaryOp} {l r : Expr}
    {m n : Int64} {gs gs' : List DiceGroup} {t₁ : Tray σ}
    (hl : t.roll (l.eval config resolve) = (.ok (.int m, gs), t₁))
    (hr : t₁.roll (r.eval config resolve) = (.ok (.int n, gs'), t')) :
    t.roll ((binary op l r).eval config resolve) =
      ((settle (op.unbounded? m.toInt n.toInt)).map (·, gs ++ gs'), t') := by
  rw [eval, Tray.roll_bind_of_ok hl]
  dsimp only
  rw [Tray.roll_bind_of_ok hr]
  dsimp only
  rw [hdiv, Tray.roll_bind, roll_applyBinary_int]
  cases settle (op.unbounded? m.toInt n.toInt) <;> rfl

/-- Where division drops the fraction, no number is a decimal. An evaluation that succeeds is one
over the unbounded integers, with every part of the expression in the 64-bit integers. An operation
whose operands have values fails just if it divides by zero, or if its exact result is no 64-bit
integer. -/
theorem truncating_arithmetic (hdiv : config.division = .truncate) (resolve : Resolver) :
    (∀ (e : Expr) (t t' : Tray σ) (x : Number) (groups : List DiceGroup),
      t.roll (e.eval config resolve) = (.ok (x, groups), t') → ∃ v : Int64, x = .int v) ∧
    (∀ (e : Expr) (t t' : Tray σ) (result : RollResult),
      t.roll (e.roll config resolve) = (.ok result, t') →
      ∃ v : Int64, result.total = .int v ∧ e.unbounded? resolve result.groups 0 = some v.toInt ∧
        ∀ part ∈ e.parts 0, ∃ w : Int64,
          part.2.unbounded? resolve result.groups part.1 = some w.toInt) ∧
    (∀ (op : UnaryOp) (e : Expr) (t t' : Tray σ) (x : Number) (groups : List DiceGroup),
      t.roll (e.eval config resolve) = (.ok (x, groups), t') →
      ∃ m : Int64, x = .int m ∧
        (∀ v : Int64, v.toInt = op.unbounded m.toInt →
          t.roll ((unary op e).eval config resolve) = (.ok (.int v, groups), t')) ∧
        (op.unbounded m.toInt < Int64.minValue.toInt ∨ Int64.maxValue.toInt < op.unbounded m.toInt →
          t.roll ((unary op e).eval config resolve) = (.error .overflow, t'))) ∧
    (∀ (op : BinaryOp) (l r : Expr) (t t₁ t' : Tray σ) (x y : Number) (gs gs' : List DiceGroup),
      t.roll (l.eval config resolve) = (.ok (x, gs), t₁) →
      t₁.roll (r.eval config resolve) = (.ok (y, gs'), t') →
      ∃ m n : Int64, x = .int m ∧ y = .int n ∧
        (op = .div ∧ n.toInt = 0 →
          t.roll ((binary op l r).eval config resolve) = (.error .divideByZero, t')) ∧
        (¬(op = .div ∧ n.toInt = 0) → ∃ z, op.unbounded? m.toInt n.toInt = some z ∧
          (∀ v : Int64, v.toInt = z →
            t.roll ((binary op l r).eval config resolve) = (.ok (.int v, gs ++ gs'), t')) ∧
          (z < Int64.minValue.toInt ∨ Int64.maxValue.toInt < z →
            t.roll ((binary op l r).eval config resolve) = (.error .overflow, t')))) := by
  refine ⟨?_, ?_, ?_, ?_⟩
  · intro e t t' x groups h
    obtain ⟨v, hx, -⟩ := eval_exact hdiv h
    exact ⟨v, hx⟩
  · intro e t t' result h
    obtain ⟨⟨total, groups⟩, t₁, heval, hpure⟩ := Tray.roll_bind_eq_ok_iff.mp h
    obtain ⟨rfl, rfl⟩ := Tray.roll_pure_eq_ok_iff.mp hpure
    obtain ⟨v, hx, hv⟩ := eval_exact hdiv heval
    exact ⟨v, hx, hv groups 0 List.prefix_rfl⟩
  · intro op e t t' x groups h
    obtain ⟨m, rfl, -⟩ := eval_exact hdiv h
    refine ⟨m, rfl, fun v hv => ?_, fun hout => ?_⟩
    · rw [roll_unary h, ← hv, settle_toInt]
      rfl
    · rw [roll_unary h, settle_of_overflow hout]
      rfl
  · intro op l r t t₁ t' x y gs gs' hl hr
    obtain ⟨m, rfl, -⟩ := eval_exact hdiv hl
    obtain ⟨n, rfl, -⟩ := eval_exact hdiv hr
    refine ⟨m, n, rfl, rfl, fun hzero => ?_, fun hzero => ?_⟩
    · rw [roll_binary hdiv hl hr, BinaryOp.unbounded?_eq_none_iff.mpr hzero]
      rfl
    · obtain ⟨z, hz⟩ := Option.ne_none_iff_exists'.mp fun h =>
        hzero (BinaryOp.unbounded?_eq_none_iff.mp h)
      refine ⟨z, hz, fun v hv => ?_, fun hout => ?_⟩
      · rw [roll_binary hdiv hl hr, hz, ← hv, settle_toInt]
        rfl
      · rw [roll_binary hdiv hl hr, hz, settle_of_overflow hout]
        rfl

/-- A quotient rounds toward zero, the two operations that leave the 64-bit integers at their lower
end fail, and so does a division by zero. -/
theorem truncating_arithmetic_limits : (default : Config).division = .truncate ∧
    ∃ (e : Expr) (result : RollResult) (t t' : Tray Script),
    e = binary .div (group (binary .sub (dice (literal 1) (literal 6) []) (literal 7)))
      (literal 2) ∧
    (Tray.ofSource (Script.ofList [4])).roll (e.roll default .empty) = (.ok result, t') ∧
    result.total = .int (-1) ∧ e.unbounded? .empty result.groups 0 = some (-1) ∧
    t.roll ((unary .minus (literal Int64.minValue)).eval default .empty) = (.error .overflow, t) ∧
    t.roll ((binary .div (literal Int64.minValue) (literal (-1))).eval default .empty) =
      (.error .overflow, t) ∧
    t.roll ((binary .div (literal 1) (literal 0)).eval default .empty) =
      (.error .divideByZero, t) := by
  have hdiv : (default : Config).division = .truncate := rfl
  obtain ⟨-, htotal, hunary, hbinary⟩ := truncating_arithmetic (σ := Script) hdiv .empty
  have hroll : (Tray.ofSource (Script.ofList [4])).roll
      ((binary .div (group (binary .sub (dice (literal 1) (literal 6) []) (literal 7)))
        (literal 2)).roll default .empty) =
      (.ok ⟨"(1d6 - 7) / 2", .int (-1), [⟨"1d6", 6, [.drawn 6 .kept 4], 4, false⟩]⟩,
        ⟨⟨#[4], 1⟩, #[⟨1, 6, 4⟩]⟩) := by
    rfl
  obtain ⟨v, hv, hexact, -⟩ := htotal _ _ _ _ hroll
  cases hv
  obtain ⟨m, hm, -, hnegated⟩ := hunary .minus (literal Int64.minValue)
    (.ofSource (Script.ofList [])) _ _ _ rfl
  cases hm
  obtain ⟨m, n, hm, hn, -, hquotient⟩ := hbinary .div (literal Int64.minValue) (literal (-1))
    (.ofSource (Script.ofList [])) _ _ _ _ _ _ rfl rfl
  cases hm
  cases hn
  obtain ⟨z, hz, -, hout⟩ := hquotient (by decide)
  obtain ⟨m, n, hm, hn, hzero, -⟩ := hbinary .div (literal 1) (literal 0)
    (.ofSource (Script.ofList [])) _ _ _ _ _ _ rfl rfl
  cases hm
  cases hn
  refine ⟨hdiv, _, _, _, _, rfl, hroll, rfl, hexact, hnegated (by decide), hout ?_,
    hzero (by decide)⟩
  rw [Option.some.inj hz.symm]
  decide

end Expr

end Tabletop
