import HostScript.Proofs.Evaluation

/-! What an expression folds to is what it evaluates to.

Folding settles a logical operator by either operand, so it may pass over an operand that faults or acts
on the host. A harmless expression has none: it calls no function, and divides only by what folds to an
integer other than zero. Where every variable has a value, its evaluation changes nothing. -/

namespace HostScript

namespace Expr

/-- The expression folds to an integer other than zero. -/
def foldsNonzero (e : Expr) : Bool := (e.fold.bind Value.integer?).any (· ≠ 0)

/-- There is no call, and no division but by what folds to an integer other than zero. -/
def harmless : Expr → Bool
  | const _ | var _ => true
  | unary _ operand => operand.harmless
  | strict op left right => left.harmless && right.harmless && (op ≠ .div || right.foldsNonzero)
  | logical _ left right => left.harmless && right.harmless
  | call .. => false

end Expr

/-! ### Operators over the integers

What an operator computes is told by the integers that the values stand for. A result that is a number is
taken modulo 2^64, to the one of its residues that a value can have. -/

/-- A number or a truth value. -/
abbrev Exact := Int ⊕ Bool

/-- What the value stands for. -/
def Value.exact : Value → Exact
  | integer n => .inl n.toInt
  | boolean b => .inr b

/-- The value that a result is kept as. -/
def Value.ofExact : Exact → Value
  | .inl n => integer (.ofInt n)
  | .inr b => boolean b

/-- The result of an operator on numbers without a bound. -/
def UnaryOp.exactResult? : UnaryOp → Exact → Option Exact
  | plus, .inl n => some (.inl n)
  | negate, .inl n => some (.inl (-n))
  | not, .inr b => some (.inr !b)
  | _, _ => none

/-- The result of an operator on numbers without a bound. A quotient is cut off towards zero. -/
def StrictOp.exactResult? : StrictOp → Int → Int → Option Exact
  | mul, a, b => some (.inl (a * b))
  | div, a, b => if b = 0 then none else some (.inl (a.tdiv b))
  | add, a, b => some (.inl (a + b))
  | sub, a, b => some (.inl (a - b))
  | lt, a, b => some (.inr (a < b))
  | le, a, b => some (.inr (a ≤ b))
  | gt, a, b => some (.inr (b < a))
  | ge, a, b => some (.inr (b ≤ a))
  | eq, a, b => some (.inr (a = b))
  | ne, a, b => some (.inr (a ≠ b))

theorem Value.ofExact_exact (v : Value) : ofExact v.exact = v := by
  cases v with
  | integer n => exact congrArg integer n.ofInt_toInt
  | boolean b => rfl

/-- A number that does not fit is kept as a residue of it. -/
theorem Value.exact_ofExact_number (n : Int) : (ofExact (.inl n)).exact = .inl (n.bmod Int64.size) :=
  congrArg Sum.inl Int64.toInt_ofInt

/-- An operator gives its exact result, kept as a value. -/
theorem UnaryOp.result?_eq_exactResult? (op : UnaryOp) (v : Value) :
    op.result? v = (op.exactResult? v.exact).map .ofExact := by
  cases op with
  | plus =>
    cases v with
    | integer n => exact congrArg some (Value.ofExact_exact (.integer n)).symm
    | boolean b => rfl
  | negate =>
    cases v with
    | integer n => simp [result?, exactResult?, Value.exact, Value.ofExact, Int64.ofInt_neg, Int64.ofInt_toInt]
    | boolean b => rfl
  | not => cases v <;> rfl

/-- So does one with two operands: arithmetic wraps, and only a division by zero gives nothing. -/
theorem StrictOp.result?_eq_exactResult? (op : StrictOp) (a b : Int64) :
    op.result? a b = (op.exactResult? a.toInt b.toInt).map .ofExact := by
  cases op with
  | mul | add | sub =>
    simp [result?, exactResult?, Value.ofExact, Int64.ofInt_mul, Int64.ofInt_add, Int64.ofInt_sub, Int64.ofInt_toInt]
  | div =>
    have hzero : b = 0 ↔ b.toInt = 0 := Int64.toInt_inj.symm
    have hquotient : a / b = .ofInt (a.toInt.tdiv b.toInt) :=
      Int64.toInt_inj.mp ((a.toInt_div b).trans Int64.toInt_ofInt.symm)
    by_cases hb : b = 0
    · rw [result?, exactResult?, if_pos hb, if_pos (hzero.mp hb)]
      rfl
    · rw [result?, exactResult?, if_neg hb, if_neg (mt hzero.mpr hb), hquotient]
      rfl
  | lt | gt => simp [result?, exactResult?, Value.ofExact, Int64.lt_iff_toInt_lt]
  | le | ge => simp [result?, exactResult?, Value.ofExact, Int64.le_iff_toInt_le]
  | eq | ne => simp [result?, exactResult?, Value.ofExact, Int64.toInt_inj]

/-! ### Operators on values of their types -/

theorem Value.exists_integer {v : Value} (h : v.ty = .integer) : ∃ n, v = .integer n := by
  cases v with
  | integer n => exact ⟨n, rfl⟩
  | boolean b => cases h

theorem Value.exists_boolean {v : Value} (h : v.ty = .boolean) : ∃ b, v = .boolean b := by
  cases v with
  | integer n => cases h
  | boolean b => exact ⟨b, rfl⟩

theorem UnaryOp.exists_result {op : UnaryOp} {v : Value} (h : v.ty = op.ty) : ∃ w, op.result? v = some w ∧ w.ty = op.ty := by
  cases op with
  | plus | negate =>
    obtain ⟨n, rfl⟩ := Value.exists_integer h
    exact ⟨_, rfl, rfl⟩
  | not =>
    obtain ⟨b, rfl⟩ := Value.exists_boolean h
    exact ⟨_, rfl, rfl⟩

/-- Only a division by zero has no result. -/
theorem StrictOp.exists_result {op : StrictOp} {a b : Int64} (h : op = .div → b ≠ 0) :
    ∃ w, op.result? a b = some w ∧ w.ty = op.ty := by
  cases op with
  | div => exact ⟨_, if_neg (h rfl), rfl⟩
  | _ => exact ⟨_, rfl, rfl⟩

/-- A logical operator gives its left operand if that is decisive and else its right one. -/
theorem LogicalOp.result_eq (op : LogicalOp) (a b : Bool) : op.result a b = if a = op.decisive then a else b := by
  cases op <;> cases a <;> cases b <;> rfl

/-- A folded logical operator has the value of the operator on all operands that fold as told. -/
theorem Expr.eq_of_foldLogical {op : LogicalOp} {a b c : Bool} {x y : Option Bool} (ha : ∀ a', x = some a' → a = a')
    (hb : ∀ b', y = some b' → b = b') (h : foldLogical op x y = some c) : op.result a b = c := by
  rw [LogicalOp.result_eq]
  match x, y, h with
  | some a', some b', h =>
    cases h
    rw [ha a' rfl, hb b' rfl, LogicalOp.result_eq]
  | some a', none, h =>
    obtain ⟨hd, ⟨⟩⟩ := Option.ite_none_right_eq_some.mp h
    rw [ha _ rfl, if_pos hd]
  | none, some b', h =>
    obtain ⟨hd, ⟨⟩⟩ := Option.ite_none_right_eq_some.mp h
    rw [hb _ rfl, hd]
    split
    next ha => exact ha
    next => rfl

/-! ### Harmless expressions -/

open Eval in
/-- The value that a harmless expression has, and that its folding tells. -/
theorem Expr.eval_harmless {σ : Type} {host : Host σ} {scope : Scope} {s : Store σ} (hint : scope.Integral)
    (hload : ∀ v ∈ scope.vars, ∃ n, load host v s = .ok (.integer n) s) {e : Expr} (he : e.Typed scope) (hh : e.harmless) :
    ∃ v, e.eval host s = .ok (some v) s ∧ v.ty = e.ty ∧ ∀ u, e.fold = some u → v = u := by
  induction he with
  | const value => exact ⟨value, rfl, rfl, fun u hu => Option.some.inj hu⟩
  | @var target found =>
    have hmem := Scope.mem_of_variableNamed? found
    obtain ⟨n, hn⟩ := hload target hmem
    refine ⟨.integer n, ?_, (hint target hmem).symm, fun u hu => by cases hu⟩
    rw [eval, EStateM.bind_of_ok hn]
    rfl
  | @unary op operand ty _ ih =>
    obtain ⟨v, hv, hty, hfold⟩ := ih hh
    obtain ⟨w, hw, hwty⟩ := UnaryOp.exists_result (hty.trans ty)
    refine ⟨w, ?_, hwty, fun u hu => ?_⟩
    · rw [eval, bind_orStuck (fun found => found) hv rfl, hw]
      rfl
    · obtain ⟨v', hv', hu⟩ := Option.bind_eq_some_iff.mp hu
      rw [← hfold v' hv', hw] at hu
      exact Option.some.inj hu
  | @strict op left right leftTy rightTy _ _ ihl ihr =>
    rw [harmless, Bool.and_eq_true, Bool.and_eq_true] at hh
    obtain ⟨⟨hl, hr⟩, hdiv⟩ := hh
    obtain ⟨v, hv, hvty, hvfold⟩ := ihl hl
    obtain ⟨w, hw, hwty, hwfold⟩ := ihr hr
    obtain ⟨a, rfl⟩ := Value.exists_integer (hvty.trans leftTy)
    obtain ⟨b, rfl⟩ := Value.exists_integer (hwty.trans rightTy)
    have hne : op = .div → b ≠ 0 := by
      rintro rfl
      simp only [ne_eq, not_true_eq_false, decide_false, Bool.false_or, foldsNonzero, Option.any_eq_true] at hdiv
      obtain ⟨n, hn, hn0⟩ := hdiv
      cases hwfold _ (Value.eq_of_integer? hn)
      simpa using hn0
    obtain ⟨value, hvalue, hty⟩ := StrictOp.exists_result (a := a) hne
    refine ⟨value, ?_, hty, fun u hu => ?_⟩
    · rw [eval, bind_orStuck (·.bind Value.integer?) hv rfl, bind_orStuck (·.bind Value.integer?) hw rfl, hvalue]
      rfl
    · rw [fold] at hu
      split at hu
      next a' b' ha hb =>
        cases hvfold _ (Value.eq_of_integer? ha)
        cases hwfold _ (Value.eq_of_integer? hb)
        rw [hvalue] at hu
        exact Option.some.inj hu
      next => cases hu
  | @logical op left right leftTy rightTy _ _ ihl ihr =>
    rw [harmless, Bool.and_eq_true] at hh
    obtain ⟨v, hv, hvty, hvfold⟩ := ihl hh.1
    obtain ⟨w, hw, hwty, hwfold⟩ := ihr hh.2
    obtain ⟨a, rfl⟩ := Value.exists_boolean (hvty.trans leftTy)
    obtain ⟨b, rfl⟩ := Value.exists_boolean (hwty.trans rightTy)
    refine ⟨.boolean (op.result a b), ?_, rfl, fun u hu => ?_⟩
    · rw [eval, bind_orStuck (·.bind Value.boolean?) hv rfl, LogicalOp.result_eq]
      split
      · rfl
      · rw [bind_orStuck (·.bind Value.boolean?) hw rfl]
        rfl
    · obtain ⟨c, hc, rfl⟩ := Option.map_eq_some_iff.mp hu
      have ha : ∀ a', left.fold.bind Value.boolean? = some a' → a = a' := by
        intro a' ha'
        cases hvfold _ (Value.eq_of_boolean? ha')
        rfl
      have hb : ∀ b', right.fold.bind Value.boolean? = some b' → b = b' := by
        intro b' hb'
        cases hwfold _ (Value.eq_of_boolean? hb')
        rfl
      rw [eq_of_foldLogical ha hb hc]
  | call => cases hh

/-! ### Types of folded values -/

namespace Expr

/-- The parts have the types that their places ask for, whatever the variables and functions are; the
    arguments of a call have values. -/
inductive WellTyped : Expr → Prop
  | const (value : Value) : WellTyped (.const value)
  | var (target : Variable) : WellTyped (.var target)
  | unary {op : UnaryOp} {operand : Expr} (ty : operand.ty = op.ty) (typed : operand.WellTyped) :
      WellTyped (.unary op operand)
  | strict {op : StrictOp} {left right : Expr} (leftTy : left.ty = .integer) (rightTy : right.ty = .integer)
      (leftTyped : left.WellTyped) (rightTyped : right.WellTyped) : WellTyped (.strict op left right)
  | logical {op : LogicalOp} {left right : Expr} (leftTy : left.ty = .boolean) (rightTy : right.ty = .boolean)
      (leftTyped : left.WellTyped) (rightTyped : right.WellTyped) : WellTyped (.logical op left right)
  | call {name : String} {function : FunctionHandle} {returns : Ty} {args : List Expr}
      (valued : ∀ e ∈ args, e.ty.isValue) (typed : ∀ e ∈ args, e.WellTyped) :
      WellTyped (.call name function returns args)

/-- What is typed in a scope is well typed. -/
theorem Typed.wellTyped {scope : Scope} {e : Expr} (h : e.Typed scope) : e.WellTyped := by
  induction h with
  | const value => exact .const value
  | var _ => exact .var _
  | unary ty _ ih => exact .unary ty ih
  | strict leftTy rightTy _ _ ihl ihr => exact .strict leftTy rightTy ihl ihr
  | logical leftTy rightTy _ _ ihl ihr => exact .logical leftTy rightTy ihl ihr
  | call _ types _ ih => exact .call (fun _ ha => isValue_of_mem_args types ha) ih

/-- A folded value has the type of the expression. -/
theorem ty_of_fold {e : Expr} (h : e.WellTyped) {v : Value} (hv : e.fold = some v) : v.ty = e.ty := by
  induction h generalizing v with
  | const value =>
    cases hv
    rfl
  | var target => cases hv
  | @unary op operand ty _ ih =>
    obtain ⟨a, ha, hr⟩ := Option.bind_eq_some_iff.mp hv
    obtain ⟨w, hw, hty⟩ := UnaryOp.exists_result ((ih ha).trans ty)
    rw [hr] at hw
    cases hw
    exact hty
  | @strict op left right =>
    rw [fold] at hv
    split at hv
    next a b _ _ =>
      have hne : op = .div → b ≠ 0 := by
        rintro rfl rfl
        cases hv
      obtain ⟨w, hw, hty⟩ := StrictOp.exists_result (a := a) hne
      rw [hv] at hw
      cases hw
      exact hty
    next => cases hv
  | logical =>
    obtain ⟨b, -, rfl⟩ := Option.map_eq_some_iff.mp hv
    rfl
  | call => cases hv

end Expr

end HostScript
