import HostScript.Proofs.Folding
import HostScript.Proofs.Machine.Simulation

/-! What an expression folds to is what its code puts on the stack.

A run may begin anywhere: slots may be missing or hold values of any type, the stack may hold anything,
and the host may answer as it likes. The code of a well-typed expression still goes forward through its
own addresses and either stops with an error or leaves the stack with what it pushed on top (`Delivers`).
An operator that finds a value of the wrong type stops the run, so what is pushed is never a value other
than the folded one; and where there are neither variables nor calls, nothing is pushed that folding
does not tell. -/

namespace HostScript

/-! ### Runs up to an address -/

namespace Machine

variable {σ : Type} {host : Host σ} {chunk : Chunk}

/-- Run until the pointer stands at the address `last` or the run ends; none if the budget is too small. -/
def runTo (host : Host σ) (chunk : Chunk) (last : Nat) : Nat → Machine σ → Option (Machine σ ⊕ Outcome σ)
  | 0, m => if m.ip = last then some (.inl m) else none
  | fuel + 1, m =>
    if m.ip = last then some (.inl m)
    else
      match m.step host chunk with
      | .inl m => runTo host chunk last fuel m
      | .inr outcome => some (.inr outcome)

/-- The run goes forward and stops with an error before `last`, or gets there in a state that `Q` holds of. -/
inductive Delivers (host : Host σ) (chunk : Chunk) (last : Nat) (Q : Machine σ → Prop) : Machine σ → Prop
  | here {m : Machine σ} (ip : m.ip = last) (holds : Q m) : Delivers host chunk last Q m
  | next {m m₁ : Machine σ} (step : m.step host chunk = .inl m₁) (forward : m.ip < m₁.ip)
      (rest : Delivers host chunk last Q m₁) : Delivers host chunk last Q m
  | stops {m : Machine σ} {e : RuntimeError} {world : σ} (step : m.step host chunk = .inr (.error e world))
      (before : m.ip < last) : Delivers host chunk last Q m

namespace Delivers

variable {last : Nat} {m : Machine σ} {Q R : Machine σ → Prop}

theorem ip_le (h : Delivers host chunk last Q m) : m.ip ≤ last := by
  induction h with
  | here ip _ => exact Nat.le_of_eq ip
  | next _ forward _ ih => omega
  | stops _ before => exact Nat.le_of_lt before

/-- One piece of code behind another. -/
theorem bind {mid : Nat} (h : Delivers host chunk mid Q m) (hmid : mid ≤ last)
    (hR : ∀ m', m'.ip = mid → Q m' → Delivers host chunk last R m') : Delivers host chunk last R m := by
  induction h with
  | here ip holds => exact hR _ ip holds
  | next step forward _ ih => exact .next step forward ih
  | stops step before => exact .stops step (Nat.lt_of_lt_of_le before hmid)

/-- A single instruction that goes on to the next address. -/
theorem one {m₁ : Machine σ} (step : m.step host chunk = .inl m₁) (ip : m₁.ip = m.ip + 1) (holds : Q m₁) :
    Delivers host chunk (m.ip + 1) Q m :=
  .next step (by omega) (.here ip holds)

/-- Steps as many as there are addresses on the way are enough. -/
theorem isSome_runTo (h : Delivers host chunk last Q m) {fuel : Nat} (hfuel : last ≤ m.ip + fuel) :
    (m.runTo host chunk last fuel).isSome := by
  induction h generalizing fuel with
  | here ip _ => cases fuel <;> rw [runTo, if_pos ip] <;> rfl
  | @next m m₁ step forward rest ih =>
    have hlt : m.ip < last := Nat.lt_of_lt_of_le forward rest.ip_le
    obtain ⟨fuel, rfl⟩ := Nat.exists_eq_add_of_le' (show 1 ≤ fuel by omega)
    rw [runTo, if_neg (Nat.ne_of_lt hlt), step]
    exact ih (by omega)
  | stops step before =>
    obtain ⟨fuel, rfl⟩ := Nat.exists_eq_add_of_le' (show 1 ≤ fuel by omega)
    rw [runTo, if_neg (Nat.ne_of_lt before), step]
    rfl

/-- A run that ends or gets to `last` does it in one of the two ways. -/
theorem of_runTo (h : Delivers host chunk last Q m) {fuel : Nat} {r : Machine σ ⊕ Outcome σ}
    (hr : m.runTo host chunk last fuel = some r) :
    (∃ e world, r = .inr (.error e world)) ∨ ∃ m', r = .inl m' ∧ m'.ip = last ∧ Q m' := by
  induction h generalizing fuel with
  | @here m ip holds =>
    cases fuel <;> rw [runTo, if_pos ip] at hr <;> cases hr <;> exact .inr ⟨m, rfl, ip, holds⟩
  | @next m m₁ step forward rest ih =>
    have hne : m.ip ≠ last := Nat.ne_of_lt (Nat.lt_of_lt_of_le forward rest.ip_le)
    cases fuel with
    | zero =>
      rw [runTo, if_neg hne] at hr
      cases hr
    | succ fuel =>
      rw [runTo, if_neg hne, step] at hr
      exact ih hr
  | @stops m e world step before =>
    cases fuel with
    | zero =>
      rw [runTo, if_neg (Nat.ne_of_lt before)] at hr
      cases hr
    | succ fuel =>
      rw [runTo, if_neg (Nat.ne_of_lt before), step] at hr
      cases hr
      exact .inl ⟨e, world, rfl⟩

end Delivers

/-- The second state has these values on the stack of the first one, and the same slots. -/
structure Adds (m : Machine σ) (values : List Value) (m' : Machine σ) : Prop where
  stack : m'.stack = values ++ m.stack
  params : m'.params = m.params
  locals : m'.locals = m.locals

theorem Adds.trans {m m₁ m₂ : Machine σ} {values more : List Value} (h : m.Adds values m₁) (h' : m₁.Adds more m₂) :
    m.Adds (more ++ values) m₂ where
  stack := by rw [h'.stack, h.stack, List.append_assoc]
  params := h'.params.trans h.params
  locals := h'.locals.trans h.locals

/-! ### Instructions in any state -/

section Instructions

variable {last target : Nat} {label : Label} {Q : Machine σ → Prop} {m₀ m : Machine σ} {a b : Value}

theorem delivers_load {v : Variable} (hi : chunk.code[m.ip]? = some v.load) :
    Delivers host chunk (m.ip + 1) (fun m' => ∃ value, m.Adds [value] m') m := by
  cases hb : v.binding with
  | parameter index =>
    rw [Variable.load, hb] at hi
    cases hv : m.params[index]? with
    | some value => exact .one (step_loadParam hi hv) rfl ⟨value, rfl, rfl, rfl⟩
    | none =>
      have hs : m.step host chunk = .inr (.error (missingParam index) m.host) := by
        simp [step, hi, execute, loadParam, hv]
      exact .stops hs (Nat.lt_succ_self _)
  | localSlot slot =>
    rw [Variable.load, hb] at hi
    cases hv : m.locals[slot]? with
    | some value => exact .one (step_loadLocal hi hv) rfl ⟨value, rfl, rfl, rfl⟩
    | none =>
      have hs : m.step host chunk = .inr (.error (missingLocal slot) m.host) := by
        simp [step, hi, execute, loadLocal, hv]
      exact .stops hs (Nat.lt_succ_self _)
  | global handle =>
    rw [Variable.load, hb] at hi
    have hs : m.step host chunk = _ := step_loadGlobal hi
    cases hv : host.loadGlobal handle m.host with
    | ok n world =>
      rw [hv] at hs
      exact .one hs rfl ⟨.integer n, rfl, rfl, rfl⟩
    | error e world =>
      rw [hv] at hs
      exact .stops hs (Nat.lt_succ_self _)

/-- The sign `+` does not look at its operand; the other operators stop at one that they have no result for. -/
theorem delivers_unary {op : UnaryOp} (hi : Within op.code (chunk.code[·]?) m.ip) (h : m₀.Adds [a] m) :
    Delivers host chunk (m.ip + op.code.length)
      (fun m' => ∃ w, (∀ v, op.result? a = some v → w = v) ∧ m₀.Adds [w] m') m := by
  cases op with
  | plus =>
    refine .here rfl ⟨a, fun v hv => ?_, h⟩
    cases a with
    | integer n => exact Option.some.inj hv
    | boolean b => cases hv
  | negate =>
    cases a with
    | integer n => exact .one (step_neg hi.head h.stack) rfl ⟨_, fun v hv => Option.some.inj hv, rfl, h.params, h.locals⟩
    | boolean b =>
      have hs : m.step host chunk = .inr (.error (.typeConfusion m.ip .integer (some (.boolean b))) m.host) := by
        simp [step, show chunk.code[m.ip]? = some .neg from hi.head, execute, popInteger, pop, h.stack]
      exact .stops hs (Nat.lt_succ_self _)
  | not =>
    cases a with
    | integer n =>
      have hs : m.step host chunk = .inr (.error (.typeConfusion m.ip .boolean (some (.integer n))) m.host) := by
        simp [step, show chunk.code[m.ip]? = some .not from hi.head, execute, popBoolean, pop, h.stack]
      exact .stops hs (Nat.lt_succ_self _)
    | boolean b => exact .one (step_not hi.head h.stack) rfl ⟨_, fun v hv => Option.some.inj hv, rfl, h.params, h.locals⟩

theorem delivers_strict {op : StrictOp} (hi : chunk.code[m.ip]? = some (.strict op)) (h : m₀.Adds [b, a] m) :
    Delivers host chunk (m.ip + 1)
      (fun m' => ∃ n k w, a = .integer n ∧ b = .integer k ∧ op.result? n k = some w ∧ m₀.Adds [w] m') m := by
  cases b with
  | boolean c =>
    have hs : m.step host chunk = .inr (.error (.typeConfusion m.ip .integer (some (.boolean c))) m.host) := by
      simp [step, hi, execute, popInteger, pop, h.stack]
    exact .stops hs (Nat.lt_succ_self _)
  | integer k =>
    cases a with
    | boolean c =>
      have hs : m.step host chunk = .inr (.error (.typeConfusion m.ip .integer (some (.boolean c))) m.host) := by
        simp [step, hi, execute, popInteger, pop, h.stack]
      exact .stops hs (Nat.lt_succ_self _)
    | integer n =>
      have hs : m.step host chunk = _ := step_strict hi h.stack
      cases hr : op.result? n k with
      | some w =>
        rw [hr] at hs
        exact .one hs rfl ⟨n, k, w, rfl, rfl, hr, rfl, h.params, h.locals⟩
      | none =>
        rw [hr] at hs
        exact .stops hs (Nat.lt_succ_self _)

/-- A call takes the values of its arguments and leaves a result if it declares one. -/
theorem delivers_call {function : FunctionHandle} {argc : Nat} {returns : Ty} {values : List Value}
    (hi : chunk.code[m.ip]? = some (.call function argc returns)) (h : m₀.Adds values m) (hlen : values.length = argc) :
    Delivers host chunk (m.ip + 1)
      (fun m' => ∃ pushed : Option Value, (returns.isValue → pushed.isSome) ∧ m₀.Adds pushed.toList m') m := by
  have hle : argc ≤ m.stack.length := by rw [h.stack, List.length_append]; omega
  have hdrop : m.stack.drop argc = m₀.stack := by rw [h.stack, List.drop_left' hlen]
  have hs : m.step host chunk = _ := step_call hi hle
  rw [hdrop] at hs
  cases hc : host.call function (m.stack.take argc).reverse m.host with
  | error e world =>
    rw [hc] at hs
    exact .stops hs (Nat.lt_succ_self _)
  | ok result world =>
    rw [hc] at hs
    cases returns with
    | void => exact .one hs rfl ⟨none, fun hv => (by cases hv), rfl, h.params, h.locals⟩
    | integer =>
      rcases result with _ | n | c
      · exact .stops hs (Nat.lt_succ_self _)
      · exact .one hs rfl ⟨some (.integer n), fun _ => rfl, rfl, h.params, h.locals⟩
      · exact .stops hs (Nat.lt_succ_self _)
    | boolean =>
      rcases result with _ | n | c
      · exact .stops hs (Nat.lt_succ_self _)
      · exact .stops hs (Nat.lt_succ_self _)
      · exact .one hs rfl ⟨some (.boolean c), fun _ => rfl, rfl, h.params, h.locals⟩

theorem delivers_jump (hi : chunk.code[m.ip]? = some (.jump label)) (ht : chunk.target? label = some target)
    (hlt : m.ip < target) (h : m₀.Adds [a] m)
    (hQ : ∀ m', m'.ip = target → m₀.Adds [a] m' → Delivers host chunk last Q m') : Delivers host chunk last Q m :=
  .next (step_jump hi ht) hlt (hQ _ rfl ⟨h.stack, h.params, h.locals⟩)

theorem delivers_push (hi : chunk.code[m.ip]? = some (.push a)) (h : m₀.Adds [] m)
    (hQ : ∀ m', m'.ip = m.ip + 1 → m₀.Adds [a] m' → Delivers host chunk last Q m') : Delivers host chunk last Q m :=
  .next (step_push hi) (Nat.lt_succ_self _) (hQ _ rfl ⟨congrArg (a :: ·) h.stack, h.params, h.locals⟩)

/-- A fork is passed on either side, or it finds no truth value. -/
theorem delivers_jumpUnless (hi : chunk.code[m.ip]? = some (.jumpUnless label)) (ht : chunk.target? label = some target)
    (hlt : m.ip < target) (hlast : m.ip < last) (h : m₀.Adds [a] m)
    (htrue : ∀ m', a = .boolean true → m'.ip = m.ip + 1 → m₀.Adds [] m' → Delivers host chunk last Q m')
    (hfalse : ∀ m', a = .boolean false → m'.ip = target → m₀.Adds [] m' → Delivers host chunk last Q m') :
    Delivers host chunk last Q m := by
  rcases a with n | _ | _
  · have hs : m.step host chunk = .inr (.error (.typeConfusion m.ip .boolean (some (.integer n))) m.host) := by
      simp [step, hi, execute, popBoolean, pop, h.stack]
    exact .stops hs hlast
  · exact .next (step_jumpUnless hi h.stack ht) hlt (hfalse _ rfl rfl ⟨rfl, h.params, h.locals⟩)
  · exact .next (step_jumpUnless hi h.stack ht) (Nat.lt_succ_self _) (htrue _ rfl rfl ⟨rfl, h.params, h.locals⟩)

end Instructions

end Machine

/-! ### Expressions -/

/-- There is neither a variable nor a call. -/
def Expr.closed : Expr → Bool
  | const _ => true
  | var _ | call .. => false
  | unary _ operand => operand.closed
  | strict _ left right | logical _ left right => left.closed && right.closed

/-- What the code of the expression may push: a value if its type has values, and then the folded one if
    there is one; without variables and calls, nothing that folding does not tell. -/
structure Expr.Pushes (e : Expr) (pushed : Option Value) : Prop where
  isSome : e.ty.isValue → pushed.isSome
  folded : ∀ v, e.fold = some v → pushed = some v
  closed : e.closed → ∀ v, pushed = some v → e.fold = some v

namespace Expr

theorem Pushes.exists_value {e : Expr} {pushed : Option Value} (h : e.Pushes pushed) (hv : e.ty.isValue) :
    ∃ v, pushed = some v :=
  Option.isSome_iff_exists.mp (h.isSome hv)

/-- What an expression pushes whose folding tells nothing. -/
theorem pushes_of_open {e : Expr} {pushed : Option Value} (isSome : e.ty.isValue → pushed.isSome) (hfold : e.fold = none)
    (hopen : e.closed = false) : e.Pushes pushed where
  isSome := isSome
  folded v hv := by
    rw [hfold] at hv
    cases hv
  closed hc := by
    rw [hopen] at hc
    cases hc

theorem pushes_const (value : Value) : (const value).Pushes (some value) where
  isSome _ := rfl
  folded _ hv := hv
  closed _ _ hv := hv

theorem Pushes.unary {op : UnaryOp} {operand : Expr} {a w : Value} (ty : operand.ty = op.ty) (typed : operand.WellTyped)
    (h : operand.Pushes (some a)) (hw : ∀ v, op.result? a = some v → w = v) :
    (unary op operand).Pushes (some w) where
  isSome _ := rfl
  folded v hv := by
    obtain ⟨a', ha', hr⟩ := Option.bind_eq_some_iff.mp hv
    cases h.folded a' ha'
    rw [hw v hr]
  closed hc v hv := by
    cases hv
    have hfold := h.closed hc a rfl
    obtain ⟨w', hw', -⟩ := UnaryOp.exists_result ((ty_of_fold typed hfold).trans ty)
    rw [fold, hfold, Option.bind_some, hw', hw w' hw']

theorem Pushes.strict {op : StrictOp} {left right : Expr} {n k : Int64} {w : Value} (hl : left.Pushes (some (.integer n)))
    (hr : right.Pushes (some (.integer k))) (hw : op.result? n k = some w) : (strict op left right).Pushes (some w) where
  isSome _ := rfl
  folded v hv := by
    rw [fold] at hv
    split at hv
    next a b ha hb =>
      cases hl.folded _ (Value.eq_of_integer? ha)
      cases hr.folded _ (Value.eq_of_integer? hb)
      exact hw.symm.trans hv
    next => cases hv
  closed hc v hv := by
    cases hv
    obtain ⟨hcl, hcr⟩ := (Bool.and_eq_true _ _).mp hc
    rw [fold, hl.closed hcl _ rfl, hr.closed hcr _ rfl]
    exact hw

theorem foldLogical_decisive (op : LogicalOp) (y : Option Bool) :
    foldLogical op (some op.decisive) y = some op.decisive := by
  rcases y with _ | b
  · exact if_pos rfl
  · rw [foldLogical, LogicalOp.result_eq, if_pos rfl]

/-- A left operand that is decisive is the result, whatever the right one folds to. -/
theorem Pushes.logical_left (op : LogicalOp) {left right : Expr} (h : left.Pushes (some (.boolean op.decisive))) :
    (logical op left right).Pushes (some (.boolean op.decisive)) where
  isSome _ := rfl
  folded v hv := by
    obtain ⟨c, hc, rfl⟩ := Option.map_eq_some_iff.mp hv
    have hleft : ∀ a', left.fold.bind Value.boolean? = some a' → op.decisive = a' := by
      intro a' ha'
      cases h.folded _ (Value.eq_of_boolean? ha')
      rfl
    have hright : ∀ b', right.fold.bind Value.boolean? = some b' → (right.fold.bind Value.boolean?).getD true = b' := by
      intro b' hb'
      rw [hb', Option.getD_some]
    rw [← eq_of_foldLogical hleft hright hc, LogicalOp.result_eq, if_pos rfl]
  closed hc v hv := by
    cases hv
    rw [fold, h.closed ((Bool.and_eq_true _ _).mp hc).1 _ rfl]
    exact congrArg (Option.map Value.boolean) (foldLogical_decisive op _)

/-- Behind a left operand that is not decisive the right one is the result. It may be a value of another type
    than folding expects, but not if it folds. -/
theorem Pushes.logical_right (op : LogicalOp) {left right : Expr} {a : Bool} {w : Value} (rightTy : right.ty = .boolean)
    (typed : right.WellTyped) (hl : left.Pushes (some (.boolean a))) (hr : right.Pushes (some w)) (ha : a ≠ op.decisive) :
    (logical op left right).Pushes (some w) where
  isSome _ := rfl
  folded v hv := by
    obtain ⟨c, hc, rfl⟩ := Option.map_eq_some_iff.mp hv
    have hleft : ∀ a', left.fold.bind Value.boolean? = some a' → a = a' := by
      intro a' ha'
      cases hl.folded _ (Value.eq_of_boolean? ha')
      rfl
    cases hfold : right.fold.bind Value.boolean? with
    | some b =>
      have hright : ∀ b', right.fold.bind Value.boolean? = some b' → b = b' :=
        fun b' hb' => Option.some.inj (hfold.symm.trans hb')
      rw [hr.folded _ (Value.eq_of_boolean? hfold), ← eq_of_foldLogical hleft hright hc, LogicalOp.result_eq, if_neg ha]
    | none =>
      -- the left operand alone would have to settle the result
      rw [hfold] at hc
      cases hx : left.fold.bind Value.boolean? with
      | none =>
        rw [hx] at hc
        cases hc
      | some a' =>
        rw [hx] at hc
        obtain ⟨hd, -⟩ := Option.ite_none_right_eq_some.mp hc
        exact absurd ((hleft a' hx).trans hd) ha
  closed hc v hv := by
    cases hv
    obtain ⟨hcl, hcr⟩ := (Bool.and_eq_true _ _).mp hc
    have hfold := hr.closed hcr w rfl
    obtain ⟨b, rfl⟩ := Value.exists_boolean ((ty_of_fold typed hfold).trans rightTy)
    rw [fold, hl.closed hcl _ rfl, hfold]
    change (some (op.result a b)).map Value.boolean = _
    rw [LogicalOp.result_eq, if_neg ha]
    rfl

open Machine

variable {σ : Type} {host : Host σ} {chunk : Chunk}

/-- From every state at its front the code of the expression runs to its end and has then pushed what it
    may, unless an error stops it. -/
def Runs (host : Host σ) (chunk : Chunk) (e : Expr) : Prop :=
  ∀ (address : Nat) (label : Label), (e.fragment address label).Placed chunk address label → ∀ m : Machine σ, m.ip = address →
    Delivers host chunk (address + (e.fragment address label).code.length)
      (fun m' => ∃ pushed, e.Pushes pushed ∧ m.Adds pushed.toList m') m

/-- The arguments of a call push one value each. -/
theorem delivers_args : ∀ {args : List Expr} {address : Nat} {label : Label}, (∀ e ∈ args, e.ty.isValue) →
    (∀ e ∈ args, e.Runs host chunk) → (fragments args address label).Placed chunk address label →
    ∀ m : Machine σ, m.ip = address → Delivers host chunk (address + (fragments args address label).code.length)
      (fun m' => ∃ values : List Value, values.length = args.length ∧ m.Adds values m') m
  | [], address, label, _, _, _, m, hip => .here hip ⟨[], rfl, rfl, rfl, rfl⟩
  | e :: es, address, label, hv, h, hp, m, hip => by
    unfold fragments at hp ⊢
    rw [List.length_append, ← Nat.add_assoc]
    refine (h e List.mem_cons_self _ _ ⟨hp.code.left, hp.targets.left⟩ m hip).bind (Nat.le_add_right _ _) ?_
    rintro m₁ hip₁ ⟨pushed, hpushed, hadds⟩
    obtain ⟨v, rfl⟩ := hpushed.exists_value (hv e List.mem_cons_self)
    have hmore := delivers_args (fun a ha => hv a (List.mem_cons_of_mem e ha)) (fun a ha => h a (List.mem_cons_of_mem e ha))
      ⟨hp.code.right rfl, hp.targets.right rfl⟩ m₁ hip₁
    refine hmore.bind (Nat.le_refl _) ?_
    rintro m₂ hip₂ ⟨values, hlen, hadds₂⟩
    exact .here hip₂ ⟨values ++ [v], by rw [List.length_append, hlen]; rfl, hadds.trans hadds₂⟩

theorem runs_unary {op : UnaryOp} {operand : Expr} (ty : operand.ty = op.ty) (typed : operand.WellTyped)
    (ih : operand.Runs host chunk) : (unary op operand).Runs host chunk := by
  intro address label hp m hip
  unfold fragment at hp ⊢
  rw [List.length_append, ← Nat.add_assoc]
  refine (ih _ _ ⟨hp.code.left, hp.targets⟩ m hip).bind (Nat.le_add_right _ _) ?_
  rintro m₁ hip₁ ⟨pushed, hpushed, hadds⟩
  obtain ⟨a, rfl⟩ := hpushed.exists_value (by rw [ty]; cases op <;> rfl)
  rw [← hip₁]
  refine (delivers_unary (hp.code.right hip₁) hadds).bind (Nat.le_refl _) ?_
  rintro m₂ hip₂ ⟨w, hw, hadds₂⟩
  exact .here hip₂ ⟨some w, hpushed.unary ty typed hw, hadds₂⟩

theorem runs_strict {op : StrictOp} {left right : Expr} (leftTy : left.ty = .integer) (rightTy : right.ty = .integer)
    (ihl : left.Runs host chunk) (ihr : right.Runs host chunk) : (strict op left right).Runs host chunk := by
  intro address label hp m hip
  unfold fragment at hp ⊢
  simp only [List.length_append, List.length_singleton, ← Nat.add_assoc]
  refine (ihl _ _ ⟨hp.code.left.left, hp.targets.left⟩ m hip).bind (by omega) ?_
  rintro m₁ hip₁ ⟨pushed, hleft, hadds⟩
  obtain ⟨a, rfl⟩ := hleft.exists_value (by rw [leftTy]; rfl)
  refine (ihr _ _ ⟨hp.code.left.right rfl, hp.targets.right rfl⟩ m₁ hip₁).bind (by omega) ?_
  rintro m₂ hip₂ ⟨pushed, hright, hadds₂⟩
  obtain ⟨b, rfl⟩ := hright.exists_value (by rw [rightTy]; rfl)
  have hi : chunk.code[m₂.ip]? = some (.strict op) := by
    rw [hip₂]
    exact (hp.code.right (by simp [Nat.add_assoc])).head
  rw [← hip₂]
  refine (delivers_strict hi (hadds.trans hadds₂)).bind (Nat.le_refl _) ?_
  rintro m₃ hip₃ ⟨n, k, w, rfl, rfl, hw, hadds₃⟩
  exact .here hip₃ ⟨some w, hleft.strict hright hw, hadds₃⟩

theorem runs_or {left right : Expr} (leftTy : left.ty = .boolean) (rightTy : right.ty = .boolean) (typed : right.WellTyped)
    (ihl : left.Runs host chunk) (ihr : right.Runs host chunk) : (logical .or left right).Runs host chunk := by
  intro address label hp m hip
  unfold fragment at hp ⊢
  simp only [List.length_append, List.length_cons, List.length_nil, Nat.zero_add, ← Nat.add_assoc]
  have hmid : Within [.jumpUnless label, .push (.boolean true), .jump (label + 1)] (chunk.code[·]?) _ :=
    hp.code.left.right rfl
  refine (ihl _ _ ⟨hp.code.left.left, hp.targets.tail.tail.left⟩ m hip).bind (by omega) ?_
  rintro m₁ hip₁ ⟨pushed, hleft, hadds⟩
  obtain ⟨a, rfl⟩ := hleft.exists_value (by rw [leftTy]; rfl)
  rw [← hip₁] at hmid
  refine delivers_jumpUnless hmid.head hp.targets.head (by omega) (by omega) hadds ?_ ?_
  · rintro m₂ rfl hip₂ hadds₂
    have hpush := hmid.tail.head
    rw [← hip₂] at hpush
    refine delivers_push hpush hadds₂ fun m₃ hip₃ hadds₃ => ?_
    have hjump := hmid.tail.tail.head
    rw [← hip₂, ← hip₃] at hjump
    refine delivers_jump hjump hp.targets.tail.head (by omega) hadds₃ fun m₄ hip₄ hadds₄ => ?_
    exact .here hip₄ ⟨_, hleft.logical_left .or, hadds₄⟩
  · rintro m₂ rfl hip₂ hadds₂
    refine (ihr _ _ ⟨hp.code.right (by simp [Nat.add_assoc]), hp.targets.tail.tail.right rfl⟩ m₂ hip₂).bind
      (Nat.le_refl _) ?_
    rintro m₃ hip₃ ⟨pushed, hright, hadds₃⟩
    obtain ⟨v, rfl⟩ := hright.exists_value (by rw [rightTy]; rfl)
    exact .here hip₃ ⟨_, hleft.logical_right .or rightTy typed hright Bool.false_ne_true, hadds₂.trans hadds₃⟩

theorem runs_and {left right : Expr} (leftTy : left.ty = .boolean) (rightTy : right.ty = .boolean) (typed : right.WellTyped)
    (ihl : left.Runs host chunk) (ihr : right.Runs host chunk) : (logical .and left right).Runs host chunk := by
  intro address label hp m hip
  unfold fragment at hp ⊢
  simp only [List.length_append, List.length_cons, List.length_nil, Nat.zero_add, ← Nat.add_assoc]
  have hfork : Within [.jumpUnless label] (chunk.code[·]?) _ := hp.code.left.left.right rfl
  have hend : Within [.jump (label + 1), .push (.boolean false)] (chunk.code[·]?) _ := hp.code.right rfl
  simp only [List.length_append, List.length_cons, List.length_nil, Nat.zero_add, ← Nat.add_assoc] at hend
  refine (ihl _ _ ⟨hp.code.left.left.left, hp.targets.tail.tail.left⟩ m hip).bind (by omega) ?_
  rintro m₁ hip₁ ⟨pushed, hleft, hadds⟩
  obtain ⟨a, rfl⟩ := hleft.exists_value (by rw [leftTy]; rfl)
  rw [← hip₁] at hfork
  refine delivers_jumpUnless hfork.head hp.targets.head (by omega) (by omega) hadds ?_ ?_
  · rintro m₂ rfl hip₂ hadds₂
    refine (ihr _ _ ⟨hp.code.left.right (by simp [Nat.add_assoc]), hp.targets.tail.tail.right rfl⟩ m₂ (by omega)).bind
      (by omega) ?_
    rintro m₃ hip₃ ⟨pushed, hright, hadds₃⟩
    obtain ⟨v, rfl⟩ := hright.exists_value (by rw [rightTy]; rfl)
    have hjump := hend.head
    rw [← hip₃] at hjump
    refine delivers_jump hjump hp.targets.tail.head (by omega) (hadds₂.trans hadds₃) fun m₄ hip₄ hadds₄ => ?_
    exact .here hip₄ ⟨_, hleft.logical_right .and rightTy typed hright Bool.false_ne_true.symm, hadds₄⟩
  · rintro m₂ rfl hip₂ hadds₂
    have hpush := hend.tail.head
    rw [← hip₂] at hpush
    refine delivers_push hpush hadds₂ fun m₃ hip₃ hadds₃ => ?_
    exact .here (by omega) ⟨_, hleft.logical_left .and, hadds₃⟩

theorem runs_call {name : String} {function : FunctionHandle} {returns : Ty} {args : List Expr}
    (valued : ∀ e ∈ args, e.ty.isValue) (ih : ∀ e ∈ args, e.Runs host chunk) :
    (call name function returns args).Runs host chunk := by
  intro address label hp m hip
  unfold fragment at hp ⊢
  simp only [List.length_append, List.length_singleton, ← Nat.add_assoc]
  refine (delivers_args valued ih ⟨hp.code.left, hp.targets⟩ m hip).bind (by omega) ?_
  rintro m₁ hip₁ ⟨values, hlen, hadds⟩
  have hi : chunk.code[m₁.ip]? = some (.call function args.length returns) := by
    rw [hip₁]
    exact (hp.code.right rfl).head
  rw [← hip₁]
  refine (delivers_call hi hadds hlen).bind (Nat.le_refl _) ?_
  rintro m₂ hip₂ ⟨pushed, hvalue, hadds₂⟩
  exact .here hip₂ ⟨pushed, pushes_of_open hvalue rfl rfl, hadds₂⟩

theorem WellTyped.runs {e : Expr} (h : e.WellTyped) : e.Runs host chunk := by
  induction h with
  | const value =>
    intro address label hp m hip
    subst hip
    exact .one (step_push hp.code.head) rfl ⟨some value, pushes_const value, rfl, rfl, rfl⟩
  | var target =>
    intro address label hp m hip
    subst hip
    refine (delivers_load hp.code.head).bind (Nat.le_refl _) ?_
    rintro m₁ hip₁ ⟨value, hadds⟩
    exact .here hip₁ ⟨some value, pushes_of_open (fun _ => rfl) rfl rfl, hadds⟩
  | unary ty typed ih => exact runs_unary ty typed ih
  | strict leftTy rightTy _ _ ihl ihr => exact runs_strict leftTy rightTy ihl ihr
  | @logical op left right leftTy rightTy _ rightTyped ihl ihr =>
    cases op with
    | and => exact runs_and leftTy rightTy rightTyped ihl ihr
    | or => exact runs_or leftTy rightTy rightTyped ihl ihr
  | call valued _ ih => exact runs_call valued ih

/-! ### Folding and running -/

/-- Where the code of the expression stands, a run from its front to its end stops with this or gets there
    with this. -/
def Executes (host : Host σ) (chunk : Chunk) (e : Expr) (m : Machine σ) (r : Machine σ ⊕ Outcome σ) : Prop :=
  ∃ label fuel, (e.fragment m.ip label).Placed chunk m.ip label ∧
    m.runTo host chunk (m.ip + (e.fragment m.ip label).code.length) fuel = some r

theorem WellTyped.of_executes {e : Expr} (h : e.WellTyped) {m : Machine σ} {r : Machine σ ⊕ Outcome σ}
    (hr : e.Executes host chunk m r) :
    (∃ error world, r = .inr (.error error world)) ∨
      ∃ m', r = .inl m' ∧ ∃ pushed, e.Pushes pushed ∧ m.Adds pushed.toList m' := by
  obtain ⟨label, fuel, hp, hr⟩ := hr
  rcases (h.runs m.ip label hp m rfl).of_runTo hr with herror | ⟨m', rfl, -, hpushed⟩
  · exact .inl herror
  · exact .inr ⟨m', rfl, hpushed⟩

/-- The value that an expression folds to has its type. Its code runs from every state to its end, and a
    run either stops with an error or pushes that value and leaves the rest of the stack and all slots as
    they were. Without variables and calls the folded value is the only one that a run can push. -/
theorem fold_agrees_run {e : Expr} (h : e.WellTyped) :
    (∀ v, e.fold = some v → v.ty = e.ty) ∧
    ∀ (σ : Type) (host : Host σ) (chunk : Chunk) (m : Machine σ),
      (∀ label, (e.fragment m.ip label).Placed chunk m.ip label → ∃ r, e.Executes host chunk m r) ∧
      ∀ r, e.Executes host chunk m r →
        (∀ v, e.fold = some v → (∃ error world, r = .inr (.error error world)) ∨ ∃ m', r = .inl m' ∧ m.Adds [v] m') ∧
        (e.closed → ∀ v m', r = .inl m' → m'.stack = v :: m.stack → e.fold = some v) := by
  refine ⟨fun v hv => ty_of_fold h hv, fun σ host chunk m => ⟨fun label hp => ?_, fun r hr => ⟨fun v hv => ?_, ?_⟩⟩⟩
  · have hruns : e.Runs host chunk := h.runs
    obtain ⟨r, hr⟩ := Option.isSome_iff_exists.mp ((hruns m.ip label hp m rfl).isSome_runTo (Nat.le_refl _))
    exact ⟨r, label, _, hp, hr⟩
  · rcases h.of_executes hr with herror | ⟨m', rfl, pushed, hpushed, hadds⟩
    · exact .inl herror
    · cases hpushed.folded v hv
      exact .inr ⟨m', rfl, hadds⟩
  · intro hc v m' hm hstack
    rcases h.of_executes hr with ⟨_, _, rfl⟩ | ⟨m'', rfl, pushed, hpushed, hadds⟩
    · cases hm
    · cases hm
      refine hpushed.closed hc v ?_
      rw [hadds.stack] at hstack
      cases pushed with
      | none => exact absurd (congrArg List.length hstack) (by simp)
      | some w =>
        cases hstack
        rfl

/-- The code of the expression as all there is. -/
def alone (e : Expr) : Chunk := ⟨(e.fragment 0 0).code, (e.fragment 0 0).targets.map some⟩

theorem placed_alone (e : Expr) : (e.fragment 0 0).Placed e.alone 0 0 where
  code i _ := by rw [Nat.zero_add, alone]
  targets i _ := by
    simp only [alone, Chunk.target?, List.getElem?_map, Nat.zero_add]
    cases (e.fragment 0 0).targets[i]? <;> rfl

/-- The quotient of the least integer and minus one, which wraps. -/
def leastQuotient : Expr :=
  .strict .div (.strict .sub (.unary .negate (.const (.integer 9223372036854775807))) (.const (.integer 1)))
    (.unary .negate (.const (.integer 1)))

/-- A call, or else what is true of that quotient. -/
def callOrNegative : Expr :=
  .logical .or (.call "f" ⟨0⟩ .boolean []) (.strict .lt leastQuotient (.const (.integer 0)))

theorem wellTyped_leastQuotient : leastQuotient.WellTyped :=
  .strict rfl rfl (.strict rfl rfl (.unary rfl (.const _)) (.const _)) (.unary rfl (.const _))

theorem wellTyped_callOrNegative : callOrNegative.WellTyped :=
  .logical rfl rfl (.call (by simp) (by simp)) (.strict rfl rfl wellTyped_leastQuotient (.const _))

/-- A host whose functions all give the same. -/
def answering (answer : Option Value) : Host Unit := ⟨fun _ => pure 0, fun _ _ => pure (), fun _ _ => pure answer⟩

/-- A run pushes the least integer for the quotient, so the quotient folds to it. What the host answers to the
    call, right or wrong, does not show in the value of the disjunction. -/
theorem fold_agrees_run_least :
    (leastQuotient.Executes (answering none) leastQuotient.alone ⟨0, [], #[], #[], ()⟩
        (.inl ⟨7, [.integer (-9223372036854775808)], #[], #[], ()⟩) ∧
      leastQuotient.closed ∧ leastQuotient.fold = some (.integer (-9223372036854775808))) ∧
    callOrNegative.fold = some (.boolean true) ∧
    ∀ answer, ∃ r, callOrNegative.Executes (answering answer) callOrNegative.alone ⟨0, [.integer 5], #[], #[], ()⟩ r ∧
      ((∃ error world, r = .inr (.error error world)) ∨
        ∃ m', r = .inl m' ∧ Machine.Adds ⟨0, [.integer 5], #[], #[], ()⟩ [.boolean true] m') := by
  have hrun : leastQuotient.Executes (answering none) leastQuotient.alone ⟨0, [], #[], #[], ()⟩
      (.inl ⟨7, [.integer (-9223372036854775808)], #[], #[], ()⟩) := ⟨0, 7, leastQuotient.placed_alone, rfl⟩
  obtain ⟨-, hleast⟩ := fold_agrees_run wellTyped_leastQuotient
  refine ⟨⟨hrun, rfl, ((hleast Unit _ _ _).2 _ hrun).2 rfl _ _ rfl rfl⟩, rfl, fun answer => ?_⟩
  obtain ⟨-, hcall⟩ := fold_agrees_run wellTyped_callOrNegative
  obtain ⟨hends, hpushes⟩ := hcall Unit (answering answer) callOrNegative.alone ⟨0, [.integer 5], #[], #[], ()⟩
  obtain ⟨r, hr⟩ := hends 0 callOrNegative.placed_alone
  exact ⟨r, hr, (hpushes r hr).1 _ rfl⟩

end Expr
end HostScript
