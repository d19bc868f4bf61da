import HostScript.Eval
import HostScript.Proofs.Typing

/-! The evaluation of a typed tree is never stuck.

In a scope of integers, a store that covers the scope holds an integer for every variable that has a
slot. An evaluation is safe if it keeps the store covering and ends with a result of its type or with
a fault other than being stuck; safe steps make safe evaluations. -/

namespace HostScript

/-- What the evaluation of an expression of the type gives. -/
def Ty.Has : Ty → Option Value → Prop
  | integer, v => ∃ n, v = some (.integer n)
  | boolean, v => ∃ b, v = some (.boolean b)
  | void, v => v = none

theorem Ty.has_some (value : Value) : value.ty.Has (some value) := by
  cases value with
  | integer n => exact ⟨n, rfl⟩
  | boolean b => exact ⟨b, rfl⟩

theorem Ty.Has.isSome_eq {ty : Ty} {v : Option Value} (h : ty.Has v) : v.isSome = ty.isValue := by
  cases ty with
  | integer =>
    obtain ⟨n, rfl⟩ := h
    rfl
  | boolean =>
    obtain ⟨b, rfl⟩ := h
    rfl
  | void =>
    cases h
    rfl

theorem Value.eq_of_integer? {v : Option Value} {n : Int64} (h : v.bind Value.integer? = some n) :
    v = some (.integer n) := by
  rcases v with _ | m | b
  · cases h
  · cases h
    rfl
  · cases h

theorem Value.eq_of_boolean? {v : Option Value} {b : Bool} (h : v.bind Value.boolean? = some b) :
    v = some (.boolean b) := by
  rcases v with _ | n | c
  · cases h
  · cases h
  · cases h
    rfl

theorem StrictOp.has_result {op : StrictOp} {a b : Int64} {value : Value} (h : op.result? a b = some value) :
    op.ty.Has (some value) := by
  cases op
  case div =>
    simp only [StrictOp.result?] at h
    split at h
    · cases h
    · cases h
      exact ⟨_, rfl⟩
  all_goals
    cases h
    exact ⟨_, rfl⟩

/-- All variables are integers. -/
def Scope.Integral (scope : Scope) : Prop := ∀ v ∈ scope.vars, v.ty = .integer

theorem Scope.mem_of_variableNamed? {scope : Scope} {name : String} {v : Variable}
    (h : scope.variableNamed? name = some v) : v ∈ scope.vars :=
  List.mem_of_find?_eq_some h

namespace Store

variable {σ : Type}

/-- Every variable that has a slot finds an integer in it. -/
structure Covers (scope : Scope) (s : Store σ) : Prop where
  params : ∀ v ∈ scope.vars, ∀ index, v.binding = .parameter index → ∃ n, s.params[index]? = some (.integer n)
  locals : ∀ v ∈ scope.vars, ∀ slot, v.binding = .localSlot slot → ∃ n, s.locals[slot]? = some (.integer n)

theorem integer_setIfInBounds {slots : Array Value} {i j : Nat} {m : Int64}
    (h : ∃ n, slots[j]? = some (.integer n)) :
    ∃ n, (slots.setIfInBounds i (.integer m))[j]? = some (.integer n) := by
  obtain ⟨n, hn⟩ := h
  by_cases hij : i = j
  · subst hij
    have hlt : i < slots.size := (Array.getElem?_eq_some_iff.mp hn).1
    exact ⟨m, by simp [hlt]⟩
  · exact ⟨n, by rw [Array.getElem?_setIfInBounds_ne hij, hn]⟩

variable {scope : Scope} {s : Store σ}

theorem Covers.setParam (h : s.Covers scope) (index : Nat) (n : Int64) :
    Covers scope { s with params := s.params.setIfInBounds index (.integer n) } where
  params v hv i hi := integer_setIfInBounds (h.params v hv i hi)
  locals := h.locals

theorem Covers.setLocal (h : s.Covers scope) (slot : Nat) (n : Int64) :
    Covers scope { s with locals := s.locals.setIfInBounds slot (.integer n) } where
  params := h.params
  locals v hv i hi := integer_setIfInBounds (h.locals v hv i hi)

theorem Covers.setHost (h : s.Covers scope) (host : σ) : Covers scope { s with host := host } :=
  ⟨h.params, h.locals⟩

end Store

namespace Eval

variable {σ α β : Type} {scope : Scope}

/-- An operand of the shape that is asked for. -/
theorem bind_orStuck {x : Eval σ (Option Value)} (g : Option Value → Option α) {f : α → Eval σ β} {s s₁ : Store σ}
    {v : Option Value} {a : α} (h : x s = .ok v s₁) (hg : g v = some a) :
    (x >>= fun found => orStuck (g found) >>= f) s = f a s₁ := by
  rw [EStateM.bind_of_ok h, hg]
  rfl

/-- From a store that covers the scope, the step gives a result with `Q` and a covering store, or a
    fault that is not the tree's own. -/
def Safe (scope : Scope) (x : Eval σ α) (Q : α → Prop) : Prop :=
  ∀ s, s.Covers scope →
    match x s with
    | .ok a s' => Q a ∧ s'.Covers scope
    | .error fault _ => fault ≠ .stuck

theorem Safe.pure {a : α} {Q : α → Prop} (h : Q a) : Safe scope (Pure.pure a : Eval σ α) Q :=
  fun _ hs => ⟨h, hs⟩

theorem Safe.throw {fault : Fault} {Q : α → Prop} (h : fault ≠ .stuck) :
    Safe scope (MonadExcept.throw fault : Eval σ α) Q :=
  fun _ _ => h

theorem Safe.bind {x : Eval σ α} {f : α → Eval σ β} {R : α → Prop} {Q : β → Prop} (hx : Safe scope x R)
    (hf : ∀ a, R a → Safe scope (f a) Q) : Safe scope (x >>= f) Q := by
  intro s hs
  have hxs := hx s hs
  change match EStateM.bind x f s with
    | .ok a s' => Q a ∧ s'.Covers scope
    | .error fault _ => fault ≠ .stuck
  unfold EStateM.bind
  cases hr : x s with
  | ok a s' =>
    rw [hr] at hxs
    exact hf a hxs.1 s' hxs.2
  | error fault s' =>
    rw [hr] at hxs
    exact hxs

theorem Safe.mono {x : Eval σ α} {R Q : α → Prop} (hx : Safe scope x R) (h : ∀ a, R a → Q a) :
    Safe scope x Q := by
  intro s hs
  have hxs := hx s hs
  cases hr : x s with
  | ok a s' =>
    rw [hr] at hxs
    exact ⟨h a hxs.1, hxs.2⟩
  | error fault s' =>
    rw [hr] at hxs
    exact hxs

theorem Safe.orStuck {a : α} {Q : α → Prop} (h : Q a) : Safe scope (Eval.orStuck (some a) : Eval σ α) Q :=
  Safe.pure h

theorem Safe.onHost (act : EStateM RuntimeError σ α) : Safe scope (Eval.onHost act) fun _ => True := by
  intro s hs
  unfold Eval.onHost
  cases act s.host with
  | ok a host => exact ⟨trivial, hs.setHost host⟩
  | error e host => exact fun h => by cases h

/-! The four ways in which a variable that has a slot is used. -/

section Slots

variable {host : Host σ} {v : Variable} {s : Store σ} {i : Nat} {value : Value}

theorem load_param (hb : v.binding = .parameter i) : load host v s = orStuck s.params[i]? s := by
  rw [load, hb]
  rfl

theorem load_local (hb : v.binding = .localSlot i) : load host v s = orStuck s.locals[i]? s := by
  rw [load, hb]
  rfl

theorem store_param (hb : v.binding = .parameter i) (hi : i < s.params.size) :
    store host v value s = .ok () { s with params := s.params.setIfInBounds i value } := by
  simp [store, hb, hi]

theorem store_local (hb : v.binding = .localSlot i) (hi : i < s.locals.size) :
    store host v value s = .ok () { s with locals := s.locals.setIfInBounds i value } := by
  simp [store, hb, hi]

end Slots

variable (host : Host σ) {v : Variable}

theorem Safe.load (hv : v ∈ scope.vars) : Safe scope (Eval.load host v) fun value => ∃ n, value = .integer n := by
  cases hb : v.binding with
  | parameter index =>
    intro s hs
    obtain ⟨n, hn⟩ := hs.params v hv index hb
    rw [load_param hb, hn]
    exact ⟨⟨n, rfl⟩, hs⟩
  | localSlot slot =>
    intro s hs
    obtain ⟨n, hn⟩ := hs.locals v hv slot hb
    rw [load_local hb, hn]
    exact ⟨⟨n, rfl⟩, hs⟩
  | global handle =>
    unfold Eval.load
    rw [hb]
    exact (Safe.onHost _).bind fun n _ => Safe.pure ⟨n, rfl⟩

theorem Safe.store (hv : v ∈ scope.vars) (n : Int64) :
    Safe scope (Eval.store host v (.integer n)) fun _ => True := by
  cases hb : v.binding with
  | parameter index =>
    intro s hs
    obtain ⟨_, hn⟩ := hs.params v hv index hb
    rw [store_param hb (Array.getElem?_eq_some_iff.mp hn).1]
    exact ⟨trivial, hs.setParam index n⟩
  | localSlot slot =>
    intro s hs
    obtain ⟨_, hn⟩ := hs.locals v hv slot hb
    rw [store_local hb (Array.getElem?_eq_some_iff.mp hn).1]
    exact ⟨trivial, hs.setLocal slot n⟩
  | global handle =>
    unfold Eval.store
    rw [hb]
    exact (Safe.orStuck (Q := fun m => m = n) rfl).bind fun _ _ => Safe.onHost _

theorem has_of_checkResult {ty : Ty} {result v : Option Value} {s s' : Store σ}
    (h : checkResult ty result s = .ok v s') : ty.Has v := by
  unfold checkResult at h
  split at h
  · cases h
    rfl
  next value _ =>
    split at h
    next hty =>
      cases h
      exact hty ▸ Ty.has_some value
    next => cases h
  next => cases h

theorem Safe.checkResult (ty : Ty) (result : Option Value) :
    Safe scope (Eval.checkResult ty result : Eval σ (Option Value)) ty.Has := by
  unfold Eval.checkResult
  split
  · exact Safe.pure rfl
  next value _ =>
    split
    next hty => exact Safe.pure (hty ▸ Ty.has_some value)
    next => exact Safe.throw fun h => by cases h
  next => exact Safe.throw fun h => by cases h

end Eval

open Eval

variable {σ : Type} {scope : Scope} (host : Host σ)

/-! ### Expressions -/

namespace Expr

/-- Arguments that have values are evaluated one behind another. -/
theorem evalArgs_safe : ∀ {args : List Expr}, (∀ e ∈ args, e.ty.isValue) →
    (∀ e ∈ args, Safe scope (e.eval host) e.ty.Has) → Safe scope (evalArgs host args) fun _ => True
  | [], _, _ => Safe.pure trivial
  | e :: es, hv, h => by
    unfold evalArgs
    refine (h e List.mem_cons_self).bind fun v hty => ?_
    obtain ⟨value, rfl⟩ : ∃ value, v = some value := by
      rw [← Option.isSome_iff_exists, hty.isSome_eq]
      exact hv e List.mem_cons_self
    refine (Safe.orStuck (Q := fun _ => True) trivial).bind fun first _ => ?_
    have ih : Safe scope (evalArgs host es) fun _ => True :=
      evalArgs_safe (fun a ha => hv a (List.mem_cons_of_mem e ha)) fun a ha => h a (List.mem_cons_of_mem e ha)
    exact ih.bind fun rest _ => Safe.pure trivial

theorem eval_safe (hint : scope.Integral) {e : Expr} (he : e.Typed scope) :
    Safe scope (e.eval host) e.ty.Has := by
  induction he with
  | const value =>
    unfold eval
    exact Safe.pure (Ty.has_some value)
  | @var target found =>
    have hmem := Scope.mem_of_variableNamed? found
    have hty : (Expr.var target).ty = .integer := hint target hmem
    unfold eval
    refine (Safe.load host hmem).bind fun value hvalue => Safe.pure ?_
    rw [hty]
    obtain ⟨n, rfl⟩ := hvalue
    exact ⟨n, rfl⟩
  | @unary op operand ty _ ih =>
    unfold eval
    refine ih.bind fun v hv => ?_
    rw [ty] at hv
    cases op with
    | plus | negate =>
      obtain ⟨n, rfl⟩ := hv
      refine (Safe.orStuck (Q := fun a => a = .integer n) rfl).bind fun a ha => ?_
      subst ha
      exact (Safe.orStuck (Q := fun a => ∃ m, a = .integer m) ⟨_, rfl⟩).bind fun a ha =>
        Safe.pure (by obtain ⟨m, rfl⟩ := ha; exact ⟨m, rfl⟩)
    | not =>
      obtain ⟨b, rfl⟩ := hv
      refine (Safe.orStuck (Q := fun a => a = .boolean b) rfl).bind fun a ha => ?_
      subst ha
      exact (Safe.orStuck (Q := fun a => ∃ c, a = .boolean c) ⟨_, rfl⟩).bind fun a ha =>
        Safe.pure (by obtain ⟨c, rfl⟩ := ha; exact ⟨c, rfl⟩)
  | @strict op left right leftTy rightTy _ _ ihl ihr =>
    unfold eval
    refine ihl.bind fun v hv => ?_
    rw [leftTy] at hv
    obtain ⟨a, rfl⟩ := hv
    refine (Safe.orStuck (Q := fun _ => True) trivial).bind fun a _ => ihr.bind fun w hw => ?_
    rw [rightTy] at hw
    obtain ⟨b, rfl⟩ := hw
    refine (Safe.orStuck (Q := fun _ => True) trivial).bind fun b _ => ?_
    split
    next value hresult => exact Safe.pure (StrictOp.has_result hresult)
    next => exact Safe.throw fun h => by cases h
  | @logical op left right leftTy rightTy _ _ ihl ihr =>
    unfold eval
    refine ihl.bind fun v hv => ?_
    rw [leftTy] at hv
    obtain ⟨a, rfl⟩ := hv
    refine (Safe.orStuck (Q := fun _ => True) trivial).bind fun a _ => ?_
    split
    · exact Safe.pure ⟨_, rfl⟩
    · refine ihr.bind fun w hw => ?_
      rw [rightTy] at hw
      obtain ⟨b, rfl⟩ := hw
      exact (Safe.orStuck (Q := fun _ => True) trivial).bind fun b _ => Safe.pure ⟨_, rfl⟩
  | @call name function args found types _ ih =>
    unfold eval
    refine (evalArgs_safe host (fun a ha => isValue_of_mem_args types ha) ih).bind fun values _ => ?_
    exact (Safe.onHost _).bind fun result _ => Safe.checkResult _ result

/-- An expression has a value if its type is one of values. -/
theorem isSome_of_eval (hint : scope.Integral) {e : Expr} (he : e.Typed scope) {v : Option Value} {s s' : Store σ}
    (h : e.eval host s = .ok v s') : v.isSome = e.ty.isValue := by
  cases he with
  | const value =>
    cases h
    cases value <;> rfl
  | @var target found =>
    unfold eval at h
    obtain ⟨value, s₁, -, h⟩ := EStateM.ok_of_bind h
    cases h
    rw [show (Expr.var target).ty = .integer from hint target (Scope.mem_of_variableNamed? found)]
    rfl
  | @unary op operand =>
    unfold eval at h
    obtain ⟨w, s₁, -, h⟩ := EStateM.ok_of_bind h
    obtain ⟨a, s₂, -, h⟩ := EStateM.ok_of_bind h
    obtain ⟨value, s₃, -, h⟩ := EStateM.ok_of_bind h
    cases h
    cases op <;> rfl
  | @strict op left right =>
    unfold eval at h
    obtain ⟨w, s₁, -, h⟩ := EStateM.ok_of_bind h
    obtain ⟨a, s₂, -, h⟩ := EStateM.ok_of_bind h
    obtain ⟨w', s₃, -, h⟩ := EStateM.ok_of_bind h
    obtain ⟨b, s₄, -, h⟩ := EStateM.ok_of_bind h
    cases hr : op.result? a b with
    | some value =>
      rw [hr] at h
      cases h
      cases op <;> rfl
    | none =>
      rw [hr] at h
      cases h
  | @logical op left right =>
    unfold eval at h
    obtain ⟨w, s₁, -, h⟩ := EStateM.ok_of_bind h
    obtain ⟨a, s₂, -, h⟩ := EStateM.ok_of_bind h
    split at h
    · cases h
      rfl
    · obtain ⟨w', s₃, -, h⟩ := EStateM.ok_of_bind h
      obtain ⟨b, s₄, -, h⟩ := EStateM.ok_of_bind h
      cases h
      rfl
  | @call name function args =>
    unfold eval at h
    obtain ⟨values, s₁, -, h⟩ := EStateM.ok_of_bind h
    obtain ⟨result, s₂, -, h⟩ := EStateM.ok_of_bind h
    exact (has_of_checkResult h).isSome_eq

end Expr

/-! ### Statements -/

namespace Stmt

/-- What a run of statements gives: a return that cannot be passed is reached. -/
def Reached (certain : Bool) (result : Option Int64) : Prop := certain = true → result.isSome

theorem execAll_safe : ∀ {body : List Stmt}, (∀ s ∈ body, Safe scope (s.exec host) (Reached s.returns)) →
    Safe scope (execAll host body) (Reached (anyReturns body))
  | [], _ => by
    unfold execAll
    exact Safe.pure fun h => by simp [anyReturns] at h
  | s :: body, h => by
    unfold execAll
    refine (h s List.mem_cons_self).bind fun result hresult => ?_
    cases result with
    | some n => exact Safe.pure fun _ => rfl
    | none =>
      have hs : s.returns = false := by
        cases hr : s.returns with
        | false => rfl
        | true => cases hresult hr
      have ih : Safe scope (execAll host body) (Reached (anyReturns body)) :=
        execAll_safe fun t ht => h t (List.mem_cons_of_mem s ht)
      refine ih.mono fun r hr hany => hr ?_
      simpa [anyReturns, hs] using hany

theorem execOption_safe {branch : Option Stmt} (h : ∀ s ∈ branch, Safe scope (s.exec host) (Reached s.returns)) :
    Safe scope (execOption host branch) (Reached (optionReturns branch)) := by
  cases branch with
  | none =>
    unfold execOption
    exact Safe.pure fun h => by simp [optionReturns] at h
  | some s => simpa only [execOption, optionReturns] using h s rfl

theorem exec_safe (hint : scope.Integral) {t : Stmt} (ht : t.Typed scope) :
    Safe scope (t.exec host) (Reached t.returns) := by
  induction ht with
  | @assign target value found ty typed =>
    have hmem := Scope.mem_of_variableNamed? found
    have hv := Expr.eval_safe host hint typed
    rw [ty, hint target hmem] at hv
    unfold exec
    refine hv.bind fun v hv => ?_
    obtain ⟨n, rfl⟩ := hv
    refine (Safe.orStuck (Q := fun a => a = .integer n) rfl).bind fun a ha => ?_
    subst ha
    exact (Safe.store host hmem n).bind fun _ _ => Safe.pure fun h => by simp [returns] at h
  | ret ty typed =>
    have hv := Expr.eval_safe host hint typed
    rw [ty] at hv
    unfold exec
    refine hv.bind fun v hv => ?_
    obtain ⟨n, rfl⟩ := hv
    exact (Safe.orStuck (Q := fun _ => True) trivial).bind fun _ _ => Safe.pure fun _ => rfl
  | expr typed =>
    unfold exec
    exact (Expr.eval_safe host hint typed).bind fun _ _ => Safe.pure fun h => by simp [returns] at h
  | empty =>
    unfold exec
    exact Safe.pure fun h => by simp [returns] at h
  | block _ ih =>
    simp only [exec, returns]
    exact execAll_safe host ih
  | @branch condition decided thenBranch elseBranch ty typed _ _ iht ihe =>
    have he := execOption_safe host ihe
    match decided with
    | some true => simpa only [exec, returns] using iht
    | some false => simpa only [exec, returns] using he
    | none =>
      have hc := Expr.eval_safe host hint typed
      rw [ty] at hc
      simp only [exec]
      refine hc.bind fun v hv => ?_
      obtain ⟨b, rfl⟩ := hv
      refine (Safe.orStuck (Q := fun _ => True) trivial).bind fun b _ => ?_
      split
      · exact iht.mono fun r hr h => hr (by simp [returns] at h; exact h.1)
      · exact he.mono fun r hr h => hr (by simp [returns] at h; exact h.2)

end Stmt
end HostScript
