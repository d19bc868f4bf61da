import HostScript.Host.Native
import HostScript.Proofs.Evaluation

/-! What a host keeps.

What the answers of a host keep, an evaluation keeps. No answer of a native host takes an entry away, so
where one has an entry for every global in scope, every variable has a value at any time. -/

namespace HostScript

open Eval

/-! ### What a host keeps, an evaluation keeps -/

/-- The answers of the host keep a property of its state. -/
structure Host.Keeps {σ : Type} (host : Host σ) (P : σ → Prop) : Prop where
  loadGlobal (handle : GlobalHandle) (w w' : σ) (n : Int64) : host.loadGlobal handle w = .ok n w' → P w → P w'
  storeGlobal (handle : GlobalHandle) (n : Int64) (w w' : σ) (u : Unit) :
    host.storeGlobal handle n w = .ok u w' → P w → P w'
  call (function : FunctionHandle) (args : List Value) (w w' : σ) (result : Option Value) :
    host.call function args w = .ok result w' → P w → P w'

namespace Eval

variable {σ α β : Type} {P : σ → Prop} {host : Host σ}

/-- A property of the state of the host that an evaluation keeps whenever it ends well. -/
def Keeps (P : σ → Prop) (x : Eval σ α) : Prop := ∀ (s s' : Store σ) (a : α), x s = .ok a s' → P s.host → P s'.host

theorem Keeps.pure (a : α) : Keeps P (Pure.pure a : Eval σ α) := by
  intro s s' b h hs
  cases h
  exact hs

theorem Keeps.throw (fault : Fault) : Keeps P (MonadExcept.throw fault : Eval σ α) := by
  intro s s' b h
  cases h

theorem Keeps.bind {x : Eval σ α} {f : α → Eval σ β} (hx : Keeps P x) (hf : ∀ a, Keeps P (f a)) : Keeps P (x >>= f) := by
  intro s s' b h hs
  obtain ⟨a, s₁, ha, hb⟩ := EStateM.ok_of_bind h
  exact hf a _ _ _ hb (hx _ _ _ ha hs)

theorem Keeps.orStuck : ∀ found : Option α, Keeps P (Eval.orStuck found : Eval σ α)
  | some a => .pure a
  | none => .throw _

theorem Keeps.onHost {act : EStateM RuntimeError σ α} (hact : ∀ (w w' : σ) (a : α), act w = .ok a w' → P w → P w') :
    Keeps P (Eval.onHost act) := by
  intro s s' a h hs
  unfold Eval.onHost at h
  split at h
  next b w hb =>
    cases h
    exact hact _ _ _ hb hs
  next => cases h

theorem Keeps.load (hk : host.Keeps P) (v : Variable) : Keeps P (Eval.load host v) := by
  cases hb : v.binding with
  | parameter index =>
    intro s s' a h
    rw [load_param hb] at h
    exact Keeps.orStuck _ _ _ _ h
  | localSlot slot =>
    intro s s' a h
    rw [load_local hb] at h
    exact Keeps.orStuck _ _ _ _ h
  | global handle =>
    unfold Eval.load
    rw [hb]
    exact (Keeps.onHost (hk.loadGlobal handle)).bind fun n => .pure _

theorem Keeps.store (hk : host.Keeps P) (v : Variable) (value : Value) : Keeps P (Eval.store host v value) := by
  unfold Eval.store
  split
  · intro s s' u h hs
    dsimp only at h
    split at h
    · cases h
      exact hs
    · cases h
  · intro s s' u h hs
    dsimp only at h
    split at h
    · cases h
      exact hs
    · cases h
  · exact (Keeps.orStuck _).bind fun n => .onHost (hk.storeGlobal _ n)

theorem Keeps.checkResult (ty : Ty) (result : Option Value) :
    Keeps P (Eval.checkResult ty result : Eval σ (Option Value)) := by
  unfold Eval.checkResult
  split
  · exact .pure none
  · split
    · exact .pure _
    · exact .throw _
  · exact .throw _

end Eval

namespace Expr

variable {σ : Type} {P : σ → Prop} {host : Host σ}

mutual

theorem eval_keeps (hk : host.Keeps P) : ∀ e : Expr, Keeps P (e.eval host)
  | const value => by
    unfold eval
    exact .pure _
  | var target => by
    unfold eval
    exact (Keeps.load hk target).bind fun _ => .pure _
  | unary op operand => by
    unfold eval
    exact (eval_keeps hk operand).bind fun _ => (Keeps.orStuck _).bind fun _ => (Keeps.orStuck _).bind fun _ => .pure _
  | strict op left right => by
    unfold eval
    refine (eval_keeps hk left).bind fun _ => (Keeps.orStuck _).bind fun a => ?_
    refine (eval_keeps hk right).bind fun _ => (Keeps.orStuck _).bind fun b => ?_
    split
    · exact .pure _
    · exact .throw _
  | logical op left right => by
    unfold eval
    refine (eval_keeps hk left).bind fun _ => (Keeps.orStuck _).bind fun a => ?_
    split
    · exact .pure _
    · exact (eval_keeps hk right).bind fun _ => (Keeps.orStuck _).bind fun _ => .pure _
  | call name function returns args => by
    unfold eval
    exact (evalArgs_keeps hk args).bind fun _ => (Keeps.onHost (hk.call function _)).bind fun _ => .checkResult _ _

theorem evalArgs_keeps (hk : host.Keeps P) : ∀ args : List Expr, Keeps P (evalArgs host args)
  | [] => by
    unfold evalArgs
    exact .pure _
  | e :: es => by
    unfold evalArgs
    exact (eval_keeps hk e).bind fun _ => (Keeps.orStuck _).bind fun _ => (evalArgs_keeps hk es).bind fun _ => .pure _

end

end Expr

/-! ### Native hosts -/

namespace NativeHost

variable {ω : Type}

/-- Every global in scope has an entry. -/
def Serves (scope : Scope) (h : NativeHost ω) : Prop :=
  ∀ v ∈ scope.vars, ∀ handle, v.binding = .global handle → handle.id.toNat < h.globals.length

/-- No request takes an entry away. -/
theorem keeps_serves (scope : Scope) : (host : Host (NativeHost ω)).Keeps (Serves scope) where
  loadGlobal handle w w' n h hw := by
    change loadGlobal handle w = _ at h
    unfold loadGlobal at h
    split at h
    · cases h
      exact hw
    · cases h
  storeGlobal handle n w w' u h hw := by
    change storeGlobal handle n w = _ at h
    unfold storeGlobal at h
    split at h
    · cases h
      intro v hv other hb
      simpa using hw v hv other hb
    · cases h
  call function args w w' result h hw := by
    change call function args w = _ at h
    unfold call at h
    split at h
    · cases h
      exact hw
    · cases h

/-- Every variable has a value. -/
theorem exists_load {scope : Scope} {s : Store (NativeHost ω)} (hs : s.Covers scope) (hh : Serves scope s.host)
    {v : Variable} (hv : v ∈ scope.vars) : ∃ n, Eval.load host v s = .ok (.integer n) s := by
  cases hb : v.binding with
  | parameter index =>
    obtain ⟨n, hn⟩ := hs.params v hv index hb
    exact ⟨n, by rw [load_param hb, hn]; rfl⟩
  | localSlot slot =>
    obtain ⟨n, hn⟩ := hs.locals v hv slot hb
    exact ⟨n, by rw [load_local hb, hn]; rfl⟩
  | global handle =>
    have hlt := hh v hv handle hb
    have hget : loadGlobal handle s.host = .ok s.host.globals[handle.id.toNat] s.host := by
      simp [loadGlobal, value?, hlt]
    have honHost : Eval.onHost (host.loadGlobal handle) s = .ok s.host.globals[handle.id.toNat] s := by
      simp only [Eval.onHost, host, hget]
    refine ⟨s.host.globals[handle.id.toNat], ?_⟩
    unfold Eval.load
    rw [hb]
    exact EStateM.bind_of_ok honHost

end NativeHost

end HostScript
