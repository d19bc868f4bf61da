import HostScript.Compile
import HostScript.Proofs.Evaluation
import HostScript.Proofs.Reader.Typed

/-! What stands in the scope of a program that compiles: its parameters, the globals of the host and
its locals, all integers, and a slot for each parameter and each local. -/

namespace HostScript

namespace Scope

variable {scope : Scope} {v : Variable}

theorem mem_addParams : ∀ (params : List Parameter) {scope : Scope} {index : Nat},
    v ∈ (scope.addParams index params).vars →
      v ∈ scope.vars ∨ ∃ i param, params[i]? = some param ∧ v = ⟨param.name, .parameter (index + i), param.ty⟩
  | [], _, _, h => Or.inl h
  | param :: params, scope, index, h => by
    rcases mem_addParams params h with h | ⟨i, p, hp, rfl⟩
    · rcases List.mem_cons.mp h with rfl | h
      · exact Or.inr ⟨0, param, rfl, rfl⟩
      · exact Or.inl h
    · exact Or.inr ⟨i + 1, p, hp, by rw [Nat.add_assoc, Nat.add_comm 1 i]⟩

theorem addParams_localCount : ∀ (params : List Parameter) {scope : Scope} {index : Nat},
    (scope.addParams index params).localCount = scope.localCount
  | [], _, _ => rfl
  | _ :: params, _, _ => addParams_localCount params

theorem mem_bind {signature : Signature} {host : HostScope} (h : v ∈ (bind signature host).vars) :
    (∃ name handle, (name, handle) ∈ host.globals ∧ v = ⟨name, .global handle, .integer⟩) ∨
      ∃ i param, signature.params[i]? = some param ∧ v = ⟨param.name, .parameter i, param.ty⟩ := by
  rcases List.mem_append.mp h with h | h
  · obtain ⟨⟨name, handle⟩, hmem, rfl⟩ := List.mem_map.mp h
    exact Or.inl ⟨name, handle, hmem, rfl⟩
  · rcases mem_addParams signature.params h with h | ⟨i, param, hp, rfl⟩
    · cases h
    · exact Or.inr ⟨i, param, hp, by rw [Nat.zero_add]⟩

theorem bind_localCount (signature : Signature) (host : HostScope) : (bind signature host).localCount = 0 :=
  addParams_localCount signature.params

theorem localCount_declareAll : ∀ (names : List String) (scope : Scope),
    (scope.declareAll names).localCount = scope.localCount + names.length
  | [], _ => rfl
  | name :: names, scope => by
    have ih := localCount_declareAll names (scope.declare name)
    change ((scope.declare name).declareAll names).localCount = _
    rw [ih]
    change scope.localCount + 1 + names.length = scope.localCount + (names.length + 1)
    omega

theorem mem_declareAll : ∀ {names : List String} {scope : Scope}, v ∈ (scope.declareAll names).vars →
    v ∈ scope.vars ∨ ∃ i name, names[i]? = some name ∧ v = ⟨name, .localSlot (scope.localCount + i), .integer⟩
  | [], _, h => Or.inl h
  | name :: names, scope, h => by
    have h : v ∈ ((scope.declare name).declareAll names).vars := h
    rcases mem_declareAll h with h | ⟨i, n, hn, rfl⟩
    · rcases List.mem_cons.mp h with rfl | h
      · exact Or.inr ⟨0, name, rfl, rfl⟩
      · exact Or.inl h
    · refine Or.inr ⟨i + 1, n, hn, ?_⟩
      change Variable.mk n (.localSlot (scope.localCount + 1 + i)) .integer = _
      rw [Nat.add_assoc, Nat.add_comm 1 i]

/-! What a name stands for: a local if it is declared, else a global, else a parameter. -/

theorem variableNamed?_bind (signature : Signature) (host : HostScope) (name : String) :
    (bind signature host).variableNamed? name =
      ((host.globalNamed? name).map fun handle => ⟨name, .global handle, .integer⟩).or
        ((addParams {} 0 signature.params).variableNamed? name) := by
  unfold bind variableNamed? HostScope.globalNamed?
  dsimp only
  rw [List.find?_append]
  congr 1
  induction host.globals with
  | nil => rfl
  | cons entry globals ih =>
    obtain ⟨other, handle⟩ := entry
    rw [List.map_cons, List.find?_cons, List.lookup_cons]
    by_cases hname : other = name
    · simp [hname]
    · rw [beq_false_of_ne hname, beq_false_of_ne (Ne.symm hname)]
      exact ih

theorem variableNamed?_declare (scope : Scope) (other name : String) :
    (scope.declare other).variableNamed? name =
      if other = name then some ⟨name, .localSlot scope.localCount, .integer⟩ else scope.variableNamed? name := by
  unfold declare variableNamed?
  dsimp only
  rw [List.find?_cons]
  by_cases hname : other = name
  · simp [hname]
  · rw [beq_false_of_ne hname, if_neg hname]

theorem variableNamed?_declareAll {name : String} : ∀ {names : List String} {scope : Scope},
    (name ∉ names ∧ (scope.declareAll names).variableNamed? name = scope.variableNamed? name) ∨
      (name ∈ names ∧ ∃ slot, (scope.declareAll names).variableNamed? name = some ⟨name, .localSlot slot, .integer⟩)
  | [], _ => .inl ⟨List.not_mem_nil, rfl⟩
  | other :: names, scope => by
    have ih := @variableNamed?_declareAll name names (scope.declare other)
    change _ ∨ _ ∧ ∃ slot, ((scope.declare other).declareAll names).variableNamed? name = _
    rcases ih with ⟨hnot, hsame⟩ | ⟨hmem, hlocal⟩
    · rw [variableNamed?_declare] at hsame
      by_cases hname : other = name
      · rw [if_pos hname] at hsame
        exact .inr ⟨hname ▸ List.mem_cons_self, _, hsame⟩
      · rw [if_neg hname] at hsame
        refine .inl ⟨fun hmem => ?_, hsame⟩
        rcases List.mem_cons.mp hmem with rfl | hmem
        · exact hname rfl
        · exact hnot hmem
    · exact .inr ⟨List.mem_cons_of_mem other hmem, hlocal⟩

end Scope

/-! ### Entry points of integers -/

namespace Signature

theorem integer_of_checkParams {param : Parameter} : ∀ {params : List Parameter} {index : Nat},
    checkParams index params = .ok () → param ∈ params → param.ty = .integer
  | first :: params, index, h, hmem => by
    unfold checkParams at h
    split at h
    · rcases List.mem_cons.mp hmem with rfl | hmem
      · assumption
      · exact integer_of_checkParams h hmem
    · cases h

theorem checkParams_of_integer : ∀ {params : List Parameter} (index : Nat), (∀ param ∈ params, param.ty = .integer) →
    checkParams index params = .ok ()
  | [], _, _ => rfl
  | param :: params, index, h => by
    obtain ⟨first, h⟩ := List.forall_mem_cons.mp h
    rw [checkParams, if_pos first]
    exact checkParams_of_integer (index + 1) h

theorem validate_of_integer {s : Signature} (result : s.result = .integer) (h : ∀ param ∈ s.params, param.ty = .integer) :
    s.validate = .ok () := by
  rw [validate, if_pos result]
  exact checkParams_of_integer 0 h

theorem integer_of_validate {s : Signature} (h : s.validate = .ok ()) {param : Parameter} (hmem : param ∈ s.params) :
    param.ty = .integer := by
  unfold validate at h
  split at h
  · exact integer_of_checkParams h hmem
  · cases h

end Signature

/-! ### Compiled programs -/

/-- What compiles was read in the scope of its entry point; the artifact has a slot for each declared
    name. -/
theorem compile_eq_ok {text : String} {signature : Signature} {host : HostScope} {artifact : Artifact}
    (h : compile text signature host = .ok artifact) :
    signature.validate = .ok () ∧ ∃ p : Program,
      Program.read (.bind signature host) text = .ok (p, (Scope.bind signature host).declareAll p.locals) ∧
        artifact = ⟨signature.params, p.locals.length, p.chunk⟩ := by
  unfold compile at h
  split at h
  · cases h
  next hv =>
    split at h
    · cases h
    next p scope hread =>
      cases h
      obtain ⟨hscope, -⟩ := Program.read_eq_ok hread
      refine ⟨hv, p, hscope ▸ hread, ?_⟩
      rw [hscope, Scope.localCount_declareAll, Scope.bind_localCount, Nat.zero_add]

section Compiled

variable {signature : Signature} {host : HostScope} {names : List String}

theorem integral_of_validate (h : signature.validate = .ok ()) :
    ((Scope.bind signature host).declareAll names).Integral := by
  intro v hv
  rcases Scope.mem_declareAll hv with hv | ⟨i, name, -, rfl⟩
  · rcases Scope.mem_bind hv with ⟨name, handle, -, rfl⟩ | ⟨i, param, hp, rfl⟩
    · rfl
    · exact Signature.integer_of_validate h (List.mem_of_getElem? hp)
  · rfl

/-- The store in which a run begins has a slot for every variable in scope. -/
theorem covers_initial {σ : Type} {args : List Int64} (world : σ) (hargs : args.length = signature.params.length) :
    Store.Covers ((Scope.bind signature host).declareAll names)
      ⟨(args.map .integer).toArray, Array.replicate names.length (.integer 0), world⟩ where
  params v hv index hb := by
    have hlt : index < args.length := by
      rcases Scope.mem_declareAll hv with hv | ⟨i, name, -, rfl⟩
      · rcases Scope.mem_bind hv with ⟨name, handle, -, rfl⟩ | ⟨i, param, hp, rfl⟩
        · cases hb
        · cases hb
          rw [hargs]
          exact (List.getElem?_eq_some_iff.mp hp).1
      · cases hb
    exact ⟨args[index], by simp [hlt]⟩
  locals v hv slot hb := by
    have hlt : slot < names.length := by
      rcases Scope.mem_declareAll hv with hv | ⟨i, name, hn, rfl⟩
      · rcases Scope.mem_bind hv with ⟨name, handle, -, rfl⟩ | ⟨i, param, hp, rfl⟩ <;> cases hb
      · cases hb
        rw [Scope.bind_localCount, Nat.zero_add]
        exact (List.getElem?_eq_some_iff.mp hn).1
    exact ⟨0, by simp [hlt]⟩

end Compiled
end HostScript
