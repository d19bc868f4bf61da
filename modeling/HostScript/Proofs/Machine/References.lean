import HostScript.Proofs.Code.Fragment
import HostScript.Proofs.Scoping

/-! What code refers to.

The code of a typed tree loads and stores the variables of its scope and calls the functions of its
scope, and nothing else. So an artifact that compiles against a host asks the host only for what the host
had published. -/

namespace HostScript

/-- The slot, global or function that the instruction refers to is in scope. -/
def Instr.InScope (scope : Scope) : Instr → Prop
  | .loadParam index | .storeParam index => ∃ v ∈ scope.vars, v.binding = .parameter index
  | .loadLocal slot | .storeLocal slot => ∃ v ∈ scope.vars, v.binding = .localSlot slot
  | .loadGlobal handle | .storeGlobal handle => ∃ v ∈ scope.vars, v.binding = .global handle
  | .call function argc returns => ∃ entry ∈ scope.functions,
      entry.2.handle = function ∧ entry.2.type.params.length = argc ∧ entry.2.type.result = returns
  | _ => True

/-- All that the code refers to is in scope. -/
def Refers (scope : Scope) (code : List Instr) : Prop := ∀ i ∈ code, i.InScope scope

namespace Refers

variable {scope : Scope} {i : Instr} {a b : List Instr}

theorem nil : Refers scope [] := fun _ h => by cases h

theorem cons (hi : i.InScope scope) (h : Refers scope a) : Refers scope (i :: a) :=
  List.forall_mem_cons.mpr ⟨hi, h⟩

theorem one (hi : i.InScope scope) : Refers scope [i] := cons hi nil

theorem append (ha : Refers scope a) (hb : Refers scope b) : Refers scope (a ++ b) :=
  List.forall_mem_append.mpr ⟨ha, hb⟩

end Refers

theorem mem_of_lookup {α : Type} {name : String} {a : α} {entries : List (String × α)}
    (h : entries.lookup name = some a) : (name, a) ∈ entries := by
  obtain ⟨before, after, rfl, -⟩ := List.lookup_eq_some_iff.mp h
  exact List.mem_append_right before (.head after)

variable {scope : Scope}

namespace Scope

theorem mem_of_functionNamed? {name : String} {function : HostFunction} (h : scope.functionNamed? name = some function) :
    (name, function) ∈ scope.functions :=
  mem_of_lookup h

theorem functions_declareAll : ∀ (names : List String) (scope : Scope),
    (scope.declareAll names).functions = scope.functions
  | [], _ => rfl
  | name :: names, scope => functions_declareAll names (scope.declare name)

end Scope

theorem Variable.inScope_load {v : Variable} (hv : v ∈ scope.vars) : v.load.InScope scope := by
  unfold load
  split
  next hb => exact ⟨v, hv, hb⟩
  next hb => exact ⟨v, hv, hb⟩
  next hb => exact ⟨v, hv, hb⟩

theorem Variable.inScope_store {v : Variable} (hv : v ∈ scope.vars) : v.store.InScope scope := by
  unfold store
  split
  next hb => exact ⟨v, hv, hb⟩
  next hb => exact ⟨v, hv, hb⟩
  next hb => exact ⟨v, hv, hb⟩

/-! ### The code of trees -/

namespace Expr

theorem refers_fragments : ∀ {args : List Expr} {address : Nat} {label : Label},
    (∀ e ∈ args, ∀ address label, Refers scope (e.fragment address label).code) →
      Refers scope (fragments args address label).code
  | [], _, _, _ => .nil
  | e :: es, address, label, h => by
    unfold fragments
    exact (h e (.head es) address label).append (refers_fragments fun e' he' => h e' (.tail e he'))

theorem Typed.refers {e : Expr} (typed : e.Typed scope) :
    ∀ (address : Nat) (label : Label), Refers scope (e.fragment address label).code := by
  induction typed with
  | const value => exact fun _ _ => .one trivial
  | var found => exact fun _ _ => .one (Variable.inScope_load (Scope.mem_of_variableNamed? found))
  | @unary op operand _ _ ih =>
    intro address label
    unfold fragment
    refine (ih address label).append ?_
    cases op with
    | plus => exact .nil
    | negate | not => exact .one trivial
  | strict _ _ _ _ ihLeft ihRight =>
    intro address label
    unfold fragment
    exact .append (.append (ihLeft _ _) (ihRight _ _)) (.one trivial)
  | @logical op left right _ _ _ _ ihLeft ihRight =>
    intro address label
    cases op with
    | or =>
      unfold fragment
      exact .append (.append (ihLeft _ _) (.cons trivial (.cons trivial (.one trivial)))) (ihRight _ _)
    | and =>
      unfold fragment
      exact .append (.append (.append (ihLeft _ _) (.one trivial)) (ihRight _ _)) (.cons trivial (.one trivial))
  | @call name function args found types _ ih =>
    intro address label
    unfold fragment
    have hlen : function.type.params.length = args.length := by rw [← types, List.length_map]
    exact (refers_fragments ih).append (.one ⟨_, Scope.mem_of_functionNamed? found, rfl, hlen, rfl⟩)

end Expr

namespace Stmt

theorem refers_fragments : ∀ {body : List Stmt} {address : Nat} {label : Label},
    (∀ t ∈ body, ∀ address label, Refers scope (t.fragment address label).code) →
      Refers scope (fragments body address label).code
  | [], _, _, _ => .nil
  | t :: body, address, label, h => by
    unfold fragments
    exact (h t (.head body) address label).append (refers_fragments fun t' ht' => h t' (.tail t ht'))

theorem Typed.refers {t : Stmt} (typed : t.Typed scope) :
    ∀ (address : Nat) (label : Label), Refers scope (t.fragment address label).code := by
  induction typed with
  | assign found _ typed =>
    intro address label
    unfold fragment
    exact (typed.refers _ _).append (.one (Variable.inScope_store (Scope.mem_of_variableNamed? found)))
  | ret _ typed =>
    intro address label
    unfold fragment
    exact (typed.refers _ _).append (.one trivial)
  | expr typed =>
    intro address label
    unfold fragment
    refine (typed.refers _ _).append ?_
    split
    · exact .one trivial
    · exact .nil
  | empty => exact fun _ _ => .nil
  | block _ ih =>
    intro address label
    unfold fragment
    exact refers_fragments ih
  | @branch condition decided thenBranch elseBranch _ typed _ _ ihThen ihElse =>
    intro address label
    rcases decided with _ | _ | _
    · cases elseBranch with
      | none =>
        unfold fragment
        exact .append (.append (typed.refers _ _) (.one trivial)) (ihThen _ _)
      | some elseBranch =>
        unfold fragment
        exact .append (.append (.append (.append (typed.refers _ _) (.one trivial)) (ihThen _ _)) (.one trivial))
          (ihElse elseBranch rfl _ _)
    · unfold fragment
      cases elseBranch with
      | none => exact .nil
      | some elseBranch =>
        unfold optionFragment
        exact ihElse elseBranch rfl _ _
    · unfold fragment
      exact ihThen _ _

end Stmt

theorem Program.Typed.refers {p : Program} (typed : p.Typed scope) : Refers scope p.chunk.code := by
  rw [p.code_chunk]
  refine (Stmt.refers_fragments fun t ht => (typed t ht).refers).append ?_
  unfold Program.tail
  split
  · exact .nil
  · exact .cons trivial (.one trivial)

/-- An artifact refers to what its entry point takes, what the host published and what its program
    declares. -/
theorem refers_of_compile {text : String} {signature : Signature} {host : HostScope} {artifact : Artifact}
    (h : compile text signature host = .ok artifact) :
    ∃ names, Refers ((Scope.bind signature host).declareAll names) artifact.chunk.code := by
  obtain ⟨-, p, hread, rfl⟩ := compile_eq_ok h
  exact ⟨p.locals, (Program.typed_of_read hread).1.refers⟩

end HostScript
