import HostScript.Proofs.Machine.References
import HostScript.Proofs.Reader.Derivations

/-! What a name in a compiled program stands for.

Names come from three lists: the parameters of the entry point, the registrations with the host and the
declaration at the front of the text. `standsFor` says from these lists alone which local, global or
parameter a name means. The scope in which the statements are read answers the same, the artifact has a
slot for each of the declared names, and the code stays within these slots. -/

namespace HostScript

/-! ### Registrations -/

/-- A global or a function that a host registers. -/
inductive Registration where
  | global (name : String) (ty : Ty) (handle : GlobalHandle)
  | function (name : String) (type : FunctionType) (handle : FunctionHandle)

namespace Registration

/-- Make the registration. -/
def perform (host : HostScope) : Registration → Except SemanticError HostScope
  | global name ty handle => host.registerGlobal name ty handle
  | function name type handle => host.registerFunction name type handle

/-- The handle that the registration gives to the global of the given name. -/
def handleOf? (n : String) : Registration → Option GlobalHandle
  | global name _ handle => if name = n then some handle else none
  | function .. => none

/-- The handle of the latest registration of a global. -/
def latest? (n : String) (registrations : List Registration) : Option GlobalHandle :=
  (registrations.filterMap (handleOf? n)).getLast?

/-- Register everything in turn; no registration may fail. -/
def performAll (host : HostScope) (registrations : List Registration) : Except SemanticError HostScope :=
  registrations.foldlM perform host

variable {host host' : HostScope} {n : String}

theorem globalNamed?_perform {r : Registration} (h : r.perform host = .ok host') :
    host'.globalNamed? n = (r.handleOf? n).or (host.globalNamed? n) := by
  cases r with
  | global name ty handle =>
    simp only [perform, HostScope.registerGlobal] at h
    split at h
    · cases h
      simp only [HostScope.globalNamed?, handleOf?, List.lookup_cons]
      by_cases hname : name = n
      · simp [hname]
      · simp [hname, beq_false_of_ne (Ne.symm hname)]
    · cases h
  | function name type handle =>
    simp only [perform, HostScope.registerFunction] at h
    split at h
    · cases h
      rfl
    · cases h

theorem globalNamed?_performAll : ∀ {registrations : List Registration} {host : HostScope},
    performAll host registrations = .ok host' →
      host'.globalNamed? n = (latest? n registrations).or (host.globalNamed? n)
  | [], _, h => by
    cases h
    rfl
  | r :: registrations, host, h => by
    rw [performAll, List.foldlM_cons] at h
    obtain ⟨host₁, hr, h⟩ := Except.ok_of_bind h
    change performAll host₁ registrations = _ at h
    rw [globalNamed?_performAll h, globalNamed?_perform hr, ← Option.or_assoc]
    congr 1
    unfold latest?
    cases hhandle : r.handleOf? n with
    | none => rw [List.filterMap_cons_none hhandle, Option.or_none]
    | some handle =>
      rw [List.filterMap_cons_some hhandle, List.getLast?_cons]
      cases (registrations.filterMap (handleOf? n)).getLast? <;> rfl

end Registration

/-! ### Names in scope -/

/-- The last position of a name among the parameters. -/
def lastPosition? (n : String) (params : List Parameter) : Option Nat :=
  ((params.zipIdx.filter (·.1.name == n)).map Prod.snd).getLast?

/-- What a name means: its place among the distinct declared names, else the latest global, else the last
    parameter. -/
def standsFor (declared : List String) (registrations : List Registration) (params : List Parameter) (n : String) :
    Option Binding :=
  ((declared.eraseDups.idxOf? n).map Binding.localSlot).or
    (((Registration.latest? n registrations).map Binding.global).or ((lastPosition? n params).map Binding.parameter))

namespace Scope

variable {n : String}

theorem vars_addParams : ∀ (params : List Parameter) (scope : Scope) (index : Nat),
    (scope.addParams index params).vars =
      ((params.zipIdx index).map fun entry => Variable.mk entry.1.name (.parameter entry.2) entry.1.ty).reverse ++ scope.vars
  | [], _, _ => rfl
  | param :: params, scope, index => by
    rw [addParams, vars_addParams params, List.zipIdx_cons, List.map_cons, List.reverse_cons, List.append_assoc]
    rfl

/-- Of several parameters of one name the last one counts. -/
theorem binding_addParams (params : List Parameter) :
    ((addParams {} 0 params).variableNamed? n).map Variable.binding = (lastPosition? n params).map Binding.parameter := by
  unfold variableNamed? lastPosition?
  rw [vars_addParams, List.append_nil, ← List.head?_filter, List.filter_reverse, List.head?_reverse, List.filter_map,
    List.getLast?_map, List.getLast?_map, Option.map_map, Option.map_map]
  rfl

theorem binding_bind (signature : Signature) (host : HostScope) :
    ((bind signature host).variableNamed? n).map Variable.binding =
      ((host.globalNamed? n).map Binding.global).or ((lastPosition? n signature.params).map Binding.parameter) := by
  rw [variableNamed?_bind, Option.map_or, Option.map_map, binding_addParams]
  rfl

/-- Distinct names get the next slots in turn. -/
theorem binding_declareAll : ∀ {names : List String} {scope : Scope}, names.Nodup →
    ((scope.declareAll names).variableNamed? n).map Variable.binding =
      ((names.idxOf? n).map fun i => Binding.localSlot (scope.localCount + i)).or
        ((scope.variableNamed? n).map Variable.binding)
  | [], _, _ => rfl
  | name :: names, scope, h => by
    obtain ⟨hnew, h⟩ := List.nodup_cons.mp h
    change (((scope.declare name).declareAll names).variableNamed? n).map _ = _
    rw [binding_declareAll h, variableNamed?_declare, List.idxOf?_cons]
    by_cases hname : name = n
    · subst hname
      simp [List.idxOf?_eq_none_iff.mpr hnew]
    · rw [if_neg hname, beq_false_of_ne hname, if_neg Bool.false_ne_true, Option.map_map]
      congr 2
      funext i
      change Binding.localSlot (scope.localCount + 1 + i) = .localSlot (scope.localCount + (i + 1))
      rw [Nat.add_assoc, Nat.add_comm 1 i]

end Scope

theorem nodup_eraseDups : ∀ names : List String, names.eraseDups.Nodup
  | [] => .nil
  | name :: names => by
    rw [List.eraseDups_cons, List.nodup_cons]
    exact ⟨by simp [List.mem_eraseDups], nodup_eraseDups _⟩
  termination_by names => names.length
  decreasing_by exact Nat.lt_succ_of_le (List.length_filter_le ..)

/-! ### Compiled programs -/

/-- The text begins with a declaration of the listed names, if there are any, and what follows it is read
    in the given scope. -/
def Program.Opens (text : String) (declared : List String) (scope : Scope) (body : List Stmt) : Prop :=
  ∃ q behind, (Place.start text.toList).Words (declarationWords declared) q ∧
    Reader.run (do
      Reader.setState .body
      Reader.programBody scope.context (q.rest.length + 1)) Grammar.program (.ofPlace q) = .ok (body, behind)

theorem Program.opens_of_read {scope scope' : Scope} {text : String} {p : Program} (h : read scope text = .ok (p, scope')) :
    ∃ declared, p.locals = declared.eraseDups ∧ (∀ n ∈ declared, isName n ∧ isKeyword n = false) ∧
      Opens text declared scope' p.body := by
  obtain ⟨⟨names, cursor⟩, hlocals, h⟩ := Except.ok_of_bind h
  obtain ⟨⟨body, behind⟩, hbody, h⟩ := Except.ok_of_bind h
  dsimp only at h
  split at h
  next =>
    cases h
    obtain ⟨listed, q, rfl, rfl, hwords, hnames⟩ := Reader.derives_programLocals Rule.derives_read hlocals
    exact ⟨listed, rfl, hnames, q, behind, hwords, hbody⟩
  next => cases h

/-- The slots that the instruction uses are there. -/
def Instr.Bounded (params locals : Nat) : Instr → Prop
  | .loadParam index | .storeParam index => index < params
  | .loadLocal slot | .storeLocal slot => slot < locals
  | _ => True

section Bounds

variable {signature : Signature} {host : HostScope} {names : List String} {v : Variable}

theorem Scope.parameter_lt (hv : v ∈ ((bind signature host).declareAll names).vars) {index : Nat}
    (hb : v.binding = .parameter index) : index < signature.params.length := by
  rcases mem_declareAll hv with hv | ⟨i, name, hn, rfl⟩
  · rcases mem_bind hv with ⟨name, handle, -, rfl⟩ | ⟨i, param, hp, rfl⟩
    · cases hb
    · cases hb
      exact (List.getElem?_eq_some_iff.mp hp).1
  · cases hb

theorem Scope.localSlot_lt (hv : v ∈ ((bind signature host).declareAll names).vars) {slot : Nat}
    (hb : v.binding = .localSlot slot) : slot < names.length := by
  rcases mem_declareAll hv with hv | ⟨i, name, hn, rfl⟩
  · rcases mem_bind hv with ⟨name, handle, -, rfl⟩ | ⟨i, param, hp, rfl⟩ <;> cases hb
  · cases hb
    rw [bind_localCount, Nat.zero_add]
    exact (List.getElem?_eq_some_iff.mp hn).1

theorem Instr.InScope.bounded {i : Instr} (h : i.InScope ((Scope.bind signature host).declareAll names)) :
    i.Bounded signature.params.length names.length := by
  cases i with
  | loadParam index | storeParam index =>
    obtain ⟨v, hv, hb⟩ := h
    exact Scope.parameter_lt hv hb
  | loadLocal slot | storeLocal slot =>
    obtain ⟨v, hv, hb⟩ := h
    exact Scope.localSlot_lt hv hb
  | _ => trivial

end Bounds

/-- The names in the text mean what the lists say, and the artifact keeps to the slots that they need. -/
structure Artifact.Resolves (artifact : Artifact) (registrations : List Registration) (params : List Parameter)
    (text : String) (declared : List String) (scope : Scope) (body : List Stmt) : Prop where
  opens : Program.Opens text declared scope body
  chunk : artifact.chunk = Program.chunk ⟨declared.eraseDups, body⟩
  binding : ∀ n, (scope.variableNamed? n).map Variable.binding = standsFor declared registrations params n
  distinct : ∀ n ∈ declared, ∀ m ∈ declared,
    (scope.variableNamed? n).map Variable.binding = (scope.variableNamed? m).map Variable.binding → n = m
  free : ∀ n ∈ declared, isKeyword n = false
  locals : artifact.locals = declared.eraseDups.length
  bounded : ∀ i ∈ artifact.chunk.code, i.Bounded params.length artifact.locals

theorem standsFor_of_mem {declared : List String} {registrations : List Registration} {params : List Parameter} {n : String}
    (h : n ∈ declared) :
    ∃ i, standsFor declared registrations params n = some (.localSlot i) ∧ declared.eraseDups[i]? = some n := by
  cases hi : declared.eraseDups.idxOf? n with
  | none => exact absurd (List.mem_eraseDups.mpr h) (List.idxOf?_eq_none_iff.mp hi)
  | some i =>
    obtain ⟨hlt, hget, -⟩ := List.idxOf?_eq_some_iff.mp hi
    refine ⟨i, ?_, List.getElem?_eq_some_iff.mpr ⟨hlt, hget⟩⟩
    rw [standsFor, hi]
    rfl

theorem eq_of_standsFor {declared : List String} {registrations : List Registration} {params : List Parameter}
    {n m : String} (hn : n ∈ declared) (hm : m ∈ declared)
    (h : standsFor declared registrations params n = standsFor declared registrations params m) : n = m := by
  obtain ⟨i, hi, hget⟩ := @standsFor_of_mem _ registrations params _ hn
  obtain ⟨j, hj, hget'⟩ := @standsFor_of_mem _ registrations params _ hm
  rw [hi, hj] at h
  cases h
  exact Option.some.inj (hget.symm.trans hget')

/-- In a program that compiles against the registrations of a host, a declared name is the local of its
    place among the distinct declared names, another name the global registered last under it, and one
    that is neither the last parameter of that name. The artifact has a slot for each distinct declared
    name, none of which is a keyword, and its code uses only those slots and the parameters. -/
theorem compile_resolves {registrations : List Registration} {host : HostScope} {text : String} {signature : Signature}
    {artifact : Artifact} (registered : Registration.performAll {} registrations = .ok host)
    (h : compile text signature host = .ok artifact) :
    ∃ declared scope body, Program.read (.bind signature host) text = .ok (⟨declared.eraseDups, body⟩, scope) ∧
      artifact.Resolves registrations signature.params text declared scope body := by
  obtain ⟨-, p, hread, rfl⟩ := compile_eq_ok h
  obtain ⟨declared, hlocals, hnames, hopens⟩ := Program.opens_of_read hread
  have hrefers := (Program.typed_of_read hread).1.refers
  obtain ⟨locals, body⟩ := p
  obtain rfl : locals = declared.eraseDups := hlocals
  have hbinding (n : String) : (((Scope.bind signature host).declareAll declared.eraseDups).variableNamed? n).map
      Variable.binding = standsFor declared registrations signature.params n := by
    rw [Scope.binding_declareAll (nodup_eraseDups declared), Scope.binding_bind, Scope.bind_localCount,
      Registration.globalNamed?_performAll registered]
    simp [standsFor, HostScope.globalNamed?]
  refine ⟨declared, _, body, hread, hopens, rfl, hbinding, fun n hn m hm hsame => ?_, fun n hn => (hnames n hn).2, rfl,
    fun i hi => (hrefers i hi).bounded⟩
  rw [hbinding, hbinding] at hsame
  exact eq_of_standsFor hn hm hsame

/-- A name declared twice, parameters of one name, a global registered again, and names that hide others. -/
theorem compile_resolves_hidden :
    let registrations : List Registration :=
      [.global "y" .integer ⟨7⟩, .function "f" ⟨[], .integer⟩ ⟨0⟩, .global "b" .integer ⟨3⟩, .global "y" .integer ⟨9⟩]
    let signature : Signature := ⟨[⟨"x", .integer⟩, ⟨"y", .integer⟩, ⟨"x", .integer⟩, ⟨"a", .integer⟩], .integer⟩
    let text := "var a, b, a; b = x + y; return a + b;"
    ∃ host artifact, Registration.performAll {} registrations = .ok host ∧ compile text signature host = .ok artifact ∧
      ∃ declared scope body, artifact.Resolves registrations signature.params text declared scope body ∧
        declared.eraseDups = ["a", "b"] ∧
        ["a", "b", "x", "y", "f"].map (fun n => (scope.variableNamed? n).map Variable.binding) =
          [some (.localSlot 0), some (.localSlot 1), some (.parameter 2), some (.global ⟨9⟩), none] := by
  intro registrations signature text
  have hlocals : ((Registration.performAll {} registrations).toOption.bind fun host =>
      ((compile text signature host).toOption.bind fun _ =>
        (Program.read (.bind signature host) text).toOption.map fun r => r.1.locals)) = some ["a", "b"] := by
    decide +kernel
  obtain ⟨host, hhost, hlocals⟩ := Option.bind_eq_some_iff.mp hlocals
  obtain ⟨artifact, hcompile, hlocals⟩ := Option.bind_eq_some_iff.mp hlocals
  have registered := Except.eq_ok_of_toOption hhost
  have hcompile := Except.eq_ok_of_toOption hcompile
  obtain ⟨declared, scope, body, hread, resolves⟩ := compile_resolves registered hcompile
  have hdeclared : declared.eraseDups = ["a", "b"] := by simpa [hread, Except.toOption] using hlocals
  refine ⟨host, artifact, registered, hcompile, declared, scope, body, resolves, hdeclared, ?_⟩
  simp only [resolves.binding, standsFor, hdeclared]
  decide +kernel

end HostScript
