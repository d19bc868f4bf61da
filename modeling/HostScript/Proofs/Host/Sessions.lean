import HostScript.Host.Stock
import HostScript.Proofs.Host
import HostScript.Proofs.Machine.Alongside
import HostScript.Proofs.Machine.Compiled
import HostScript.Proofs.Machine.References

/-! Native hosts in use.

A session is a sequence of requests to a native host: names are registered, with or without success,
globals are stored, functions called and artifacts run, and between them the program around the host
changes the state that the functions act on. A request that registers nothing keeps the names
and the tables, up to the values of the globals, and one that does adds an entry at the end of a table
and a name for it. So a name stands for its latest registration, every handle that was ever published has
its entry, and programs bound to what the host published find all they ask for. -/

namespace HostScript
namespace NativeHost

variable {ω : Type}

/-- What can be asked of a native host. -/
inductive Request (ω : Type) where
  | registerGlobal (name : String) (initial : Int64)
  | registerFunction (name : String) (type : FunctionType) (body : NativeFunction ω)
  | storeGlobal (handle : GlobalHandle) (n : Int64)
  | call (function : FunctionHandle) (args : List Value)
  | run (artifact : Artifact) (args : List Int64) (fuel : Nat)
  | change (world : ω)

/-- Whether the request adds a name. -/
def Request.registers : Request ω → Bool
  | .registerGlobal .. | .registerFunction .. => true
  | _ => false

/-- What the host answers. -/
inductive Reply where
  | global (handle : GlobalHandle)
  | function (handle : FunctionHandle)
  | refused (cause : SemanticError)
  | stored
  | called (result : Option Value)
  | returned (n : Int64)
  | changed
  | failed (e : RuntimeError)

/-- What a call, a store or a run leads to. -/
def settle {α : Type} (reply : α → Reply) : EStateM.Result RuntimeError (NativeHost ω) α → Reply × NativeHost ω
  | .ok a h => (reply a, h)
  | .error e h => (.failed e, h)

/-- The answer to a request and the host after it; none if a run does not end within its budget. -/
def perform (h : NativeHost ω) : Request ω → Option (Reply × NativeHost ω)
  | .registerGlobal name initial =>
    match h.registerGlobal name initial with
    | .ok (handle, h') => some (.global handle, h')
    | .error cause => some (.refused cause, h)
  | .registerFunction name type body =>
    match h.registerFunction name type body with
    | .ok (handle, h') => some (.function handle, h')
    | .error cause => some (.refused cause, h)
  | .storeGlobal handle n => some (settle (fun _ => .stored) (storeGlobal handle n h))
  | .call function args => some (settle .called (call function args h))
  | .run artifact args fuel => (artifact.run host fuel args h).map (settle .returned)
  | .change world => some (.changed, { h with world := world })

/-- The second host is the first one after the requests with their replies, of which the latest comes
    first. -/
inductive Session (first : NativeHost ω) : List (Request ω × Reply) → NativeHost ω → Prop
  | start : Session first [] first
  | next {history : List (Request ω × Reply)} {h last : NativeHost ω} {request : Request ω} {reply : Reply}
      (before : Session first history h) (step : h.perform request = some (reply, last)) :
      Session first ((request, reply) :: history) last

/-- The handle that a registration gave to a global of this name. -/
def globalAs (name : String) : Request ω × Reply → Option GlobalHandle
  | (.registerGlobal other _, .global handle) => if name = other then some handle else none
  | _ => none

/-- What a registration made of a function of this name: the handle, the type and the body. -/
def functionAs (name : String) : Request ω × Reply → Option (FunctionHandle × FunctionType × NativeFunction ω)
  | (.registerFunction other type body, .function handle) =>
    if name = other then some (handle, type, body) else none
  | _ => none

/-! ### What a request does -/

/-- Names and tables are the same, up to the values of the globals. -/
structure SameTables (first last : NativeHost ω) : Prop where
  scope : last.scope = first.scope
  functions : last.functions = first.functions
  globals : last.globals.length = first.globals.length

theorem SameTables.refl (h : NativeHost ω) : SameTables h h := ⟨rfl, rfl, rfl⟩

section Answers

variable (first h : NativeHost ω)

theorem leaves_loadGlobal (handle : GlobalHandle) (same : SameTables first h) :
    Leaves (SameTables first) (loadGlobal handle h) := by
  unfold loadGlobal
  split
  · exact same
  · exact same

theorem leaves_storeGlobal (handle : GlobalHandle) (n : Int64) (same : SameTables first h) :
    Leaves (SameTables first) (storeGlobal handle n h) := by
  unfold storeGlobal
  split
  · exact ⟨same.scope, same.functions, List.length_set.trans same.globals⟩
  · exact same

theorem leaves_call (function : FunctionHandle) (args : List Value) (same : SameTables first h) :
    Leaves (SameTables first) (call function args h) := by
  unfold call
  split
  · exact ⟨same.scope, same.functions, same.globals⟩
  · exact same

/-- What code asks for keeps names and tables. -/
theorem leaves_sameTables (i : Instr) : i.Leaves host (SameTables first) := by
  cases i with
  | loadGlobal handle => exact fun h => leaves_loadGlobal first h handle
  | storeGlobal handle => exact fun n h => leaves_storeGlobal first h handle n
  | call function argc returns => exact fun args h => leaves_call first h function args
  | _ => trivial

end Answers

variable {first last : NativeHost ω} {request : Request ω} {reply : Reply}

theorem settle_eq {α : Type} {P : NativeHost ω → Prop} {answer : α → Reply}
    {r : EStateM.Result RuntimeError (NativeHost ω) α} (leaves : Leaves P r) (h : settle answer r = (reply, last)) :
    ((∃ a, reply = answer a) ∨ ∃ e, reply = .failed e) ∧ P last := by
  cases r with
  | ok a w =>
    cases h
    exact ⟨.inl ⟨a, rfl⟩, leaves⟩
  | error e w =>
    cases h
    exact ⟨.inr ⟨e, rfl⟩, leaves⟩

theorem registerFunction_spec {h h' : NativeHost ω} {name : String} {type : FunctionType} {body : NativeFunction ω}
    {handle : FunctionHandle} (step : h.registerFunction name type body = .ok (handle, h')) :
    ∃ function : HostFunction, function.handle = handle ∧ function.type = type ∧ handle = ⟨h.functions.length.toUInt32⟩ ∧
      h' = { h with
        scope := { h.scope with functions := (name, function) :: h.scope.functions }
        functions := h.functions ++ [body] } := by
  obtain ⟨scope, hscope, hstep⟩ := Except.ok_of_bind step
  cases hstep
  unfold HostScope.registerFunction at hscope
  split at hscope
  · cases hscope
    exact ⟨_, rfl, rfl, rfl, rfl⟩
  · cases hscope

/-- A request registers a global or a function, or is a registration that the host refuses, or is none and
    keeps names and tables. -/
theorem perform_cases (h : first.perform request = some (reply, last)) :
    (∃ name initial, request = .registerGlobal name initial ∧ reply = .global ⟨first.globals.length.toUInt32⟩ ∧
      last = { first with
        scope := { first.scope with globals := (name, ⟨first.globals.length.toUInt32⟩) :: first.scope.globals }
        globals := first.globals ++ [initial] }) ∨
    (∃ name body, ∃ function : HostFunction, request = .registerFunction name function.type body ∧
      reply = .function function.handle ∧ function.handle = ⟨first.functions.length.toUInt32⟩ ∧
      last = { first with
        scope := { first.scope with functions := (name, function) :: first.scope.functions }
        functions := first.functions ++ [body] }) ∨
    (∃ cause, reply = .refused cause ∧ last = first) ∨
    (request.registers = false ∧ (∀ cause, reply ≠ .refused cause) ∧ SameTables first last) := by
  have other {α : Type} {answer : α → Reply} {r : EStateM.Result RuntimeError (NativeHost ω) α}
      (hanswer : ∀ a cause, answer a ≠ .refused cause) (leaves : Leaves (SameTables first) r)
      (h : settle answer r = (reply, last)) : (∀ cause, reply ≠ .refused cause) ∧ SameTables first last := by
    obtain ⟨⟨a, rfl⟩ | ⟨e, rfl⟩, same⟩ := settle_eq leaves h
    · exact ⟨hanswer a, same⟩
    · exact ⟨fun cause hc => (by cases hc), same⟩
  cases request with
  | registerGlobal name initial =>
    cases h
    exact .inl ⟨name, initial, rfl, rfl, rfl⟩
  | registerFunction name type body =>
    unfold perform at h
    dsimp only at h
    cases hr : first.registerFunction name type body with
    | ok result =>
      obtain ⟨handle, h'⟩ := result
      rw [hr] at h
      cases h
      obtain ⟨function, rfl, rfl, hhandle, rfl⟩ := registerFunction_spec hr
      exact .inr (.inl ⟨name, body, function, rfl, rfl, hhandle, rfl⟩)
    | error cause =>
      rw [hr] at h
      cases h
      exact .inr (.inr (.inl ⟨cause, rfl, rfl⟩))
  | storeGlobal handle n =>
    have leaves := leaves_storeGlobal first first handle n (.refl first)
    exact .inr (.inr (.inr ⟨rfl, other (fun _ _ hc => by cases hc) leaves (Option.some.inj h)⟩))
  | call function args =>
    have leaves := leaves_call first first function args (.refl first)
    exact .inr (.inr (.inr ⟨rfl, other (fun _ _ hc => by cases hc) leaves (Option.some.inj h)⟩))
  | run artifact args fuel =>
    obtain ⟨outcome, hrun, hsettle⟩ := Option.map_eq_some_iff.mp h
    have leaves := Artifact.run_leaves (fun i _ => leaves_sameTables first i) (.refl first) hrun
    exact .inr (.inr (.inr ⟨rfl, other (fun _ _ hc => by cases hc) leaves hsettle⟩))
  | change world =>
    cases h
    exact .inr (.inr (.inr ⟨rfl, fun cause hc => (by cases hc), rfl, rfl, rfl⟩))

/-- A refused registration leaves the host as it is. -/
theorem eq_of_refused {cause : SemanticError} (h : first.perform request = some (.refused cause, last)) : last = first := by
  rcases perform_cases h with ⟨_, _, -, hreply, -⟩ | ⟨_, _, _, -, hreply, -⟩ | ⟨_, -, heq⟩ | ⟨-, hne, -⟩
  · cases hreply
  · cases hreply
  · exact heq
  · exact absurd rfl (hne cause)

/-! ### Names -/

theorem toNat_toUInt32_le (n : Nat) : n.toUInt32.toNat ≤ n := Nat.mod_le _ _

theorem toNat_toUInt32 {n : Nat} (h : n < handleLimit) : n.toUInt32.toNat = n := Nat.mod_eq_of_lt h

/-- Names stand for their latest registrations, and these have entries. Up to the limit of handles the
    entries are numbered as they were made, and the function that a name stands for is the one that was
    registered under it last. -/
structure WellNamed (history : List (Request ω × Reply)) (h : NativeHost ω) : Prop where
  global (name : String) : h.scope.globalNamed? name = history.findSome? (globalAs name)
  function (name : String) : (h.scope.functionNamed? name).map (fun f => (f.handle, f.type)) =
    (history.findSome? (functionAs name)).map fun found => (found.1, found.2.1)
  global_lt : ∀ entry ∈ h.scope.globals, entry.2.id.toNat < h.globals.length
  function_lt : ∀ entry ∈ h.scope.functions, entry.2.handle.id.toNat < h.functions.length
  globals_numbered : h.globals.length ≤ handleLimit →
    h.scope.globals.map (fun entry => entry.2.id.toNat) = (List.range h.globals.length).reverse
  functions_numbered : h.functions.length ≤ handleLimit →
    h.scope.functions.map (fun entry => entry.2.handle.id.toNat) = (List.range h.functions.length).reverse
  body : h.functions.length ≤ handleLimit → ∀ name found, history.findSome? (functionAs name) = some found →
    h.functions[found.1.id.toNat]? = some found.2.2

namespace WellNamed

variable {history : List (Request ω × Reply)}

theorem empty (world : ω) : WellNamed [] (.empty world) where
  global _ := rfl
  function _ := rfl
  global_lt entry h := by cases h
  function_lt entry h := by cases h
  globals_numbered _ := rfl
  functions_numbered _ := rfl
  body _ name found h := by cases h

theorem reverse_range_succ (n : Nat) : (List.range (n + 1)).reverse = n :: (List.range n).reverse := by
  rw [List.range_succ, List.reverse_append]
  rfl

theorem registerGlobal (h : WellNamed history first) (name : String) (initial : Int64) :
    WellNamed ((.registerGlobal name initial, .global ⟨first.globals.length.toUInt32⟩) :: history)
      { first with
        scope := { first.scope with globals := (name, ⟨first.globals.length.toUInt32⟩) :: first.scope.globals }
        globals := first.globals ++ [initial] } where
  global other := by
    have ih := h.global other
    simp only [HostScope.globalNamed?, List.lookup_cons, List.findSome?_cons, globalAs] at ih ⊢
    by_cases hname : other = name
    · simp [hname]
    · rw [beq_false_of_ne hname, if_neg hname]
      exact ih
  function other := by
    simp only [List.findSome?_cons, functionAs]
    exact h.function other
  global_lt := by
    simp only [List.length_append, List.length_singleton]
    refine List.forall_mem_cons.mpr ⟨Nat.lt_succ_of_le (toNat_toUInt32_le _), fun entry he => ?_⟩
    exact Nat.lt_succ_of_lt (h.global_lt entry he)
  function_lt := h.function_lt
  globals_numbered hle := by
    simp only [List.length_append, List.length_singleton] at hle ⊢
    rw [List.map_cons, h.globals_numbered (by omega), reverse_range_succ, toNat_toUInt32 hle]
  functions_numbered := h.functions_numbered
  body hle other found hfound := by
    simp only [List.findSome?_cons, functionAs] at hfound
    exact h.body hle other found hfound

theorem registerFunction (h : WellNamed history first) (name : String) (body : NativeFunction ω) {function : HostFunction}
    (handle : function.handle = ⟨first.functions.length.toUInt32⟩) :
    WellNamed ((.registerFunction name function.type body, .function function.handle) :: history)
      { first with
        scope := { first.scope with functions := (name, function) :: first.scope.functions }
        functions := first.functions ++ [body] } where
  global other := by
    simp only [List.findSome?_cons, globalAs]
    exact h.global other
  function other := by
    have ih := h.function other
    simp only [HostScope.functionNamed?, List.lookup_cons, List.findSome?_cons, functionAs] at ih ⊢
    by_cases hname : other = name
    · simp [hname]
    · rw [beq_false_of_ne hname, if_neg hname]
      exact ih
  global_lt := h.global_lt
  function_lt := by
    simp only [List.length_append, List.length_singleton]
    refine List.forall_mem_cons.mpr ⟨?_, fun entry he => Nat.lt_succ_of_lt (h.function_lt entry he)⟩
    rw [handle]
    exact Nat.lt_succ_of_le (toNat_toUInt32_le _)
  globals_numbered := h.globals_numbered
  functions_numbered hle := by
    simp only [List.length_append, List.length_singleton] at hle ⊢
    rw [List.map_cons, h.functions_numbered (by omega), reverse_range_succ, handle, toNat_toUInt32 hle]
  body hle other found hfound := by
    simp only [List.length_append, List.length_singleton] at hle
    simp only [List.findSome?_cons, functionAs] at hfound
    by_cases hname : other = name
    · simp only [hname, if_true] at hfound
      cases hfound
      simp [handle, toNat_toUInt32 hle]
    · simp only [hname, if_false] at hfound
      have hget := h.body (by omega) other found hfound
      exact List.getElem?_append_left (List.getElem?_eq_some_iff.mp hget).1 ▸ hget

theorem sameTables (h : WellNamed history first) (same : SameTables first last)
    (hnone : ∀ name, globalAs name (request, reply) = none ∧ functionAs name (request, reply) = none) :
    WellNamed ((request, reply) :: history) last := by
  obtain ⟨hscope, hfunctions, hglobals⟩ := same
  constructor
  case global =>
    intro name
    rw [hscope, List.findSome?_cons, (hnone name).1]
    exact h.global name
  case function =>
    intro name
    rw [hscope, List.findSome?_cons, (hnone name).2]
    exact h.function name
  case global_lt =>
    rw [hscope, hglobals]
    exact h.global_lt
  case function_lt =>
    rw [hscope, hfunctions]
    exact h.function_lt
  case globals_numbered =>
    rw [hscope, hglobals]
    exact h.globals_numbered
  case functions_numbered =>
    rw [hscope, hfunctions]
    exact h.functions_numbered
  case body =>
    rw [hfunctions]
    intro hle name found hfound
    rw [List.findSome?_cons, (hnone name).2] at hfound
    exact h.body hle name found hfound

theorem next (h : WellNamed history first) (step : first.perform request = some (reply, last)) :
    WellNamed ((request, reply) :: history) last := by
  rcases perform_cases step with
    ⟨name, initial, rfl, rfl, rfl⟩ | ⟨name, body, function, rfl, rfl, handle, rfl⟩ | ⟨cause, rfl, rfl⟩ | ⟨hreg, -, same⟩
  · exact h.registerGlobal name initial
  · exact h.registerFunction name body handle
  · refine h.sameTables (.refl last) fun name => ?_
    cases request <;> exact ⟨rfl, rfl⟩
  · refine h.sameTables same fun name => ?_
    cases request with
    | registerGlobal | registerFunction => cases hreg
    | storeGlobal | call | run | change => exact ⟨rfl, rfl⟩

end WellNamed

theorem Session.wellNamed {world : ω} {history : List (Request ω × Reply)} (made : Session (.empty world) history last) :
    WellNamed history last := by
  induction made with
  | start => exact .empty world
  | next _ step ih => exact ih.next step

/-! ### Programs -/

/-- The host has the entry that the instruction asks for. -/
def Has (h : NativeHost ω) : Instr → Prop
  | .loadGlobal handle | .storeGlobal handle => handle.id.toNat < h.globals.length
  | .call function _ _ => function.id.toNat < h.functions.length
  | _ => True

/-- No entry was taken away. -/
structure Extends (first last : NativeHost ω) : Prop where
  globals : first.globals.length ≤ last.globals.length
  functions : first.functions.length ≤ last.functions.length

theorem SameTables.extends (same : SameTables first last) : Extends first last :=
  ⟨Nat.le_of_eq same.globals.symm, Nat.le_of_eq (congrArg List.length same.functions).symm⟩

theorem Extends.trans {middle : NativeHost ω} (h : Extends first middle) (h' : Extends middle last) : Extends first last :=
  ⟨Nat.le_trans h.globals h'.globals, Nat.le_trans h.functions h'.functions⟩

theorem Extends.has (h : Extends first last) {i : Instr} (hi : first.Has i) : last.Has i := by
  cases i with
  | loadGlobal handle | storeGlobal handle => exact Nat.lt_of_lt_of_le hi h.globals
  | call function argc returns => exact Nat.lt_of_lt_of_le hi h.functions
  | _ => trivial

theorem Extends.serves (h : Extends first last) {scope : Scope} (hs : first.Serves scope) : last.Serves scope :=
  fun v hv handle hb => Nat.lt_of_lt_of_le (hs v hv handle hb) h.globals

theorem extends_of_perform (step : first.perform request = some (reply, last)) : Extends first last := by
  rcases perform_cases step with
    ⟨name, initial, -, -, rfl⟩ | ⟨name, body, function, -, -, -, rfl⟩ | ⟨cause, -, rfl⟩ | ⟨-, -, same⟩
  · exact ⟨by simp, Nat.le_refl _⟩
  · exact ⟨Nat.le_refl _, by simp⟩
  · exact (SameTables.refl last).extends
  · exact same.extends

theorem Session.extends {history : List (Request ω × Reply)} (session : Session first history last) : Extends first last := by
  induction session with
  | start => exact (SameTables.refl first).extends
  | next _ step ih => exact ih.trans (extends_of_perform step)

/-- A host serves the programs that are bound to what it has published. -/
theorem WellNamed.serves {history : List (Request ω × Reply)} (h : WellNamed history first) (signature : Signature)
    (names : List String) : first.Serves ((Scope.bind signature first.scope).declareAll names) := by
  intro v hv handle hb
  rcases Scope.mem_declareAll hv with hv | ⟨i, name, -, rfl⟩
  · rcases Scope.mem_bind hv with ⟨name, other, hmem, rfl⟩ | ⟨i, param, -, rfl⟩
    · cases hb
      exact h.global_lt (name, handle) hmem
    · cases hb
  · cases hb

/-- A host has the entries for all that a program bound to it asks for. -/
theorem WellNamed.has_of_compile {history : List (Request ω × Reply)} (h : WellNamed history first) {text : String}
    {signature : Signature} {artifact : Artifact} (hc : compile text signature first.scope = .ok artifact) :
    ∀ i ∈ artifact.chunk.code, first.Has i := by
  obtain ⟨names, hrefers⟩ := refers_of_compile hc
  intro i hi
  have hscope := hrefers i hi
  cases i with
  | loadGlobal handle | storeGlobal handle =>
    obtain ⟨v, hv, hb⟩ := hscope
    exact h.serves signature names v hv handle hb
  | call function argc returns =>
    obtain ⟨entry, hentry, rfl, -⟩ := hscope
    rw [Scope.functions_declareAll] at hentry
    exact h.function_lt entry hentry
  | _ => trivial

/-- A run ends within as many steps as there are instructions. -/
theorem run_of_compile {text : String} {signature : Signature} {hostScope : HostScope} {artifact : Artifact}
    (hc : compile text signature hostScope = .ok artifact) {σ : Type} (host : Host σ) (args : List Int64) (world : σ) :
    ∃ outcome, ∀ fuel, artifact.chunk.code.length ≤ fuel → artifact.run host fuel args world = some outcome := by
  unfold Artifact.run
  split
  next hargs =>
    obtain ⟨p, scope, -, hrun⟩ := goes_of_compile hc
    obtain ⟨n, hn, outcome, hgoes, -⟩ := hrun host world hargs
    exact ⟨outcome, fun fuel hfuel => hgoes.runFor_eq (Nat.le_trans hn hfuel)⟩
  next => exact ⟨_, fun _ _ => rfl⟩

/-- A run whose instructions find their operands and entries does not end with an error of the host. -/
theorem not_host_of_raises {chunk : Chunk} {m : Machine (NativeHost ω)} {e : RuntimeError}
    (has : ∀ i ∈ chunk.code, m.host.Has i) (raises : m.Raises host chunk e last) (reason : String) : e ≠ .host reason := by
  rintro rfl
  cases raises with
  | load code failed =>
    have hlt : _ < m.host.globals.length := has _ (List.mem_of_getElem? code)
    change loadGlobal _ m.host = _ at failed
    simp [loadGlobal, value?, hlt] at failed
  | store code _ failed =>
    have hlt : _ < m.host.globals.length := has _ (List.mem_of_getElem? code)
    change storeGlobal _ _ m.host = _ at failed
    simp [storeGlobal, hlt] at failed
  | call code failed =>
    have hlt : _ < m.host.functions.length := has _ (List.mem_of_getElem? code)
    change call _ _ m.host = _ at failed
    simp only [call, List.getElem?_eq_getElem hlt] at failed
    cases failed

/-- The handles of a native host never dangle. After any sequence of requests its names stand for the
    latest registrations, which have their entries; a refused registration changes nothing; and a program
    bound to the host at that time, run then or after any further requests with the right number of
    arguments, ends and does not end with an error of the host. -/
theorem handles_resolve {world : ω} {history : List (Request ω × Reply)} {h : NativeHost ω}
    (made : Session (.empty world) history h) :
    WellNamed history h ∧
    (∀ request cause h', h.perform request = some (.refused cause, h') → h' = h) ∧
    ∀ text signature artifact, compile text signature h.scope = .ok artifact →
      ∀ more last, Session h more last → ∀ args : List Int64, args.length = artifact.params.length →
        (∃ outcome, ∀ fuel, artifact.chunk.code.length ≤ fuel → artifact.run host fuel args last = some outcome) ∧
        ∀ fuel reason final, artifact.run host fuel args last ≠ some (.error (.host reason) final) := by
  refine ⟨made.wellNamed, fun request cause h' => eq_of_refused, ?_⟩
  intro text signature artifact hc more last later args hargs
  refine ⟨run_of_compile hc host args last, fun fuel reason final hfailed => ?_⟩
  obtain ⟨p, scope, -, hrun⟩ := goes_of_compile hc
  obtain ⟨n, hn, outcome, hgoes, -⟩ := hrun host last hargs
  rw [Artifact.run, if_pos hargs] at hfailed
  obtain ⟨m, hv, hstep⟩ := Machine.visits_of_runFor .start hfailed
  have same : SameTables last m.host := hv.leaves (fun i _ => leaves_sameTables last i) (.refl last)
  have has : ∀ i ∈ artifact.chunk.code, m.host.Has i := fun i hi =>
    (later.extends.trans same.extends).has (made.wellNamed.has_of_compile hc i hi)
  exact not_host_of_raises has (Machine.raises_of_step (hgoes.ready hv) hstep) reason rfl

/-- A host that refused a function, and of whose two globals the later one took the name. -/
def renamed : NativeHost Journal :=
  ⟨⟨[("g", ⟨1⟩), ("g", ⟨0⟩)], [("f", ⟨⟨0⟩, ⟨[.integer], .integer⟩, by decide⟩)]⟩, [1, 5], [Stock.sum.native 0 "f"], {}⟩

theorem made_renamed :
    Session (.empty {})
      [(.registerGlobal "g" 5, .global ⟨1⟩),
        (.registerFunction "f" ⟨[.integer], .integer⟩ (Stock.sum.native 0 "f"), .function ⟨0⟩),
        (.registerFunction "f" ⟨[.void], .integer⟩ (Stock.sum.native 0 "f"),
          .refused (.typeMismatch "function 'f'" (some 0) .integer .void)),
        (.registerGlobal "g" 1, .global ⟨0⟩)] renamed :=
  .next (.next (.next (.next .start rfl) rfl) rfl) rfl

/-- A program that calls and divides, run after a store and a third registration of its global. -/
theorem handles_resolve_renamed :
    renamed.scope.globalNamed? "g" = some ⟨1⟩ ∧
    ∃ artifact, compile "g = f(g); return g / a;" ⟨[⟨"a", .integer⟩], .integer⟩ renamed.scope = .ok artifact ∧
      ∀ (a : Int64) (fuel : Nat) (reason : String) (final : NativeHost Journal),
        artifact.run host fuel [a]
          ⟨⟨[("g", ⟨2⟩), ("g", ⟨1⟩), ("g", ⟨0⟩)], renamed.scope.functions⟩, [1, 7, 0], renamed.functions, {}⟩ ≠
            some (.error (.host reason) final) := by
  obtain ⟨named, -, hrun⟩ := handles_resolve made_renamed
  refine ⟨named.global "g", Except.exists_eq_ok (by decide +kernel) fun artifact h a => ?_⟩
  have later : Session renamed [(.registerGlobal "g" 0, .global ⟨2⟩), (.storeGlobal ⟨1⟩ 7, .stored)] _ :=
    .next (.next .start rfl) rfl
  refine (hrun _ _ artifact h _ _ later [a] ?_).2
  obtain ⟨-, q, -, rfl⟩ := compile_eq_ok h
  rfl

end NativeHost
end HostScript
