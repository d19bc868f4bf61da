import HostScript.Proofs.Host.Sessions
import HostScript.Proofs.Machine.Returns
import Mathlib.Data.List.Nodup

/-! What a run leaves alone.

Only an assignment stores, and the branches that are dead have no code. So a run changes a global of its
host only if its program assigns to a variable bound to that global, and it got this binding from a name
that the host published for the global and that the program did not declare itself. -/

namespace HostScript

/-! ### Assignments in the code -/

theorem Variable.binding_of_store {v : Variable} {handle : GlobalHandle} (h : .storeGlobal handle = v.store) :
    v.binding = .global handle := by
  unfold store at h
  split at h
  next => cases h
  next => cases h
  next other hb =>
    cases h
    exact hb

namespace Stmt

/-- The statement assigns to the variable, in a part of it that is not dead. -/
inductive Assigns (target : Variable) : Stmt → Prop
  | assign (value : Expr) : Assigns target (.assign target value)
  | block {t : Stmt} {body : List Stmt} (mem : t ∈ body) (part : Assigns target t) : Assigns target (.block body)
  | thenBranch {condition : Expr} {decided : Option Bool} {t : Stmt} {elseBranch : Option Stmt}
      (live : decided ≠ some false) (part : Assigns target t) : Assigns target (.branch condition decided t elseBranch)
  | elseBranch {condition : Expr} {decided : Option Bool} {thenBranch t : Stmt} (live : decided ≠ some true)
      (part : Assigns target t) : Assigns target (.branch condition decided thenBranch (some t))

section
variable {address : Nat} {label : Label} {handle : GlobalHandle}

/-- A store to a global does not stand in the code of an expression, but behind it. -/
theorem store_behind {e : Expr} {code : List Instr} (h : .storeGlobal handle ∈ (e.fragment address label).code ++ code) :
    .storeGlobal handle ∈ code := by
  rcases List.mem_append.mp h with h | h
  · cases Expr.computes_of_mem h
  · exact h

end

mutual

/-- Every store to a global in the code of a statement belongs to an assignment. -/
theorem assigns_of_code : ∀ (t : Stmt) {address : Nat} {label : Label} {handle : GlobalHandle},
    .storeGlobal handle ∈ (t.fragment address label).code → ∃ target, target.binding = .global handle ∧ t.Assigns target
  | declare names, address, label, handle, h => by cases h
  | assign target value, address, label, handle, h => by
    rcases List.mem_singleton.mp (store_behind h) with hstore
    exact ⟨target, Variable.binding_of_store hstore, .assign value⟩
  | ret value, address, label, handle, h => by cases List.mem_singleton.mp (store_behind h)
  | expr value, address, label, handle, h => by
    have hpop := store_behind h
    split at hpop
    · cases List.mem_singleton.mp hpop
    · cases hpop
  | empty, address, label, handle, h => by cases h
  | block body, address, label, handle, h => by
    obtain ⟨t, hmem, target, hbinding, part⟩ := assigns_of_codes body h
    exact ⟨target, hbinding, .block hmem part⟩
  | branch _ (some true) thenBranch _, address, label, handle, h => by
    obtain ⟨target, hbinding, part⟩ := assigns_of_code thenBranch h
    exact ⟨target, hbinding, .thenBranch (by decide) part⟩
  | branch _ (some false) _ none, address, label, handle, h => by cases h
  | branch _ (some false) _ (some elseBranch), address, label, handle, h => by
    obtain ⟨target, hbinding, part⟩ := assigns_of_code elseBranch h
    exact ⟨target, hbinding, .elseBranch (by decide) part⟩
  | branch condition none thenBranch none, address, label, handle, h => by
    simp only [fragment, List.append_assoc] at h
    rcases List.mem_append.mp (store_behind h) with h | h
    · cases List.mem_singleton.mp h
    obtain ⟨target, hbinding, part⟩ := assigns_of_code thenBranch h
    exact ⟨target, hbinding, .thenBranch nofun part⟩
  | branch condition none thenBranch (some elseBranch), address, label, handle, h => by
    simp only [fragment, List.append_assoc] at h
    rcases List.mem_append.mp (store_behind h) with h | h
    · cases List.mem_singleton.mp h
    rcases List.mem_append.mp h with h | h
    · obtain ⟨target, hbinding, part⟩ := assigns_of_code thenBranch h
      exact ⟨target, hbinding, .thenBranch nofun part⟩
    rcases List.mem_append.mp h with h | h
    · cases List.mem_singleton.mp h
    obtain ⟨target, hbinding, part⟩ := assigns_of_code elseBranch h
    exact ⟨target, hbinding, .elseBranch nofun part⟩

theorem assigns_of_codes : ∀ (body : List Stmt) {address : Nat} {label : Label} {handle : GlobalHandle},
    .storeGlobal handle ∈ (fragments body address label).code →
      ∃ t ∈ body, ∃ target, target.binding = .global handle ∧ t.Assigns target
  | [], address, label, handle, h => by cases h
  | t :: body, address, label, handle, h => by
    rcases List.mem_append.mp h with h | h
    · exact ⟨t, .head body, assigns_of_code t h⟩
    · obtain ⟨u, hmem, hassigns⟩ := assigns_of_codes body h
      exact ⟨u, .tail t hmem, hassigns⟩

end

/-- What is assigned to is what its name stands for. -/
theorem Assigns.found {target : Variable} {t : Stmt} {scope : Scope} (h : t.Assigns target) (typed : t.Typed scope) :
    scope.variableNamed? target.name = some target := by
  induction h with
  | assign value =>
    obtain ⟨found, -, -⟩ := typed
    exact found
  | block mem _ ih =>
    cases typed with
    | block typed => exact ih (typed _ mem)
  | thenBranch _ _ ih =>
    cases typed with
    | branch _ _ thenTyped _ => exact ih thenTyped
  | elseBranch _ _ ih =>
    cases typed with
    | branch _ _ _ elseTyped => exact ih (elseTyped _ rfl)

end Stmt

/-- Some statement of the program assigns to the variable, in a part of it that is not dead. -/
def Program.Assigns (p : Program) (target : Variable) : Prop := ∃ t ∈ p.body, t.Assigns target

theorem Program.assigns_of_code {p : Program} {handle : GlobalHandle} (h : .storeGlobal handle ∈ p.chunk.code) :
    ∃ target, target.binding = .global handle ∧ p.Assigns target := by
  rw [p.code_chunk] at h
  rcases List.mem_append.mp h with h | h
  · obtain ⟨t, hmem, target, hbinding, hassigns⟩ := Stmt.assigns_of_codes p.body h
    exact ⟨target, hbinding, t, hmem, hassigns⟩
  · unfold tail at h
    split at h <;> simp at h

/-! ### Names of globals -/

/-- A variable bound to a global has its name from the host, and the program does not declare it. -/
theorem Scope.globalNamed?_of_found {signature : Signature} {host : HostScope} {names : List String} {v : Variable}
    {handle : GlobalHandle} (found : ((bind signature host).declareAll names).variableNamed? v.name = some v)
    (hb : v.binding = .global handle) : host.globalNamed? v.name = some handle ∧ v.name ∉ names := by
  rcases @variableNamed?_declareAll v.name names (bind signature host) with ⟨hnot, hsame⟩ | ⟨-, slot, hlocal⟩
  · refine ⟨?_, hnot⟩
    rw [found, variableNamed?_bind] at hsame
    cases hglobal : host.globalNamed? v.name with
    | some other =>
      rw [hglobal] at hsame
      rw [Option.some.inj hsame] at hb
      cases hb
      rfl
    | none =>
      rw [hglobal] at hsame
      rcases mem_addParams _ (mem_of_variableNamed? hsame.symm) with h | ⟨i, param, -, hv⟩
      · cases h
      · rw [hv] at hb
        cases hb
  · rw [hlocal] at found
    rw [← Option.some.inj found] at hb
    cases hb

/-- The host published the global under no other name than this one. -/
def HostScope.SoleName (host : HostScope) (name : String) (handle : GlobalHandle) : Prop :=
  ∀ other, (other, handle) ∈ host.globals → other = name

namespace NativeHost

variable {ω : Type}

/-- Up to the limit of handles no two registrations share an entry. -/
theorem WellNamed.soleName {history : List (Request ω × Reply)} {h : NativeHost ω} (named : WellNamed history h)
    (limit : h.globals.length ≤ handleLimit) {name : String} {handle : GlobalHandle}
    (mem : (name, handle) ∈ h.scope.globals) : h.scope.SoleName name handle := by
  intro other hother
  have hnodup : (h.scope.globals.map fun entry => entry.2.id.toNat).Nodup := by
    rw [named.globals_numbered limit, List.nodup_reverse]
    exact List.nodup_range
  exact congrArg Prod.fst (List.inj_on_of_nodup_map hnodup hother mem rfl)

/-! ### Runs -/

/-- Only a store to the global itself can change its value. -/
theorem leaves_value? (start : NativeHost ω) {handle : GlobalHandle} {i : Instr} (hi : i ≠ .storeGlobal handle) :
    i.Leaves host fun h : NativeHost ω => h.value? handle = start.value? handle := by
  cases i with
  | loadGlobal other =>
    intro h same
    change Leaves _ (loadGlobal other h)
    unfold loadGlobal
    split <;> exact same
  | storeGlobal other =>
    intro n h same
    change Leaves _ (storeGlobal other n h)
    unfold storeGlobal
    split
    · have hne : other.id.toNat ≠ handle.id.toNat := by
        intro heq
        have hid : other.id = handle.id := UInt32.toNat_inj.mp heq
        obtain ⟨id⟩ := other
        cases hid
        exact hi rfl
      exact (List.getElem?_set_ne hne).trans same
    · exact same
  | call function argc returns =>
    intro args h same
    change Leaves _ (call function args h)
    unfold call
    split <;> exact same
  | _ => trivial

theorem run_leaves_value? {artifact : Artifact} {handle : GlobalHandle} (hc : .storeGlobal handle ∉ artifact.chunk.code)
    {start : NativeHost ω} {fuel : Nat} {args : List Int64} {outcome : Outcome (NativeHost ω)}
    (hrun : artifact.run host fuel args start = some outcome) :
    Leaves (fun final => final.value? handle = start.value? handle) outcome :=
  Artifact.run_leaves (fun _ hi => leaves_value? start fun heq => hc (heq ▸ hi)) rfl hrun

/-- What a run can change of the globals. A program bound to a native host, run on any native host with any
    arguments, ends, and be it with an error, a global has another value then only if the program assigns, in
    a part of it that is not dead, to a variable that is bound to the global by a name that stood for it when
    the program was bound and that the program does not declare. So a global with one name is left alone if
    the name is declared, if it is never assigned to, and if it was registered again before. On a host with
    no more globals than handles all globals have one name. -/
theorem run_changes_assigned {h : NativeHost ω} {text : String} {signature : Signature} {artifact : Artifact}
    (hc : compile text signature h.scope = .ok artifact) :
    ∃ p : Program,
      Program.read (.bind signature h.scope) text = .ok (p, (Scope.bind signature h.scope).declareAll p.locals) ∧
      (∀ (start : NativeHost ω) (args : List Int64) (fuel : Nat),
        (artifact.chunk.code.length ≤ fuel → (artifact.run host fuel args start).isSome) ∧
        ∀ outcome, artifact.run host fuel args start = some outcome →
          Leaves (fun final => ∀ handle, final.value? handle ≠ start.value? handle →
            ∃ target, target.binding = .global handle ∧ p.Assigns target ∧
              h.scope.globalNamed? target.name = some handle ∧ target.name ∉ p.locals) outcome ∧
          ∀ name handle, h.scope.SoleName name handle →
            (name ∈ p.locals ∨ (∀ target, target.name = name → ¬ p.Assigns target) ∨
              h.scope.globalNamed? name ≠ some handle) →
            Leaves (fun final => final.value? handle = start.value? handle) outcome) ∧
      ∀ world history, Session (.empty world) history h → h.globals.length ≤ handleLimit →
        ∀ entry ∈ h.scope.globals, h.scope.SoleName entry.1 entry.2 := by
  obtain ⟨-, p, hread, rfl⟩ := compile_eq_ok hc
  -- A store in the code has its name from the host.
  have hstore (handle : GlobalHandle) (hmem : .storeGlobal handle ∈ p.chunk.code) :
      ∃ target, target.binding = .global handle ∧ p.Assigns target ∧ h.scope.globalNamed? target.name = some handle ∧
        target.name ∉ p.locals := by
    obtain ⟨target, hb, t, ht, hassigns⟩ := Program.assigns_of_code hmem
    have found := hassigns.found ((Program.typed_of_read hread).1 t ht)
    exact ⟨target, hb, ⟨t, ht, hassigns⟩, Scope.globalNamed?_of_found found hb⟩
  refine ⟨p, hread, fun start args fuel => ⟨fun hfuel => ?_, fun outcome hrun => ⟨?_, ?_⟩⟩, ?_⟩
  · obtain ⟨outcome, ho⟩ := run_of_compile hc host args start
    rw [ho fuel hfuel]
    rfl
  · have hkept (handle : GlobalHandle) (hmem : .storeGlobal handle ∉ p.chunk.code) := run_leaves_value? hmem hrun
    cases outcome with
    | ok n final | error e final =>
      intro handle hne
      by_cases hmem : .storeGlobal handle ∈ p.chunk.code
      · exact hstore handle hmem
      · exact absurd (hkept handle hmem) hne
  · intro name handle hsole hcase
    refine run_leaves_value? (fun hmem => ?_) hrun
    obtain ⟨target, -, hassigns, hglobal, hnot⟩ := hstore handle hmem
    obtain rfl := hsole target.name (mem_of_lookup hglobal)
    rcases hcase with hlocal | hnever | hagain
    · exact hnot hlocal
    · exact hnever target rfl hassigns
    · exact hagain hglobal
  · intro world history made limit entry hentry
    exact made.wellNamed.soleName limit hentry

/-- The host on which `g` took another global, with one more. -/
def shadowed : NativeHost Journal :=
  { renamed with scope.globals := [("x", ⟨2⟩), ("g", ⟨1⟩), ("g", ⟨0⟩)], globals := [1, 5, 3] }

/-- A program that declares `x` and assigns to `g` leaves the global `x` and the old global `g` alone. -/
theorem run_changes_assigned_shadowed :
    ∃ artifact, compile "var x; x = f(g); g = x + 1; return x / g;" ⟨[], .integer⟩ shadowed.scope = .ok artifact ∧
      ∀ (start : NativeHost Journal) (fuel : Nat) (outcome : Outcome (NativeHost Journal)),
        artifact.run host fuel [] start = some outcome →
          Leaves (fun final => final.value? ⟨2⟩ = start.value? ⟨2⟩) outcome ∧
            Leaves (fun final => final.value? ⟨0⟩ = start.value? ⟨0⟩) outcome := by
  refine Except.exists_eq_ok (by decide +kernel) fun artifact hc => ?_
  obtain ⟨p, hread, hrun, hnames⟩ := run_changes_assigned hc
  have hlocals : p.locals = ["x"] := by
    have hfirst : ((Program.read (.bind ⟨[], .integer⟩ shadowed.scope) "var x; x = f(g); g = x + 1; return x / g;").toOption.map
        fun result => result.1.locals) = some ["x"] := by decide +kernel
    rw [hread] at hfirst
    exact Option.some.inj hfirst
  have made : Session (.empty {}) ((.registerGlobal "x" 3, .global ⟨2⟩) :: _) shadowed := .next made_renamed rfl
  have hsole := hnames _ _ made (by decide)
  intro start fuel outcome ho
  obtain ⟨-, hleft⟩ := (hrun start [] fuel).2 outcome ho
  refine ⟨hleft "x" ⟨2⟩ (hsole _ (.head _)) (.inl ?_), hleft "g" ⟨0⟩ (hsole _ (.tail _ (.tail _ (.head _)))) (.inr (.inr ?_))⟩
  · rw [hlocals]
    exact .head _
  · decide

end NativeHost
end HostScript
