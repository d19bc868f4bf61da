import HostScript.Proofs.Host.Sessions

/-! Programs and later registrations.

A registration adds entries at the ends of the tables and does nothing else to them. A program asks only
for entries that were there when it was bound, so it runs on the larger host as on the smaller one: with
the same calls, the same end, and the same values of the old globals, while the new ones are left alone. -/

namespace HostScript
namespace NativeHost

variable {ω : Type}

/-- The value with which the request registers a global. -/
def Request.initial? : Request ω → Option Int64
  | .registerGlobal _ initial => some initial
  | _ => none

/-- The second host is the first one with these globals and functions behind the others. -/
structure Grown (globals : List Int64) (functions : List (NativeFunction ω)) (h h' : NativeHost ω) : Prop where
  globals : h'.globals = h.globals ++ globals
  functions : h'.functions = h.functions ++ functions
  world : h'.world = h.world

theorem Grown.trans {globals globals' : List Int64} {functions functions' : List (NativeFunction ω)}
    {h₁ h₂ h₃ : NativeHost ω} (h : Grown globals functions h₁ h₂) (h' : Grown globals' functions' h₂ h₃) :
    Grown (globals ++ globals') (functions ++ functions') h₁ h₃ where
  globals := by rw [h'.globals, h.globals, List.append_assoc]
  functions := by rw [h'.functions, h.functions, List.append_assoc]
  world := h'.world.trans h.world

theorem Grown.refl (h : NativeHost ω) : Grown [] [] h h := ⟨(List.append_nil _).symm, (List.append_nil _).symm, rfl⟩

/-- The values with which globals were registered, in the order of their registration. -/
def initials (history : List (Request ω × Reply)) : List Int64 := history.reverse.filterMap fun event => event.1.initial?

theorem initials_cons (event : Request ω × Reply) (history : List (Request ω × Reply)) :
    initials (event :: history) = initials history ++ event.1.initial?.toList := by
  unfold initials
  rw [List.reverse_cons, List.filterMap_append]
  cases h : event.1.initial? <;> simp [h]

theorem grown_of_perform {first last : NativeHost ω} {request : Request ω} {reply : Reply} (hreg : request.registers)
    (step : first.perform request = some (reply, last)) : ∃ functions, Grown request.initial?.toList functions first last := by
  cases request with
  | registerGlobal name initial =>
    cases step
    exact ⟨[], rfl, (List.append_nil _).symm, rfl⟩
  | registerFunction name type body =>
    rcases perform_cases step with ⟨_, _, hrequest, -⟩ | ⟨_, body, _, -, -, -, rfl⟩ | ⟨_, -, rfl⟩ | ⟨hnot, -⟩
    · cases hrequest
    · exact ⟨[body], (List.append_nil _).symm, rfl, rfl⟩
    · exact ⟨[], .refl last⟩
    · cases hnot
  | storeGlobal | call | run | change => cases hreg

theorem Session.grown {first last : NativeHost ω} {history : List (Request ω × Reply)} (session : Session first history last)
    (hreg : ∀ event ∈ history, event.1.registers) : ∃ functions, Grown (initials history) functions first last := by
  induction session with
  | start => exact ⟨[], .refl first⟩
  | next _ step ih =>
    obtain ⟨hhead, htail⟩ := List.forall_mem_cons.mp hreg
    obtain ⟨functions, h⟩ := ih htail
    obtain ⟨functions', h'⟩ := grown_of_perform hhead step
    rw [initials_cons]
    exact ⟨_, h.trans h'⟩

/-! ### Runs on both -/

section Runs

variable {globals : List Int64} {functions : List (NativeFunction ω)} {first h h' : NativeHost ω}

/-- The host has its tables, and the other one has more behind them. -/
structure Beside (globals : List Int64) (functions : List (NativeFunction ω)) (first h h' : NativeHost ω) : Prop where
  grown : Grown globals functions h h'
  same : SameTables first h

theorem Beside.loadGlobal (beside : Beside globals functions first h h') {handle : GlobalHandle}
    (hlt : handle.id.toNat < first.globals.length) :
    Alike (Beside globals functions first) (loadGlobal handle h) (loadGlobal handle h') := by
  have hlt : handle.id.toNat < h.globals.length := beside.same.globals ▸ hlt
  have hvalue : h'.value? handle = h.value? handle := by
    unfold value?
    rw [beside.grown.globals, List.getElem?_append_left hlt]
  unfold NativeHost.loadGlobal
  rw [hvalue]
  split
  · exact .ok _ beside
  · exact .error _ beside

theorem Beside.storeGlobal (beside : Beside globals functions first h h') {handle : GlobalHandle} (n : Int64)
    (hlt : handle.id.toNat < first.globals.length) :
    Alike (Beside globals functions first) (storeGlobal handle n h) (storeGlobal handle n h') := by
  have hlt : handle.id.toNat < h.globals.length := beside.same.globals ▸ hlt
  have hlt' : handle.id.toNat < h'.globals.length := by
    rw [beside.grown.globals, List.length_append]
    omega
  unfold NativeHost.storeGlobal
  rw [if_pos hlt, if_pos hlt']
  refine .ok () ⟨⟨?_, beside.grown.functions, beside.grown.world⟩, ?_⟩
  · rw [beside.grown.globals, List.set_append_left _ _ hlt]
  · exact ⟨beside.same.scope, beside.same.functions, List.length_set.trans beside.same.globals⟩

theorem Beside.call (beside : Beside globals functions first h h') {function : FunctionHandle} (args : List Value)
    (hlt : function.id.toNat < first.functions.length) :
    Alike (Beside globals functions first) (call function args h) (call function args h') := by
  have hlt : function.id.toNat < h.functions.length := beside.same.functions ▸ hlt
  have hbody : h'.functions[function.id.toNat]? = h.functions[function.id.toNat]? := by
    rw [beside.grown.functions, List.getElem?_append_left hlt]
  unfold NativeHost.call
  rw [hbody, beside.grown.world]
  split
  · exact .ok _ ⟨⟨beside.grown.globals, beside.grown.functions, rfl⟩, beside.same.scope, beside.same.functions, beside.same.globals⟩
  · exact .error _ beside

theorem answered_of_has {i : Instr} (hi : first.Has i) :
    i.AnsweredAlike host host (Beside globals functions first) := by
  cases i with
  | loadGlobal handle => exact fun h h' beside => beside.loadGlobal hi
  | storeGlobal handle => exact fun n h h' beside => beside.storeGlobal n hi
  | call function argc returns => exact fun args h h' beside => beside.call args hi
  | _ => trivial

end Runs

/-- Later registrations do not change what a program does. On a host to which names were registered after
    the program was bound, also again names that it uses, the program makes the same calls and ends alike:
    the globals that it could know have the same values, the state of the host program is the same, and the
    globals added behind them keep the values of their registration. -/
theorem registrations_unnoticed {world : ω} {history more : List (Request ω × Reply)} {h h' : NativeHost ω}
    (made : Session (.empty world) history h) {text : String} {signature : Signature} {artifact : Artifact}
    (hc : compile text signature h.scope = .ok artifact) (later : Session h more h')
    (registrations : ∀ event ∈ more, event.1.registers) (args : List Int64) (fuel : Nat) :
    artifact.calls host fuel args h = artifact.calls host fuel args h' ∧
    Option.Rel
      (Alike fun final final' => final'.globals = final.globals ++ initials more ∧
        final.globals.length = h.globals.length ∧ final'.world = final.world)
      (artifact.run host fuel args h) (artifact.run host fuel args h') ∧
    (artifact.chunk.code.length ≤ fuel → (artifact.run host fuel args h).isSome) := by
  obtain ⟨functions, grown⟩ := later.grown registrations
  have answered : Machine.AnsweredAlike host host (Beside (initials more) functions h) artifact.chunk.code :=
    fun i hi => answered_of_has (made.wellNamed.has_of_compile hc i hi)
  obtain ⟨hrun, hcalls⟩ := Artifact.run_alike answered fuel args ⟨grown, .refl h⟩
  refine ⟨hcalls, ?_, fun hfuel => ?_⟩
  · generalize artifact.run host fuel args h = o, artifact.run host fuel args h' = o' at hrun
    cases hrun with
    | none => exact .none
    | some alike => exact .some (alike.mono fun w v beside => ⟨beside.grown.globals, beside.same.globals, beside.grown.world⟩)
  · obtain ⟨outcome, ho⟩ := run_of_compile hc host args h
    rw [ho fuel hfuel]
    rfl

/-- A program that calls, assigns and divides, after its global and its function were registered again. -/
theorem registrations_unnoticed_renamed :
    ∃ artifact, compile "g = f(g); return g / a;" ⟨[⟨"a", .integer⟩], .integer⟩ renamed.scope = .ok artifact ∧
      ∃ h', Session renamed
          [(.registerFunction "f" ⟨[], .void⟩ (Stock.silent.native 1 "f"), .function ⟨1⟩), (.registerGlobal "g" 3, .global ⟨2⟩)]
          h' ∧ h'.scope.globalNamed? "g" = some ⟨2⟩ ∧
        ∀ a fuel, artifact.calls host fuel [a] renamed = artifact.calls host fuel [a] h' ∧
          Option.Rel
            (Alike fun final final' => final'.globals = final.globals ++ [3] ∧ final.globals.length = 2 ∧
              final'.world = final.world)
            (artifact.run host fuel [a] renamed) (artifact.run host fuel [a] h') := by
  refine Except.exists_eq_ok (by decide +kernel) fun artifact hc => ?_
  have later : Session renamed
      [(.registerFunction "f" ⟨[], .void⟩ (Stock.silent.native 1 "f"), .function ⟨1⟩), (.registerGlobal "g" 3, .global ⟨2⟩)] _ :=
    .next (.next .start rfl) rfl
  refine ⟨_, later, rfl, fun a fuel => ?_⟩
  have unnoticed := registrations_unnoticed made_renamed hc later (by simp [Request.registers]) [a] fuel
  exact ⟨unnoticed.1, unnoticed.2.1⟩

end NativeHost
end HostScript
