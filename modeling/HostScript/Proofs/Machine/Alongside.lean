import HostScript.Proofs.Machine.Path

/-! Two runs of the same code on two hosts.

If the hosts answer every request of the code alike, with states that stay related, then the machines go
through the same instructions with the same stacks and slots, make the same calls, and end alike. With one
host on both sides this says what a run keeps of the state of its host. -/

namespace HostScript

/-- The same value or error, with related states. -/
inductive Alike {ε σ τ α : Type} (R : σ → τ → Prop) : EStateM.Result ε σ α → EStateM.Result ε τ α → Prop
  | ok (a : α) {w : σ} {v : τ} (related : R w v) : Alike R (.ok a w) (.ok a v)
  | error (e : ε) {w : σ} {v : τ} (related : R w v) : Alike R (.error e w) (.error e v)

theorem Alike.mono {ε σ τ α : Type} {R S : σ → τ → Prop} {r : EStateM.Result ε σ α} {r' : EStateM.Result ε τ α}
    (h : Alike R r r') (hRS : ∀ w v, R w v → S w v) : Alike S r r' := by
  cases h with
  | ok a related => exact .ok a (hRS _ _ related)
  | error e related => exact .error e (hRS _ _ related)

/-- The hosts answer what the instruction asks for alike. -/
def Instr.AnsweredAlike {σ τ : Type} (host : Host σ) (host' : Host τ) (R : σ → τ → Prop) : Instr → Prop
  | .loadGlobal handle => ∀ w v, R w v → Alike R (host.loadGlobal handle w) (host'.loadGlobal handle v)
  | .storeGlobal handle => ∀ n w v, R w v → Alike R (host.storeGlobal handle n w) (host'.storeGlobal handle n v)
  | .call function _ _ => ∀ args w v, R w v → Alike R (host.call function args w) (host'.call function args v)
  | _ => True

namespace Machine

variable {σ τ α β : Type} {R : σ → τ → Prop}

/-- The machines differ only in the states of their hosts, which are related. -/
inductive Beside (R : σ → τ → Prop) : Machine σ → Machine τ → Prop
  | mk {ip : Nat} {stack : List Value} {params locals : Array Value} {w : σ} {v : τ} (related : R w v) :
      Beside R ⟨ip, stack, params, locals, w⟩ ⟨ip, stack, params, locals, v⟩

/-- The actions do the same to machines beside each other. -/
def Agree (R : σ → τ → Prop) (x : Action σ α) (y : Action τ α) : Prop :=
  ∀ m m', Beside R m m' → Alike (Beside R) (x m) (y m')

namespace Agree

theorem pure (a : α) : Agree R (Pure.pure a) (Pure.pure a) := fun _ _ h => .ok a h

theorem throw (e : RuntimeError) : Agree R (MonadExcept.throw e : Action σ α) (MonadExcept.throw e) :=
  fun _ _ h => .error e h

theorem bind {x : Action σ α} {y : Action τ α} {f : α → Action σ β} {g : α → Action τ β} (hx : Agree R x y)
    (hf : ∀ a, Agree R (f a) (g a)) : Agree R (x >>= f) (y >>= g) := by
  intro m m' h
  rw [bind_apply, bind_apply]
  have hx := hx m m' h
  generalize x m = r, y m' = r' at hx
  cases hx with
  | ok a related => exact hf a _ _ related
  | error e related => exact .error e related

theorem push (value : Value) : Agree R (Machine.push value) (Machine.push value) := by
  rintro _ _ ⟨related⟩
  exact .ok () (.mk related)

theorem pop (address : Nat) : Agree R (Machine.pop address) (Machine.pop address) := by
  rintro ⟨ip, stack, params, locals, w⟩ _ ⟨related⟩
  cases stack with
  | nil => exact .error _ (.mk related)
  | cons value stack => exact .ok value (.mk related)

theorem popInteger (address : Nat) : Agree R (Machine.popInteger address) (Machine.popInteger address) := by
  refine (pop address).bind fun value => ?_
  cases value with
  | integer n => exact .pure n
  | boolean b => exact .throw _

theorem popBoolean (address : Nat) : Agree R (Machine.popBoolean address) (Machine.popBoolean address) := by
  refine (pop address).bind fun value => ?_
  cases value with
  | integer n => exact .throw _
  | boolean b => exact .pure b

theorem popArgs (address argc : Nat) : Agree R (Machine.popArgs address argc) (Machine.popArgs address argc) := by
  rintro ⟨ip, stack, params, locals, w⟩ _ ⟨related⟩
  unfold Machine.popArgs
  dsimp only
  split
  · exact .error _ (.mk related)
  · exact .ok _ (.mk related)

theorem onHost {act : EStateM RuntimeError σ α} {act' : EStateM RuntimeError τ α}
    (h : ∀ w v, R w v → Alike R (act w) (act' v)) : Agree R (Machine.onHost act) (Machine.onHost act') := by
  rintro ⟨ip, stack, params, locals, w⟩ ⟨_, _, _, _, v⟩ ⟨related⟩
  unfold Machine.onHost
  dsimp only
  have h := h w v related
  generalize act w = r, act' v = r' at h
  cases h with
  | ok a related => exact .ok a (.mk related)
  | error e related => exact .error e (.mk related)

theorem loadParam (index : Nat) : Agree R (Machine.loadParam index) (Machine.loadParam index) := by
  rintro ⟨ip, stack, params, locals, w⟩ _ ⟨related⟩
  unfold Machine.loadParam
  dsimp only
  split
  · exact .ok _ (.mk related)
  · exact .error _ (.mk related)

theorem loadLocal (slot : Nat) : Agree R (Machine.loadLocal slot) (Machine.loadLocal slot) := by
  rintro ⟨ip, stack, params, locals, w⟩ _ ⟨related⟩
  unfold Machine.loadLocal
  dsimp only
  split
  · exact .ok _ (.mk related)
  · exact .error _ (.mk related)

theorem storeParam (index : Nat) (value : Value) : Agree R (Machine.storeParam index value) (Machine.storeParam index value) := by
  rintro ⟨ip, stack, params, locals, w⟩ _ ⟨related⟩
  unfold Machine.storeParam
  dsimp only
  split
  · exact .ok _ (.mk related)
  · exact .error _ (.mk related)

theorem storeLocal (slot : Nat) (value : Value) : Agree R (Machine.storeLocal slot value) (Machine.storeLocal slot value) := by
  rintro ⟨ip, stack, params, locals, w⟩ _ ⟨related⟩
  unfold Machine.storeLocal
  dsimp only
  split
  · exact .ok _ (.mk related)
  · exact .error _ (.mk related)

theorem jump (chunk : Chunk) (label : Label) : Agree R (Machine.jump chunk label) (Machine.jump chunk label) := by
  unfold Machine.jump
  split
  · rintro _ _ ⟨related⟩
    exact .ok () (.mk related)
  · exact .throw _

theorem pushResult (address : Nat) (ty : Ty) (result : Option Value) :
    Agree R (Machine.pushResult address ty result) (Machine.pushResult address ty result) := by
  cases ty with
  | void => exact .pure ()
  | integer | boolean =>
    cases result with
    | none => exact .throw _
    | some value =>
      simp only [Machine.pushResult]
      split
      · exact .push value
      · exact .throw _

end Agree

variable {host : Host σ} {host' : Host τ} {chunk : Chunk}

theorem agree_execute (address : Nat) {i : Instr} (h : i.AnsweredAlike host host' R) :
    Agree R (execute host chunk address i) (execute host' chunk address i) := by
  cases i with
  | push value => exact (Agree.push value).bind fun _ => .pure none
  | pop => exact (Agree.pop address).bind fun _ => .pure none
  | loadParam index => exact (Agree.loadParam index).bind fun _ => (Agree.push _).bind fun _ => .pure none
  | storeParam index => exact (Agree.pop address).bind fun _ => (Agree.storeParam index _).bind fun _ => .pure none
  | loadLocal slot => exact (Agree.loadLocal slot).bind fun _ => (Agree.push _).bind fun _ => .pure none
  | storeLocal slot => exact (Agree.pop address).bind fun _ => (Agree.storeLocal slot _).bind fun _ => .pure none
  | loadGlobal handle => exact (Agree.onHost h).bind fun _ => (Agree.push _).bind fun _ => .pure none
  | storeGlobal handle =>
    exact (Agree.popInteger address).bind fun n => (Agree.onHost (h n)).bind fun _ => .pure none
  | neg => exact (Agree.popInteger address).bind fun _ => (Agree.push _).bind fun _ => .pure none
  | not => exact (Agree.popBoolean address).bind fun _ => (Agree.push _).bind fun _ => .pure none
  | strict op =>
    refine (Agree.popInteger address).bind fun b => (Agree.popInteger address).bind fun a => ?_
    split
    · exact (Agree.push _).bind fun _ => .pure none
    · exact .throw _
  | jump label => exact (Agree.jump chunk label).bind fun _ => .pure none
  | jumpUnless label =>
    refine (Agree.popBoolean address).bind fun b => ?_
    split
    · exact .pure none
    · exact (Agree.jump chunk label).bind fun _ => .pure none
  | call function argc returns =>
    exact (Agree.popArgs address argc).bind fun args => (Agree.onHost (h args)).bind fun _ =>
      (Agree.pushResult address returns _).bind fun _ => .pure none
  | ret => exact (Agree.popInteger address).bind fun _ => .pure _

/-! ### Steps and runs -/

/-- The hosts answer all that the code asks for alike. -/
def AnsweredAlike (host : Host σ) (host' : Host τ) (R : σ → τ → Prop) (code : List Instr) : Prop :=
  ∀ i ∈ code, i.AnsweredAlike host host' R

variable {m : Machine σ} {m' : Machine τ}

theorem step_alike (hc : AnsweredAlike host host' R chunk.code) (h : Beside R m m') :
    Sum.LiftRel (Beside R) (Alike R) (m.step host chunk) (m'.step host' chunk) := by
  obtain @⟨ip, stack, params, locals, w, v, related⟩ := h
  unfold step
  dsimp only
  split
  · exact .inr (.error _ related)
  next i hi =>
    have hexec : Agree R (execute host chunk ip i) (execute host' chunk ip i) :=
      agree_execute ip (hc i (List.mem_of_getElem? hi))
    have hexec := hexec ⟨ip + 1, stack, params, locals, w⟩ ⟨ip + 1, stack, params, locals, v⟩ (.mk related)
    generalize execute host chunk ip i _ = r, execute host' chunk ip i _ = r' at hexec
    cases hexec with
    | ok result beside =>
      cases result with
      | none => exact .inl beside
      | some n =>
        obtain ⟨related⟩ := beside
        exact .inr (.ok n related)
    | error e beside =>
      obtain ⟨related⟩ := beside
      exact .inr (.error e related)

/-- The host function that the next instruction calls, with its arguments. -/
def call? (chunk : Chunk) (m : Machine σ) : Option (FunctionHandle × List Value) :=
  match chunk.code[m.ip]? with
  | some (.call function argc _) =>
    if argc ≤ m.stack.length then some (function, (m.stack.take argc).reverse) else none
  | _ => none

/-- The calls of host functions in a run of at most so many steps, in their order. -/
def calls (host : Host σ) (chunk : Chunk) : Nat → Machine σ → List (FunctionHandle × List Value)
  | 0, _ => []
  | fuel + 1, m =>
    (m.call? chunk).toList ++
      match m.step host chunk with
      | .inl m => calls host chunk fuel m
      | .inr _ => []

theorem call?_alike (h : Beside R m m') : m.call? chunk = m'.call? chunk := by
  obtain ⟨related⟩ := h
  rfl

theorem runFor_alike (hc : AnsweredAlike host host' R chunk.code) : ∀ (fuel : Nat) {m : Machine σ} {m' : Machine τ},
    Beside R m m' → Option.Rel (Alike R) (runFor host chunk fuel m) (runFor host' chunk fuel m') ∧
      calls host chunk fuel m = calls host' chunk fuel m'
  | 0, _, _, _ => ⟨.none, rfl⟩
  | fuel + 1, m, m', h => by
    unfold runFor calls
    rw [call?_alike h]
    have hstep := step_alike hc h
    generalize m.step host chunk = r, m'.step host' chunk = r' at hstep
    cases hstep with
    | inl beside =>
      obtain ⟨hrun, hcalls⟩ := runFor_alike hc fuel beside
      exact ⟨hrun, congrArg _ hcalls⟩
    | inr alike => exact ⟨.some alike, rfl⟩

theorem Visits.alike (hc : AnsweredAlike host host' R chunk.code) (h : Beside R m m') {m₁ : Machine σ}
    (hv : Visits host chunk m m₁) : ∃ m₂, Visits host' chunk m' m₂ ∧ Beside R m₁ m₂ := by
  induction hv with
  | start => exact ⟨m', .start, h⟩
  | @step m₁ m₂ _ hstep ih =>
    obtain ⟨m₃, hv, hbeside⟩ := ih
    have hstep' := step_alike hc hbeside
    rw [hstep] at hstep'
    generalize hr : m₃.step host' chunk = r at hstep'
    cases hstep' with
    | inl beside => exact ⟨_, hv.step hr, beside⟩

end Machine

section Artifacts

variable {σ τ : Type} {R : σ → τ → Prop} {host : Host σ} {host' : Host τ} {artifact : Artifact} {w : σ} {v : τ}

/-- The calls of host functions in a run; one with the wrong number of arguments makes none. -/
def Artifact.calls (artifact : Artifact) (host : Host σ) (fuel : Nat) (args : List Int64) (world : σ) :
    List (FunctionHandle × List Value) :=
  if args.length = artifact.params.length then Machine.calls host artifact.chunk fuel (.initial artifact args world)
  else []

theorem Artifact.run_alike (hc : Machine.AnsweredAlike host host' R artifact.chunk.code) (fuel : Nat) (args : List Int64)
    (related : R w v) : Option.Rel (Alike R) (artifact.run host fuel args w) (artifact.run host' fuel args v) ∧
      artifact.calls host fuel args w = artifact.calls host' fuel args v := by
  unfold run calls
  split
  · exact Machine.runFor_alike hc fuel (.mk related)
  · exact ⟨.some (.error _ related), rfl⟩

end Artifacts

/-! ### One host

What holds of the state of the host from its start on. -/

/-- The property holds of the state in the result. -/
def Leaves {ε σ α : Type} (P : σ → Prop) : EStateM.Result ε σ α → Prop
  | .ok _ w | .error _ w => P w

/-- The answer to what the instruction asks for keeps the property. -/
def Instr.Leaves {σ : Type} (host : Host σ) (P : σ → Prop) : Instr → Prop
  | .loadGlobal handle => ∀ w, P w → HostScript.Leaves P (host.loadGlobal handle w)
  | .storeGlobal handle => ∀ n w, P w → HostScript.Leaves P (host.storeGlobal handle n w)
  | .call function _ _ => ∀ args w, P w → HostScript.Leaves P (host.call function args w)
  | _ => True

section OneHost

variable {σ : Type} {host : Host σ} {P : σ → Prop} {chunk : Chunk}

theorem alike_self_iff {ε α : Type} {r : EStateM.Result ε σ α} : Alike (fun w v => v = w ∧ P w) r r ↔ Leaves P r := by
  cases r with
  | ok a w =>
    refine ⟨fun h => ?_, fun h => .ok a ⟨rfl, h⟩⟩
    cases h with
    | ok _ related => exact related.2
  | error e w =>
    refine ⟨fun h => ?_, fun h => .error e ⟨rfl, h⟩⟩
    cases h with
    | error _ related => exact related.2

theorem Instr.Leaves.answeredAlike {i : Instr} (h : i.Leaves host P) :
    i.AnsweredAlike host host fun w v => v = w ∧ P w := by
  cases i with
  | loadGlobal handle =>
    rintro w _ ⟨rfl, hw⟩
    exact alike_self_iff.mpr (h _ hw)
  | storeGlobal handle =>
    rintro n w _ ⟨rfl, hw⟩
    exact alike_self_iff.mpr (h n _ hw)
  | call function argc returns =>
    rintro args w _ ⟨rfl, hw⟩
    exact alike_self_iff.mpr (h args _ hw)
  | _ => trivial

theorem Machine.Visits.leaves (hc : ∀ i ∈ chunk.code, i.Leaves host P) {m m₁ : Machine σ} (hm : P m.host)
    (hv : Visits host chunk m m₁) : P m₁.host := by
  obtain ⟨m₂, -, beside⟩ := hv.alike (fun i hi => (hc i hi).answeredAlike) (.mk ⟨rfl, hm⟩)
  obtain ⟨related⟩ := beside
  exact related.2

theorem Artifact.run_leaves {artifact : Artifact} (hc : ∀ i ∈ artifact.chunk.code, i.Leaves host P) {fuel : Nat}
    {args : List Int64} {w : σ} (hw : P w) {o : Outcome σ} (h : artifact.run host fuel args w = some o) : Leaves P o := by
  have alike := (run_alike (fun i hi => (hc i hi).answeredAlike) fuel args (show w = w ∧ P w from ⟨rfl, hw⟩)).1
  rw [h] at alike
  cases alike with
  | some alike => exact alike_self_iff.mp alike

end OneHost
end HostScript
