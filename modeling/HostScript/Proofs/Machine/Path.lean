import HostScript.Machine

/-! Runs of the machine, step by step.

A state is ready if its instruction finds what it needs: operands of the right types, slots and
targets. From a ready state a run goes on, returns, or ends with an error that is not the machine's
own fault (`Raises`). `Goes` follows a run through ready states only, and as a step has one outcome,
there are no other states on the way (`Goes.ready`). -/

namespace HostScript

variable {σ : Type}

theorem StrictOp.result?_eq_none {op : StrictOp} {a b : Int64} : op.result? a b = none ↔ op = .div ∧ b = 0 := by
  cases op <;> simp [StrictOp.result?]

namespace Machine

/-- The instruction finds its operands, and a return finds nothing else. -/
def Finds (chunk : Chunk) (m : Machine σ) : Instr → Prop
  | .push _ | .loadGlobal _ => True
  | .pop => ∃ value rest, m.stack = value :: rest
  | .loadParam index => ∃ value, m.params[index]? = some value
  | .storeParam index => index < m.params.size ∧ ∃ value rest, m.stack = value :: rest
  | .loadLocal slot => ∃ value, m.locals[slot]? = some value
  | .storeLocal slot => slot < m.locals.size ∧ ∃ value rest, m.stack = value :: rest
  | .storeGlobal _ | .neg => ∃ n rest, m.stack = .integer n :: rest
  | .not => ∃ b rest, m.stack = .boolean b :: rest
  | .strict _ => ∃ a b rest, m.stack = .integer b :: .integer a :: rest
  | .jump label => ∃ target, chunk.target? label = some target
  | .jumpUnless label => (∃ b rest, m.stack = .boolean b :: rest) ∧ ∃ target, chunk.target? label = some target
  | .call _ argc _ => argc ≤ m.stack.length
  | .ret => ∃ n, m.stack = [.integer n]

/-- There is an instruction, and it finds what it needs. -/
def Ready (chunk : Chunk) (m : Machine σ) : Prop := ∃ i, chunk.code[m.ip]? = some i ∧ m.Finds chunk i

/-- The errors that a ready state can end with: a division by zero, a call whose result is not of the
    declared type, and what a method of the host returns as its own error. -/
inductive Raises (host : Host σ) (chunk : Chunk) (m : Machine σ) : RuntimeError → σ → Prop
  | division {a : Int64} {rest : List Value} (code : chunk.code[m.ip]? = some (.strict .div))
      (stack : m.stack = .integer 0 :: .integer a :: rest) : Raises host chunk m (.divisionByZero m.ip) m.host
  | result {function : FunctionHandle} {argc : Nat} {expected : Ty} {result : Option Value} {world : σ}
      (code : chunk.code[m.ip]? = some (.call function argc expected)) (value : expected.isValue)
      (called : host.call function (m.stack.take argc).reverse m.host = .ok result world)
      (wrong : result.map Value.ty ≠ some expected) : Raises host chunk m (.typeConfusion m.ip expected result) world
  | load {handle : GlobalHandle} {e : RuntimeError} {world : σ} (code : chunk.code[m.ip]? = some (.loadGlobal handle))
      (failed : host.loadGlobal handle m.host = .error e world) : Raises host chunk m e world
  | store {handle : GlobalHandle} {n : Int64} {rest : List Value} {e : RuntimeError} {world : σ}
      (code : chunk.code[m.ip]? = some (.storeGlobal handle)) (stack : m.stack = .integer n :: rest)
      (failed : host.storeGlobal handle n m.host = .error e world) : Raises host chunk m e world
  | call {function : FunctionHandle} {argc : Nat} {returns : Ty} {e : RuntimeError} {world : σ}
      (code : chunk.code[m.ip]? = some (.call function argc returns))
      (failed : host.call function (m.stack.take argc).reverse m.host = .error e world) : Raises host chunk m e world

/-- The errors of a machine that lacks what its next step needs: an operand, the target of a jump, an
    instruction or a slot. -/
inductive Lacks : RuntimeError → Prop
  | operand (address : Nat) : Lacks (.stackUnderflow address)
  | target (label : Label) : Lacks (.unboundLabel label)
  | instruction : Lacks .missingReturn
  | param (index : Nat) : Lacks (missingParam index)
  | localSlot (slot : Nat) : Lacks (missingLocal slot)

/-- Some method of the host fails with the error in some state. -/
inductive Fails (host : Host σ) (e : RuntimeError) : Prop
  | load {handle : GlobalHandle} {before after : σ} (failed : host.loadGlobal handle before = .error e after)
  | store {handle : GlobalHandle} {n : Int64} {before after : σ} (failed : host.storeGlobal handle n before = .error e after)
  | call {function : FunctionHandle} {args : List Value} {before after : σ}
      (failed : host.call function args before = .error e after)

theorem Raises.fails_of_lacks {host : Host σ} {chunk : Chunk} {m : Machine σ} {e : RuntimeError} {last : σ}
    (h : m.Raises host chunk e last) (lacks : Lacks e) : Fails host e := by
  cases h with
  | division => cases lacks
  | result => cases lacks
  | load _ failed => exact .load failed
  | store _ _ failed => exact .store failed
  | call _ failed => exact .call failed

/-! ### Single steps -/

section Actions

variable {α β : Type} (m : Machine σ)

@[simp] theorem pure_apply (a : α) : (pure a : Action σ α) m = .ok a m := rfl

@[simp] theorem throw_apply (e : RuntimeError) : (throw e : Action σ α) m = .error e m := rfl

@[simp] theorem bind_apply (x : Action σ α) (f : α → Action σ β) :
    (x >>= f) m = match x m with
      | .ok a m => f a m
      | .error e m => .error e m := by
  change EStateM.bind x f m = _
  unfold EStateM.bind
  cases x m <;> rfl

@[simp] theorem map_apply (x : Action σ α) (f : α → β) :
    (f <$> x) m = match x m with
      | .ok a m => .ok (f a) m
      | .error e m => .error e m := by
  change EStateM.map f x m = _
  unfold EStateM.map
  cases x m <;> rfl

@[simp] theorem push_apply (value : Value) : push value m = .ok () { m with stack := value :: m.stack } := rfl

@[simp] theorem modify_apply (f : Machine σ → Machine σ) : (modify f : Action σ Unit) m = .ok () (f m) := rfl

end Actions

section Steps

variable {host : Host σ} {chunk : Chunk} {m : Machine σ} {value : Value} {rest : List Value}

theorem step_push (h : chunk.code[m.ip]? = some (.push value)) :
    m.step host chunk = .inl { m with ip := m.ip + 1, stack := value :: m.stack } := by
  simp [step, h, execute]

theorem step_pop (h : chunk.code[m.ip]? = some .pop) (hs : m.stack = value :: rest) :
    m.step host chunk = .inl { m with ip := m.ip + 1, stack := rest } := by
  simp [step, h, execute, pop, hs]

theorem step_loadParam {index : Nat} (h : chunk.code[m.ip]? = some (.loadParam index))
    (hv : m.params[index]? = some value) :
    m.step host chunk = .inl { m with ip := m.ip + 1, stack := value :: m.stack } := by
  simp [step, h, execute, loadParam, hv]

theorem step_loadLocal {slot : Nat} (h : chunk.code[m.ip]? = some (.loadLocal slot))
    (hv : m.locals[slot]? = some value) :
    m.step host chunk = .inl { m with ip := m.ip + 1, stack := value :: m.stack } := by
  simp [step, h, execute, loadLocal, hv]

theorem step_storeParam {index : Nat} (h : chunk.code[m.ip]? = some (.storeParam index))
    (hi : index < m.params.size) (hs : m.stack = value :: rest) :
    m.step host chunk =
      .inl { m with ip := m.ip + 1, stack := rest, params := m.params.setIfInBounds index value } := by
  simp [step, h, execute, pop, hs, storeParam, hi]

theorem step_storeLocal {slot : Nat} (h : chunk.code[m.ip]? = some (.storeLocal slot))
    (hi : slot < m.locals.size) (hs : m.stack = value :: rest) :
    m.step host chunk =
      .inl { m with ip := m.ip + 1, stack := rest, locals := m.locals.setIfInBounds slot value } := by
  simp [step, h, execute, pop, hs, storeLocal, hi]

theorem step_loadGlobal {handle : GlobalHandle} (h : chunk.code[m.ip]? = some (.loadGlobal handle)) :
    m.step host chunk =
      match host.loadGlobal handle m.host with
      | .ok n world => .inl { m with ip := m.ip + 1, stack := .integer n :: m.stack, host := world }
      | .error e world => .inr (.error e world) := by
  cases hl : host.loadGlobal handle m.host <;>
    simp [step, h, execute, onHost, hl]

theorem step_storeGlobal {handle : GlobalHandle} {n : Int64} (h : chunk.code[m.ip]? = some (.storeGlobal handle))
    (hs : m.stack = .integer n :: rest) :
    m.step host chunk =
      match host.storeGlobal handle n m.host with
      | .ok _ world => .inl { m with ip := m.ip + 1, stack := rest, host := world }
      | .error e world => .inr (.error e world) := by
  cases hl : host.storeGlobal handle n m.host <;>
    simp [step, h, execute, popInteger, pop, hs, onHost, hl]

theorem step_neg {n : Int64} (h : chunk.code[m.ip]? = some .neg) (hs : m.stack = .integer n :: rest) :
    m.step host chunk = .inl { m with ip := m.ip + 1, stack := .integer (-n) :: rest } := by
  simp [step, h, execute, popInteger, pop, hs]

theorem step_not {b : Bool} (h : chunk.code[m.ip]? = some .not) (hs : m.stack = .boolean b :: rest) :
    m.step host chunk = .inl { m with ip := m.ip + 1, stack := .boolean (!b) :: rest } := by
  simp [step, h, execute, popBoolean, pop, hs]

theorem step_strict {op : StrictOp} {a b : Int64} (h : chunk.code[m.ip]? = some (.strict op))
    (hs : m.stack = .integer b :: .integer a :: rest) :
    m.step host chunk =
      match op.result? a b with
      | some value => .inl { m with ip := m.ip + 1, stack := value :: rest }
      | none => .inr (.error (.divisionByZero m.ip) m.host) := by
  cases hr : op.result? a b <;>
    simp [step, h, execute, popInteger, pop, hs, hr]

theorem step_jump {label : Label} {target : Nat} (h : chunk.code[m.ip]? = some (.jump label))
    (ht : chunk.target? label = some target) : m.step host chunk = .inl { m with ip := target } := by
  simp [step, h, execute, jump, ht]

theorem step_jumpUnless {label : Label} {target : Nat} {b : Bool} (h : chunk.code[m.ip]? = some (.jumpUnless label))
    (hs : m.stack = .boolean b :: rest) (ht : chunk.target? label = some target) :
    m.step host chunk = .inl { m with ip := if b then m.ip + 1 else target, stack := rest } := by
  cases b <;>
    simp [step, h, execute, popBoolean, pop, hs, jump, ht]

theorem step_ret {n : Int64} (h : chunk.code[m.ip]? = some .ret) (hs : m.stack = .integer n :: rest) :
    m.step host chunk = .inr (.ok n m.host) := by
  simp [step, h, execute, popInteger, pop, hs]

theorem step_call {function : FunctionHandle} {argc : Nat} {returns : Ty}
    (h : chunk.code[m.ip]? = some (.call function argc returns)) (hs : argc ≤ m.stack.length) :
    m.step host chunk =
      match host.call function (m.stack.take argc).reverse m.host with
      | .error e world => .inr (.error e world)
      | .ok result world =>
        match returns, result with
        | .void, _ => .inl { m with ip := m.ip + 1, stack := m.stack.drop argc, host := world }
        | expected, some value =>
          if value.ty = expected then
            .inl { m with ip := m.ip + 1, stack := value :: m.stack.drop argc, host := world }
          else .inr (.error (.typeConfusion m.ip expected (some value)) world)
        | expected, none => .inr (.error (.typeConfusion m.ip expected none) world) := by
  have hlen : ¬m.stack.length < argc := by omega
  cases hc : host.call function (m.stack.take argc).reverse m.host with
  | error e world => simp [step, h, execute, popArgs, hlen, onHost, hc]
  | ok result world =>
    cases returns <;> cases result with
    | none => simp [step, h, execute, popArgs, hlen, onHost, hc, pushResult]
    | some value => cases value <;> simp [step, h, execute, popArgs, hlen, onHost, hc, pushResult, Value.ty]

theorem raises_of_step {e : RuntimeError} {world : σ} (hready : m.Ready chunk)
    (hstep : m.step host chunk = .inr (.error e world)) : m.Raises host chunk e world := by
  obtain ⟨i, hi, hfinds⟩ := hready
  cases i with
  | push value =>
    rw [step_push hi] at hstep
    cases hstep
  | pop =>
    obtain ⟨value, rest, hs⟩ := hfinds
    rw [step_pop hi hs] at hstep
    cases hstep
  | loadParam index =>
    obtain ⟨value, hv⟩ := hfinds
    rw [step_loadParam hi hv] at hstep
    cases hstep
  | storeParam index =>
    obtain ⟨hlt, value, rest, hs⟩ := hfinds
    rw [step_storeParam hi hlt hs] at hstep
    cases hstep
  | loadLocal slot =>
    obtain ⟨value, hv⟩ := hfinds
    rw [step_loadLocal hi hv] at hstep
    cases hstep
  | storeLocal slot =>
    obtain ⟨hlt, value, rest, hs⟩ := hfinds
    rw [step_storeLocal hi hlt hs] at hstep
    cases hstep
  | loadGlobal handle =>
    rw [step_loadGlobal hi] at hstep
    split at hstep
    · cases hstep
    next hl =>
      cases hstep
      exact .load hi hl
  | storeGlobal handle =>
    obtain ⟨n, rest, hs⟩ := hfinds
    rw [step_storeGlobal hi hs] at hstep
    split at hstep
    · cases hstep
    next hl =>
      cases hstep
      exact .store hi hs hl
  | neg =>
    obtain ⟨n, rest, hs⟩ := hfinds
    rw [step_neg hi hs] at hstep
    cases hstep
  | not =>
    obtain ⟨b, rest, hs⟩ := hfinds
    rw [step_not hi hs] at hstep
    cases hstep
  | strict op =>
    obtain ⟨a, b, rest, hs⟩ := hfinds
    rw [step_strict hi hs] at hstep
    split at hstep
    · cases hstep
    next hr =>
      cases hstep
      obtain ⟨rfl, rfl⟩ := StrictOp.result?_eq_none.mp hr
      exact .division hi hs
  | jump label =>
    obtain ⟨target, ht⟩ := hfinds
    rw [step_jump hi ht] at hstep
    cases hstep
  | jumpUnless label =>
    obtain ⟨⟨b, rest, hs⟩, target, ht⟩ := hfinds
    rw [step_jumpUnless hi hs ht] at hstep
    cases hstep
  | call function argc returns =>
    rw [step_call hi hfinds] at hstep
    split at hstep
    next hc =>
      cases hstep
      exact .call hi hc
    next result world' hc =>
      have hvalue : returns.isValue ∧ result.map Value.ty ≠ some returns ∧
          e = .typeConfusion m.ip returns result ∧ world = world' := by
        cases returns <;> rcases result with _ | value | value <;> cases hstep <;> simp [Ty.isValue, Value.ty]
      obtain ⟨hv, hne, rfl, rfl⟩ := hvalue
      exact .result hi hv hc hne
  | ret =>
    obtain ⟨n, hs⟩ := hfinds
    rw [step_ret hi hs] at hstep
    cases hstep

end Steps

/-! ### Runs -/

/-- In so many steps, all from ready states, the run gets to another state or to its end. -/
inductive Goes (host : Host σ) (chunk : Chunk) : Nat → Machine σ → Machine σ ⊕ Outcome σ → Prop
  | here (m : Machine σ) : Goes host chunk 0 m (.inl m)
  | next {n : Nat} {m m₁ : Machine σ} {r : Machine σ ⊕ Outcome σ} (ready : m.Ready chunk)
      (step : m.step host chunk = .inl m₁) (rest : Goes host chunk n m₁ r) : Goes host chunk (n + 1) m r
  | last {m : Machine σ} {o : Outcome σ} (ready : m.Ready chunk) (step : m.step host chunk = .inr o) :
      Goes host chunk 1 m (.inr o)

/-- The states of a run from `m` on. -/
inductive Visits (host : Host σ) (chunk : Chunk) (m : Machine σ) : Machine σ → Prop
  | start : Visits host chunk m m
  | step {m₁ m₂ : Machine σ} (before : Visits host chunk m m₁) (step : m₁.step host chunk = .inl m₂) :
      Visits host chunk m m₂

namespace Goes

variable {host : Host σ} {chunk : Chunk} {m m₁ : Machine σ} {r : Machine σ ⊕ Outcome σ} {o : Outcome σ} {n k : Nat}

theorem one (ready : m.Ready chunk) (step : m.step host chunk = .inl m₁) : Goes host chunk 1 m (.inl m₁) :=
  .next ready step (.here m₁)

theorem trans (h₁ : Goes host chunk n m (.inl m₁)) (h₂ : Goes host chunk k m₁ r) : Goes host chunk (n + k) m r := by
  generalize hr : (Sum.inl m₁ : Machine σ ⊕ Outcome σ) = r₁ at h₁
  induction h₁ with
  | here m =>
    cases hr
    rw [Nat.zero_add]
    exact h₂
  | @next n m m' r' ready step _ ih =>
    rw [Nat.add_right_comm]
    exact .next ready step (ih hr)
  | last => cases hr

/-- A run that ends does so with any budget that is large enough. -/
theorem runFor_eq (h : Goes host chunk n m (.inr o)) {fuel : Nat} (hn : n ≤ fuel) :
    runFor host chunk fuel m = some o := by
  generalize hr : (Sum.inr o : Machine σ ⊕ Outcome σ) = r at h
  induction h generalizing fuel with
  | here => cases hr
  | @next n m m₁ r _ step _ ih =>
    obtain ⟨fuel, rfl⟩ := Nat.exists_eq_add_of_le' (show 1 ≤ fuel by omega)
    rw [runFor, step]
    exact ih (by omega) hr
  | last _ step =>
    obtain ⟨fuel, rfl⟩ := Nat.exists_eq_add_of_le' (show 1 ≤ fuel by omega)
    cases hr
    rw [runFor, step]

/-- All states of a run that goes to its end are ready, and the run goes on from them to that end. -/
theorem from_visited (h : Goes host chunk n m (.inr o)) (hv : Visits host chunk m m₁) :
    ∃ k, Goes host chunk k m₁ (.inr o) := by
  induction hv with
  | start => exact ⟨n, h⟩
  | step _ hstep ih =>
    obtain ⟨k, hk⟩ := ih
    cases hk with
    | next _ step rest =>
      rw [step] at hstep
      cases hstep
      exact ⟨_, rest⟩
    | last _ step =>
      rw [step] at hstep
      cases hstep

theorem ready (h : Goes host chunk n m (.inr o)) (hv : Visits host chunk m m₁) : m₁.Ready chunk := by
  obtain ⟨k, hk⟩ := h.from_visited hv
  cases hk with
  | next ready => exact ready
  | last ready => exact ready

end Goes

/-- A run with a budget ends in one of its states. -/
theorem visits_of_runFor {host : Host σ} {chunk : Chunk} {m : Machine σ} {o : Outcome σ} : ∀ {fuel : Nat} {m₁ : Machine σ},
    Visits host chunk m m₁ → runFor host chunk fuel m₁ = some o →
      ∃ m₂, Visits host chunk m m₂ ∧ m₂.step host chunk = .inr o
  | fuel + 1, m₁, hv, h => by
    unfold runFor at h
    split at h
    next m₂ hstep => exact visits_of_runFor (hv.step hstep) h
    next o' hstep =>
      cases h
      exact ⟨m₁, hv, hstep⟩

end Machine
end HostScript
