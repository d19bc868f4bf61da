import HostScript.Code.Chunk
import HostScript.Host.Basic

/-! The stack machine. One step executes the instruction at the instruction pointer; the run ends with
a return, with an error, or when there is no instruction. Code may jump backwards, so a run gets a
budget of steps. -/

namespace HostScript

/-- The state of a run; the top of the stack comes first. -/
structure Machine (σ : Type) where
  ip : Nat
  stack : List Value
  params : Array Value
  locals : Array Value
  host : σ

/-- How a run ends, with the last state of the host. -/
abbrev Outcome (σ : Type) := EStateM.Result RuntimeError σ Int64

namespace Machine

variable {σ : Type}

/-- Actions of one instruction. -/
abbrev Action (σ : Type) := EStateM RuntimeError (Machine σ)

/-- Put a value on the stack. -/
def push (value : Value) : Action σ Unit := modify fun m => { m with stack := value :: m.stack }

/-- Take the top of the stack; `address` is that of the instruction. -/
def pop (address : Nat) : Action σ Value := fun m =>
  match m.stack with
  | [] => .error (.stackUnderflow address) m
  | value :: stack => .ok value { m with stack := stack }

/-- Take an integer; a value of another type is lost. -/
def popInteger (address : Nat) : Action σ Int64 := do
  match ← pop address with
  | .integer n => return n
  | value => throw (.typeConfusion address .integer (some value))

/-- Take a boolean; a value of another type is lost. -/
def popBoolean (address : Nat) : Action σ Bool := do
  match ← pop address with
  | .boolean b => return b
  | value => throw (.typeConfusion address .boolean (some value))

/-- Take `argc` values off the stack; the one pushed first comes first. -/
def popArgs (address argc : Nat) : Action σ (List Value) := fun m =>
  if m.stack.length < argc then .error (.stackUnderflow address) m
  else .ok (m.stack.take argc).reverse { m with stack := m.stack.drop argc }

/-- Let the host act on its own state. -/
def onHost {α : Type} (act : EStateM RuntimeError σ α) : Action σ α := fun m =>
  match act m.host with
  | .ok a host => .ok a { m with host := host }
  | .error e host => .error e { m with host := host }

/-- The error for a parameter that the run was not given. -/
def missingParam (index : Nat) : RuntimeError := .host ("no parameter slot " ++ Decimal.ofNat index)

/-- The error for a local that the artifact does not reserve. -/
def missingLocal (slot : Nat) : RuntimeError := .host ("no local slot " ++ Decimal.ofNat slot)

/-- The value of a parameter. -/
def loadParam (index : Nat) : Action σ Value := fun m =>
  match m.params[index]? with
  | some value => .ok value m
  | none => .error (missingParam index) m

/-- The value of a local. -/
def loadLocal (slot : Nat) : Action σ Value := fun m =>
  match m.locals[slot]? with
  | some value => .ok value m
  | none => .error (missingLocal slot) m

/-- Assign to a parameter, in this run only. -/
def storeParam (index : Nat) (value : Value) : Action σ Unit := fun m =>
  if index < m.params.size then .ok () { m with params := m.params.setIfInBounds index value }
  else .error (missingParam index) m

/-- Assign to a local. -/
def storeLocal (slot : Nat) (value : Value) : Action σ Unit := fun m =>
  if slot < m.locals.size then .ok () { m with locals := m.locals.setIfInBounds slot value }
  else .error (missingLocal slot) m

/-- Go to the target of a label. -/
def jump (chunk : Chunk) (label : Label) : Action σ Unit :=
  match chunk.target? label with
  | some address => modify fun m => { m with ip := address }
  | none => throw (.unboundLabel label)

/-- Push what a host function gave; a `void` function gives nothing, whatever it returns. -/
def pushResult (address : Nat) : Ty → Option Value → Action σ Unit
  | .void, _ => return
  | expected, some value =>
    if value.ty = expected then push value else throw (.typeConfusion address expected (some value))
  | expected, none => throw (.typeConfusion address expected none)

/-- Execute an instruction whose address is given, the pointer being behind it already. A return
    gives its value. -/
def execute (host : Host σ) (chunk : Chunk) (address : Nat) : Instr → Action σ (Option Int64)
  | .push value => do push value; return none
  | .pop => do let _ ← pop address; return none
  | .loadParam index => do push (← loadParam index); return none
  | .storeParam index => do storeParam index (← pop address); return none
  | .loadLocal slot => do push (← loadLocal slot); return none
  | .storeLocal slot => do storeLocal slot (← pop address); return none
  | .loadGlobal handle => do push (.integer (← onHost (host.loadGlobal handle))); return none
  | .storeGlobal handle => do
    let n ← popInteger address
    onHost (host.storeGlobal handle n)
    return none
  | .neg => do push (.integer (-(← popInteger address))); return none
  | .not => do push (.boolean !(← popBoolean address)); return none
  | .strict op => do
    let b ← popInteger address
    let a ← popInteger address
    match op.result? a b with
    | some value => do push value; return none
    | none => throw (.divisionByZero address)
  | .jump label => do jump chunk label; return none
  | .jumpUnless label => do
    let b ← popBoolean address
    if b then return none
    else
      jump chunk label
      return none
  | .call function argc returns => do
    let args ← popArgs address argc
    let result ← onHost (host.call function args)
    pushResult address returns result
    return none
  | .ret => do return some (← popInteger address)

/-- One step: the next state, or how the run ends. -/
def step (host : Host σ) (chunk : Chunk) (m : Machine σ) : Machine σ ⊕ Outcome σ :=
  match chunk.code[m.ip]? with
  | none => .inr (.error .missingReturn m.host)
  | some i =>
    match execute host chunk m.ip i { m with ip := m.ip + 1 } with
    | .ok none m => .inl m
    | .ok (some n) m => .inr (.ok n m.host)
    | .error e m => .inr (.error e m.host)

/-- Run for at most so many steps; none if the run has not ended by then. -/
def runFor (host : Host σ) (chunk : Chunk) : Nat → Machine σ → Option (Outcome σ)
  | 0, _ => none
  | fuel + 1, m =>
    match m.step host chunk with
    | .inl m => runFor host chunk fuel m
    | .inr outcome => some outcome

/-- The state in which a run begins: locals are zero. -/
def initial (artifact : Artifact) (args : List Int64) (world : σ) : Machine σ where
  ip := 0
  stack := []
  params := (args.map .integer).toArray
  locals := Array.replicate artifact.locals (.integer 0)
  host := world

end Machine

/-- Run an artifact on a host for at most `fuel` steps. -/
def Artifact.run {σ : Type} (artifact : Artifact) (host : Host σ) (fuel : Nat) (args : List Int64) (world : σ) :
    Option (Outcome σ) :=
  if args.length = artifact.params.length then
    Machine.runFor host artifact.chunk fuel (.initial artifact args world)
  else some (.error (.argumentCount artifact.params.length args.length) world)

end HostScript
