import HostScript.Host.Basic

/-! Native hosts: a table of integer globals and a table of functions. A handle is the index of an
entry. To register a name again makes a new entry, and the name then means that one; the old entry
stays. The functions act on a state `ω` of the host program. -/

namespace HostScript

/-- A function of the host program; it may give no value. -/
abbrev NativeFunction (ω : Type) := List Value → StateM ω (Option Value)

/-- The published names, the two tables that handles point into, and the state of the functions. -/
structure NativeHost (ω : Type) where
  scope : HostScope := {}
  globals : List Int64 := []
  functions : List (NativeFunction ω) := []
  world : ω

namespace NativeHost

variable {ω : Type}

/-- A host that publishes nothing. -/
def empty (world : ω) : NativeHost ω := { world := world }

/-- Publish a global: a new entry, whose index is the handle. -/
def registerGlobal (h : NativeHost ω) (name : String) (initial : Int64) :
    Except SemanticError (GlobalHandle × NativeHost ω) := do
  let handle : GlobalHandle := ⟨h.globals.length.toUInt32⟩
  let scope ← h.scope.registerGlobal name .integer handle
  return (handle, { h with scope := scope, globals := h.globals ++ [initial] })

/-- Publish a function in the same way. If its type is refused, there is no new entry. -/
def registerFunction (h : NativeHost ω) (name : String) (type : FunctionType) (body : NativeFunction ω) :
    Except SemanticError (FunctionHandle × NativeHost ω) := do
  let handle : FunctionHandle := ⟨h.functions.length.toUInt32⟩
  let scope ← h.scope.registerFunction name type handle
  return (handle, { h with scope := scope, functions := h.functions ++ [body] })

/-- The value of a global. -/
def value? (h : NativeHost ω) (handle : GlobalHandle) : Option Int64 := h.globals[handle.id.toNat]?

/-- The error for a handle without an entry in the table of globals. -/
def unknownGlobal (handle : GlobalHandle) : RuntimeError := .host ("unknown global " ++ handle.text)

/-- The error for a handle without an entry in the table of functions. -/
def unknownFunction (handle : FunctionHandle) : RuntimeError := .host ("unknown function " ++ handle.text)

/-- The value of a global, for a run. -/
def loadGlobal (handle : GlobalHandle) : EStateM RuntimeError (NativeHost ω) Int64 := fun h =>
  match h.value? handle with
  | some n => .ok n h
  | none => .error (unknownGlobal handle) h

/-- Assign to a global; the table does not grow. -/
def storeGlobal (handle : GlobalHandle) (n : Int64) : EStateM RuntimeError (NativeHost ω) Unit := fun h =>
  if handle.id.toNat < h.globals.length then .ok () { h with globals := h.globals.set handle.id.toNat n }
  else .error (unknownGlobal handle) h

/-- Call a function on the state of the host program. The arguments are not checked here. -/
def call (handle : FunctionHandle) (args : List Value) : EStateM RuntimeError (NativeHost ω) (Option Value) := fun h =>
  match h.functions[handle.id.toNat]? with
  | some body =>
    let (result, world) := body args h.world
    .ok result { h with world := world }
  | none => .error (unknownFunction handle) h

/-- Native hosts as hosts of a run. -/
def host : Host (NativeHost ω) where
  loadGlobal := loadGlobal
  storeGlobal := storeGlobal
  call := call

end NativeHost
end HostScript
