import HostScript.Error

/-! Names and what they stand for.

The host publishes globals and functions under handles. The scope of a program holds the parameters
of the entry point, then the globals, then the locals; of several variables of one name the one
added last counts. Functions have names of their own. -/

namespace HostScript

/-- The number of an entry in the table of globals of the host. -/
structure GlobalHandle where
  id : UInt32
  deriving DecidableEq

/-- The number of an entry in the table of functions of the host. -/
structure FunctionHandle where
  id : UInt32
  deriving DecidableEq

/-- The bound of handles, which have 32 bits: so many entries of a table can be told apart by them. -/
def handleLimit : Nat := 4294967296

/-- The handle as a listing shows it. -/
def GlobalHandle.text (h : GlobalHandle) : String := "#" ++ Decimal.ofNat h.id.toNat

/-- The handle of a function, shown in the same way. -/
def FunctionHandle.text (h : FunctionHandle) : String := "#" ++ Decimal.ofNat h.id.toNat

/-- Where a variable lives. -/
inductive Binding where
  | parameter (index : Nat)
  | localSlot (slot : Nat)
  | global (handle : GlobalHandle)
  deriving DecidableEq

/-- A variable by its name, where it lives and what it holds. -/
structure Variable where
  name : String
  binding : Binding
  ty : Ty
  deriving DecidableEq

/-- A function that the host publishes. All its arguments have values. -/
structure HostFunction where
  handle : FunctionHandle
  type : FunctionType
  valued : ∀ ty ∈ type.params, ty.isValue
  deriving DecidableEq

/-- A parameter of the entry point. -/
structure Parameter where
  name : String
  ty : Ty
  deriving DecidableEq

/-- The type of the entry point of a program. -/
structure Signature where
  params : List Parameter
  result : Ty
  deriving DecidableEq

namespace Signature

/-- The first parameter from `index` on that is not an integer, as an error. -/
def checkParams : Nat → List Parameter → Except CompileError Unit
  | _, [] => .ok ()
  | index, param :: params =>
    if param.ty = .integer then checkParams (index + 1) params
    else .error (.typeMismatch .entryPoint ("parameter '" ++ param.name ++ "'") (some index) .integer param.ty)

/-- A program takes integers and returns an integer. -/
def validate (s : Signature) : Except CompileError Unit :=
  if s.result = .integer then checkParams 0 s.params
  else .error (.typeMismatch .entryPoint "return type" none .integer s.result)

end Signature

/-- What the host publishes, the latest registration first. -/
structure HostScope where
  globals : List (String × GlobalHandle) := []
  functions : List (String × HostFunction) := []
  deriving DecidableEq

namespace HostScope

/-- Every global is an integer. -/
def registerGlobal (host : HostScope) (name : String) (ty : Ty) (handle : GlobalHandle) :
    Except SemanticError HostScope :=
  if ty = .integer then .ok { host with globals := (name, handle) :: host.globals }
  else .error (.typeMismatch ("global '" ++ name ++ "'") none .integer ty)

/-- The first parameter from `index` on that has no values, as an error. -/
def checkParams (name : String) : Nat → List Ty → Except SemanticError Unit
  | _, [] => .ok ()
  | index, ty :: types =>
    if ty.isValue then checkParams name (index + 1) types
    else .error (.typeMismatch ("function '" ++ name ++ "'") (some index) .integer ty)

theorem isValue_of_checkParams {name : String} {ty : Ty} :
    ∀ {index : Nat} {types : List Ty}, checkParams name index types = .ok () → ty ∈ types → ty.isValue
  | index, first :: types, h, hmem => by
    unfold checkParams at h
    split at h
    · rcases List.mem_cons.mp hmem with rfl | hmem
      · assumption
      · exact isValue_of_checkParams h hmem
    · cases h

/-- Functions take values, so the parameter types are checked; the result may be `void`. -/
def registerFunction (host : HostScope) (name : String) (type : FunctionType) (handle : FunctionHandle) :
    Except SemanticError HostScope :=
  match h : checkParams name 0 type.params with
  | .ok () =>
    .ok { host with functions := (name, ⟨handle, type, fun _ => isValue_of_checkParams h⟩) :: host.functions }
  | .error e => .error e

/-- The global that a name means now. -/
def globalNamed? (host : HostScope) (name : String) : Option GlobalHandle := host.globals.lookup name

/-- The function that a name means now. -/
def functionNamed? (host : HostScope) (name : String) : Option HostFunction := host.functions.lookup name

end HostScope

/-- The names a program may use; of the variables the latest comes first. -/
structure Scope where
  vars : List Variable := []
  functions : List (String × HostFunction) := []
  localCount : Nat := 0
  deriving DecidableEq

namespace Scope

/-- Add the parameters, of which the first has the given index. -/
def addParams (scope : Scope) : Nat → List Parameter → Scope
  | _, [] => scope
  | index, param :: params =>
    addParams { scope with vars := ⟨param.name, .parameter index, param.ty⟩ :: scope.vars }
      (index + 1) params

/-- The scope of a program before its own declarations. -/
def bind (signature : Signature) (host : HostScope) : Scope :=
  let scope := addParams {} 0 signature.params
  { scope with
    vars := host.globals.map (fun (name, handle) => ⟨name, .global handle, .integer⟩) ++ scope.vars
    functions := host.functions }

/-- Declare one local in the next free slot. -/
def declare (scope : Scope) (name : String) : Scope :=
  { scope with
    vars := ⟨name, .localSlot scope.localCount, .integer⟩ :: scope.vars
    localCount := scope.localCount + 1 }

/-- Declare locals in the order of their names. -/
def declareAll (scope : Scope) (names : List String) : Scope := names.foldl declare scope

/-- The variable that a name means: a local before a global before a parameter. -/
def variableNamed? (scope : Scope) (name : String) : Option Variable := scope.vars.find? (·.name == name)

/-- The function that a name means. -/
def functionNamed? (scope : Scope) (name : String) : Option HostFunction := scope.functions.lookup name

end Scope
end HostScript
