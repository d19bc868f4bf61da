import HostScript.Code.Chunk
import HostScript.Json.Printer
import HostScript.Json.Reader

/-! Artifacts as JSON text.

A record is an object with its fields in order; on reading, it may also be an array of its fields,
fields may come in any order, and fields with other names are passed over. A case without a value is
its name, or an object with its name and null; a case with a value is an object with that one field.
Numbers are whole and in the range of their place. -/

namespace HostScript
namespace Json

/-! ### Pieces -/

/-- A natural number in decimal. -/
def ofNat (n : Nat) : Json := number (Decimal.digits n)

/-- A signed number in decimal. -/
def ofInt64 (n : Int64) : Json := number (Decimal.ofInt n.toInt).toList

/-- A whole number below the limit, written without sign, fraction and exponent. -/
def nat? (limit : Nat) : Json → Option Nat
  | number spelling =>
    if spelling.all Char.isDigit && Decimal.value spelling < limit then some (Decimal.value spelling) else none
  | _ => none

/-- A whole number that fits in 64 bits; a minus sign before zero is refused. -/
def int64? : Json → Option Int64
  | number ('-' :: spelling) =>
    let n := Decimal.value spelling
    if spelling.all Char.isDigit && 0 < n && n ≤ integerLimit then some (Int64.ofInt (-n)) else none
  | value => (nat? integerLimit value).map Int64.ofNat

/-- A truth value; no other value stands for one. -/
def bool? : Json → Option Bool
  | bool value => some value
  | _ => none

/-- The text that a string stands for. -/
def string? : Json → Option String
  | string spelling => unescape? spelling
  | _ => none

/-- The items of an array. -/
def items? : Json → Option (List Json)
  | array items => some items
  | _ => none

/-- A record, its fields in the given order. -/
def record (fields : List (String × Json)) : Json :=
  object (fields.map fun (name, value) => (escape name.toList, value))

/-- The values of the named fields, in the order of the names. -/
def record? (names : List String) : Json → Option (List Json)
  | array items => if items.length = names.length then some items else none
  | object fields => do
    let fields ← fields.mapM fun (name, value) => (unescape? name).map (·, value)
    names.mapM fun name =>
      match fields.filter (·.1 == name) with
      | [(_, value)] => some value
      | _ => none
  | _ => none

/-- A case with its value. -/
def case (name : String) (value : Json) : Json := record [(name, value)]

/-- The name of a case and its value, if it has one. -/
def case? : Json → Option (String × Option Json)
  | string spelling => (unescape? spelling).map (·, none)
  | object [(name, value)] => (unescape? name).map (·, some value)
  | _ => none

/-- Whether what goes with a case says that it has no value. -/
def isBare : Option Json → Bool
  | none | some null => true
  | _ => false

end Json

/-! ### Types, values and instructions -/

namespace Ty

/-- The name of a type as a case, which is not its text in messages. -/
def caseName : Ty → String
  | integer => "Integer"
  | boolean => "Boolean"
  | void => "Void"

/-- A type is its name. -/
def toJson (ty : Ty) : Json := .ofString ty.caseName

/-- The type with the given name. -/
def ofJson? (json : Json) : Option Ty :=
  match json.case? with
  | some (name, value) => if Json.isBare value then [integer, boolean, void].find? (·.caseName == name) else none
  | none => none

end Ty

namespace Value

/-- A value is a case with its content. -/
def toJson : Value → Json
  | integer n => .case "Integer" (.ofInt64 n)
  | boolean b => .case "Boolean" (.bool b)

/-- The value of a case; the content must be of the type that the case names. -/
def ofJson? (json : Json) : Option Value :=
  match json.case? with
  | some ("Integer", some value) => value.int64?.map .integer
  | some ("Boolean", some value) => value.bool?.map .boolean
  | _ => none

end Value

namespace Instr

/-- A slot, a label or a count. -/
def size? : Json → Option Nat := Json.nat? sizeLimit

/-- The number of an entry in a table of the host. -/
def handle? (json : Json) : Option UInt32 := (json.nat? handleLimit).map Nat.toUInt32

/-- What goes with the mnemonic of an instruction. -/
def operandJson : Instr → Option Json
  | push value => some value.toJson
  | loadParam i | storeParam i | loadLocal i | storeLocal i => some (.ofNat i)
  | loadGlobal handle | storeGlobal handle => some (.ofNat handle.id.toNat)
  | jump label | jumpUnless label => some (.ofNat label)
  | call function argc returns =>
    some (.record [("function", .ofNat function.id.toNat), ("argc", .ofNat argc), ("returns", returns.toJson)])
  | pop | neg | not | strict _ | ret => none

/-- An instruction without an operand is its name. -/
def toJson (i : Instr) : Json :=
  match i.operandJson with
  | some operand => .case i.mnemonic operand
  | none => .ofString i.mnemonic

/-- The call that a record describes. -/
def callOfJson? (json : Json) : Option Instr :=
  match json.record? ["function", "argc", "returns"] with
  | some [function, argc, returns] => do
    return .call ⟨← handle? function⟩ (← size? argc) (← Ty.ofJson? returns)
  | _ => none

/-- The instructions that have no operand. -/
def bare : List Instr :=
  [pop, neg, not, strict .add, strict .sub, strict .mul, strict .div, strict .eq, strict .ne, strict .lt,
    strict .le, strict .gt, strict .ge, ret]

/-- The instruction with an operand that has the given mnemonic. -/
def withOperand? (mnemonic : String) (operand : Json) : Option Instr :=
  match mnemonic with
  | "Push" => (Value.ofJson? operand).map push
  | "LoadParam" => (size? operand).map loadParam
  | "StoreParam" => (size? operand).map storeParam
  | "LoadLocal" => (size? operand).map loadLocal
  | "StoreLocal" => (size? operand).map storeLocal
  | "LoadGlobal" => (handle? operand).map (loadGlobal ⟨·⟩)
  | "StoreGlobal" => (handle? operand).map (storeGlobal ⟨·⟩)
  | "Jmp" => (size? operand).map jump
  | "JmpIfFalse" => (size? operand).map jumpUnless
  | "Call" => callOfJson? operand
  | _ => none

/-- The instruction with this name and operand. One that takes no operand must not have any. -/
def ofJson? (json : Json) : Option Instr :=
  match json.case? with
  | some (mnemonic, value) =>
    match bare.find? (·.mnemonic == mnemonic) with
    | some i => if Json.isBare value then some i else none
    | none => value.bind (withOperand? mnemonic)
  | none => none

end Instr

/-! ### Chunks and artifacts -/

namespace Parameter

/-- A parameter is a record. -/
def toJson (p : Parameter) : Json := .record [("name", .ofString p.name), ("ty", p.ty.toJson)]

/-- The parameter of a record. -/
def ofJson? (json : Json) : Option Parameter :=
  match json.record? ["name", "ty"] with
  | some [name, ty] => do return ⟨← name.string?, ← Ty.ofJson? ty⟩
  | _ => none

end Parameter

namespace Chunk

/-- An unbound label has no target. -/
def targetJson : Option Nat → Json
  | some target => .ofNat target
  | none => .null

/-- The target of a label; null leaves it unbound. -/
def targetOfJson? : Json → Option (Option Nat)
  | .null => some none
  | json => (json.nat? sizeLimit).map some

/-- A chunk is a record of its code and its table of targets. -/
def toJson (chunk : Chunk) : Json :=
  .record [("code", .array (chunk.code.map Instr.toJson)), ("labels", .array (chunk.labels.map targetJson))]

/-- The chunk of a record, if all instructions and targets can be read. -/
def ofJson? (json : Json) : Option Chunk :=
  match json.record? ["code", "labels"] with
  | some [code, labels] => do
    return ⟨← (← code.items?).mapM Instr.ofJson?, ← (← labels.items?).mapM targetOfJson?⟩
  | _ => none

end Chunk

namespace Artifact

/-- An artifact is a record. -/
def toJson (a : Artifact) : Json :=
  .record [("params", .array (a.params.map Parameter.toJson)), ("locals", .ofNat a.locals), ("chunk", a.chunk.toJson)]

/-- The artifact of a record. Whether its code makes sense is not asked here. -/
def ofJson? (json : Json) : Option Artifact :=
  match json.record? ["params", "locals", "chunk"] with
  | some [params, locals, chunk] => do
    return ⟨← (← params.items?).mapM Parameter.ofJson?, ← locals.nat? sizeLimit, ← Chunk.ofJson? chunk⟩
  | _ => none

/-- The artifact as text. -/
def text (a : Artifact) : String := a.toJson.text

/-- The artifact that a text holds. -/
def ofText? (text : String) : Option Artifact := (Json.read? text).bind ofJson?

end Artifact
end HostScript
