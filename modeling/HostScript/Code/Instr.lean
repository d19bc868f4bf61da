import HostScript.Operator
import HostScript.Scope

/-! Instructions of the stack machine. Jumps name labels, which a table maps to addresses. -/

namespace HostScript

/-- The index of an entry in the table of targets. -/
abbrev Label := Nat

/-- An instruction with its operands. Operands of an operator are on the stack, the right one on top. -/
inductive Instr where
  | push (value : Value)
  | pop
  | loadParam (index : Nat)
  | storeParam (index : Nat)
  | loadLocal (slot : Nat)
  | storeLocal (slot : Nat)
  | loadGlobal (handle : GlobalHandle)
  | storeGlobal (handle : GlobalHandle)
  | neg
  | not
  | strict (op : StrictOp)
  | jump (label : Label)
  | jumpUnless (label : Label)
  | call (function : FunctionHandle) (argc : Nat) (returns : Ty)
  | ret
  deriving DecidableEq

/-- The name of an operator in code. -/
def StrictOp.mnemonic : StrictOp → String
  | mul => "Mul"
  | div => "Div"
  | add => "Add"
  | sub => "Sub"
  | lt => "Lt"
  | le => "Le"
  | gt => "Gt"
  | ge => "Ge"
  | eq => "Eq"
  | ne => "Neq"

namespace Instr

/-- The name of the instruction, in listings and in artifacts. -/
def mnemonic : Instr → String
  | push _ => "Push"
  | pop => "Pop"
  | loadParam _ => "LoadParam"
  | storeParam _ => "StoreParam"
  | loadLocal _ => "LoadLocal"
  | storeLocal _ => "StoreLocal"
  | loadGlobal _ => "LoadGlobal"
  | storeGlobal _ => "StoreGlobal"
  | neg => "Neg"
  | not => "Not"
  | strict op => op.mnemonic
  | jump _ => "Jmp"
  | jumpUnless _ => "JmpIfFalse"
  | call .. => "Call"
  | ret => "Ret"

/-- The operand as it stands in a listing. -/
def operandText : Instr → Option String
  | push value => some value.text
  | loadParam i | storeParam i | loadLocal i | storeLocal i => some (Decimal.ofNat i)
  | loadGlobal handle | storeGlobal handle => some handle.text
  | jump label | jumpUnless label => some ("L" ++ Decimal.ofNat label)
  | call function argc returns => some (function.text ++ "/" ++ Decimal.ofNat argc ++ " -> " ++ returns.text)
  | pop | neg | not | strict _ | ret => none

/-- The instruction as a listing shows it. -/
def text (i : Instr) : String :=
  match i.operandText with
  | some operand => i.mnemonic ++ " " ++ operand
  | none => i.mnemonic

end Instr
end HostScript
