import HostScript.Code.Instr

/-! Chunks of code: instructions and the table of label targets. A label is unbound until it is
marked. The listing puts every label on a line of its own before the instruction it is bound to. -/

namespace HostScript

/-- Code and, for every label, the address it is bound to, if it is bound yet. -/
structure Chunk where
  code : List Instr := []
  labels : List (Option Nat) := []
  deriving DecidableEq

namespace Chunk

/-- Put an instruction at the end of the code. -/
def write (chunk : Chunk) (i : Instr) : Chunk := { chunk with code := chunk.code ++ [i] }

/-- A new unbound label. -/
def newLabel (chunk : Chunk) : Label × Chunk :=
  (chunk.labels.length, { chunk with labels := chunk.labels ++ [none] })

/-- Bind a label to the end of the code; a label that the table does not have is left alone. -/
def mark (chunk : Chunk) (label : Label) : Chunk :=
  { chunk with labels := chunk.labels.set label (some chunk.code.length) }

/-- The address of a label; none if it is unbound or not in the table. -/
def target? (chunk : Chunk) (label : Label) : Option Nat := chunk.labels[label]?.join

/-- The lines for the labels bound to an address, of which the first has the given number. -/
def labelLines (address : Nat) : Label → List (Option Nat) → List String
  | _, [] => []
  | label, target :: labels =>
    let rest := labelLines address (label + 1) labels
    if target = some address then ("L" ++ Decimal.ofNat label ++ ":") :: rest else rest

/-- The lines for the code from an address on. -/
def codeLines (labels : List (Option Nat)) : Nat → List Instr → List String
  | address, [] => labelLines address 0 labels
  | address, i :: code =>
    labelLines address 0 labels ++
      (Decimal.padded 4 address ++ "  " ++ i.text) :: codeLines labels (address + 1) code

/-- The listing, without a line break at its end. -/
def listing (chunk : Chunk) : String := "\n".intercalate (codeLines chunk.labels 0 chunk.code)

end Chunk

/-- A compiled program: what it takes, how many locals it needs, and its code. -/
structure Artifact where
  params : List Parameter
  locals : Nat
  chunk : Chunk
  deriving DecidableEq

end HostScript
