import HostScript.Host.Native

/-! Ready-made host functions that keep a journal of their calls. -/

namespace HostScript

/-- What a ready-made function makes of its arguments; `silent` gives no value. -/
inductive Stock where
  | silent
  | constant (value : Value)
  | sum
  | max
  | argument (index : Nat)
  | negation
  | positive
  | count
  deriving DecidableEq

/-- The calls so far, the latest first, and how often each function was called, by its number. -/
structure Journal where
  calls : List (String × List Value) := []
  counts : List (Nat × Nat) := []

namespace Stock

/-- The largest of the integers, if there is one. -/
def largest : List Int64 → Option Int64
  | [] => none
  | n :: ns => some (ns.foldl (fun a b => if a < b then b else a) n)

/-- The result of a call; `called` is the number of calls of this function, this one included. -/
def result (body : Stock) (called : Nat) (args : List Value) : Option Value :=
  let integers := args.filterMap Value.integer?
  match body with
  | silent => none
  | constant value => some value
  | sum => some (.integer (integers.foldl (· + ·) 0))
  | max => (largest integers).map .integer
  | argument index => args[index]?
  | negation => (args.head?.bind Value.boolean?).map fun b => .boolean (!b)
  | positive => (args.head?.bind Value.integer?).map fun n => .boolean (0 < n)
  | count => some (.integer (Int64.ofNat called))

/-- The function with this number and name as one of the host. -/
def native (body : Stock) (number : Nat) (name : String) : NativeFunction Journal := fun args => do
  let journal ← get
  let called := (journal.counts.lookup number).getD 0 + 1
  set { journal with
    calls := (name, args) :: journal.calls
    counts := (number, called) :: journal.counts.filter (·.1 ≠ number) : Journal }
  return body.result called args

end Stock
end HostScript
