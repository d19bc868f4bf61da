/-! Decimal text of integers: the fewest digits, with a leading minus sign for negative numbers. -/

namespace HostScript
namespace Decimal

/-- The decimal digits of a natural number, most significant first. -/
def digits (n : Nat) : List Char := Nat.toDigits 10 n

/-- A natural number in decimal. -/
def ofNat (n : Nat) : String := String.ofList (digits n)

/-- An integer in decimal. -/
def ofInt : Int → String
  | .ofNat n => ofNat n
  | .negSucc n => "-" ++ ofNat (n + 1)

/-- At least `width` digits, filled up with zeros in front. -/
def padded (width n : Nat) : String :=
  let text := digits n
  String.ofList (List.replicate (width - text.length) '0' ++ text)

/-- The number that a run of decimal digits names; leading zeros are allowed. -/
def value (text : List Char) : Nat := Nat.ofDigitChars 10 text 0

end Decimal
end HostScript
