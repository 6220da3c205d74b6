/-!
# Digits

The values of digits up to radix sixteen, and of numbers written with them.

Results: `value?_eq_some_iff` (a digit has a value in a radix if its value is below the radix).
-/

namespace CommandConsole.Digit

/-- The value of a hexadecimal digit. -/
def ofHex? (c : Char) : Option Nat :=
  if '0' ≤ c ∧ c ≤ '9' then some (c.toNat - '0'.toNat)
  else if 'a' ≤ c ∧ c ≤ 'f' then some (c.toNat - 'a'.toNat + 10)
  else if 'A' ≤ c ∧ c ≤ 'F' then some (c.toNat - 'A'.toNat + 10)
  else none

/-- The value of a digit in a radix up to sixteen. -/
def value? (radix : Nat) (c : Char) : Option Nat :=
  (ofHex? c).filter (· < radix)

/-- The number written with some digits, the most significant one first. -/
def number (radix : Nat) (digits : List Nat) : Nat :=
  digits.foldl (fun n d => n * radix + d) 0

theorem value?_eq_some_iff {radix d : Nat} {c : Char} :
    value? radix c = some d ↔ ofHex? c = some d ∧ d < radix := by
  simp [value?, Option.filter_eq_some_iff]

end CommandConsole.Digit
