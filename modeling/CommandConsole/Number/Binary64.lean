/-!
# Binary numbers of 64 bits

The numbers that a 64-bit binary float can hold, written exactly: a mantissa below 2^53 times a
power of two. `Binary64.nearest` takes a fraction to the nearest of them, a tie to the even
mantissa, as reading a decimal text does.

Results: `div_le_roundDiv`, `roundDiv_le` (a rounded quotient is the quotient or the next number).
-/

namespace CommandConsole

/-- A quotient rounded to the nearest whole number, a half to the even one. -/
def roundDiv (num den : Nat) : Nat :=
  let q := num / den
  let r := num % den
  if 2 * r < den then q
  else if 2 * r = den ∧ q % 2 = 0 then q
  else q + 1

theorem div_le_roundDiv (num den : Nat) : num / den ≤ roundDiv num den := by
  unfold roundDiv
  dsimp only
  split
  · omega
  · split <;> omega

theorem roundDiv_le (num den : Nat) : roundDiv num den ≤ num / den + 1 := by
  unfold roundDiv
  dsimp only
  split
  · omega
  · split <;> omega

/-- A number `mantissa * 2 ^ exponent`. -/
structure Binary64 where
  mantissa : Nat
  exponent : Int
  deriving DecidableEq, Repr

namespace Binary64

/-- The exponent of the last place of the smallest numbers. -/
def lowestExponent : Int :=
  -1074

/-- `num * 2 ^ shift / den` rounded. -/
def scaled (num den : Nat) (shift : Int) : Nat :=
  if shift < 0 then roundDiv num (den * Nat.pow 2 shift.natAbs)
  else roundDiv (num * Nat.pow 2 shift.natAbs) den

/-- The exponent of the last place kept of a fraction: 53 places, fewer near zero. -/
def placeOf (num den : Nat) : Int :=
  let l : Int := (Nat.log2 num : Int) - (Nat.log2 den : Int)
  let atLeast :=
    if l < 0 then decide (den ≤ num * Nat.pow 2 l.natAbs)
    else decide (den * Nat.pow 2 l.natAbs ≤ num)
  max lowestExponent ((if atLeast then l else l - 1) - 52)

/-- The nearest number to a fraction, whatever its size. -/
def nearest (num den : Nat) : Binary64 :=
  let place := placeOf num den
  ⟨scaled num den (-place), place⟩

/-- The number times a whole factor, rounded to a whole number. -/
def timesRounded (b : Binary64) (factor : Nat) : Nat :=
  scaled (b.mantissa * factor) 1 b.exponent

end Binary64

end CommandConsole
