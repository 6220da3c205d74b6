/-!
# UTF-16 units

A 16-bit unit stands for a character by itself, or it is a surrogate: a high one (D800 to DBFF) and
a low one (DC00 to DFFF) directly after it stand for one character above FFFF, and a surrogate
without its partner stands for nothing.

Results: `isHigh_iff`, `isLow_iff` (the two kinds of surrogates), `not_surrogate_iff` (the units that
stand for a character by themselves).
-/

namespace CommandConsole.Text.Utf16

/-- The first unit of a pair. -/
def isHigh (unit : Nat) : Bool :=
  0xD800 ≤ unit && unit < 0xDC00

/-- The second unit of a pair. -/
def isLow (unit : Nat) : Bool :=
  0xDC00 ≤ unit && unit < 0xE000

theorem isHigh_iff {unit : Nat} : isHigh unit = true ↔ 0xD800 ≤ unit ∧ unit < 0xDC00 := by
  simp [isHigh]

theorem isLow_iff {unit : Nat} : isLow unit = true ↔ 0xDC00 ≤ unit ∧ unit < 0xE000 := by
  simp [isLow]

theorem not_surrogate_iff {unit : Nat} :
    isHigh unit = false ∧ isLow unit = false ↔ unit < 0xD800 ∨ 0xE000 ≤ unit := by
  rw [← Bool.not_eq_true, ← Bool.not_eq_true, isHigh_iff, isLow_iff]
  omega

/-- The character that a high and a low unit stand for together. -/
def pair (high low : Nat) : Char :=
  Char.ofNat (0x10000 + (high - 0xD800) * 0x400 + (low - 0xDC00))

end CommandConsole.Text.Utf16
