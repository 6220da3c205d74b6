import CommandConsole.Number.Seconds

/-!
# Exit codes

A command ends with a 32-bit signed integer. Its text is a sign or none and then digits, as many
zeros in front as one likes; a number out of range is no exit code.
-/

namespace CommandConsole

/-- The value a command or a session ends with. -/
abbrev ExitCode := Int32

namespace ExitCode

/-- The value of a command that failed. -/
def failed : ExitCode :=
  1

/-- The value reported for interrupted work. -/
def interrupted : ExitCode :=
  130

/-- The exit code of a number in range. -/
def ofInt? (n : Int) : Option ExitCode :=
  if Int32.minValue.toInt ≤ n ∧ n ≤ Int32.maxValue.toInt then some (Int32.ofInt n) else none

/-- Reads an exit code. -/
def ofText? (text : String) : Option ExitCode :=
  let (negative, ds) := DecimalText.splitSign text.toList
  if ds.isEmpty ∨ ¬ds.all DecimalText.isDigit then none
  else
    let n := DecimalText.valueOf ds
    ofInt? (if negative then -(n : Int) else n)

/-- What a process that ends with an exit code reports of it: its last eight bits. -/
def status (code : ExitCode) : Nat :=
  (code.toInt % 256).toNat

/-- The text of an exit code. -/
def toText (code : ExitCode) : String :=
  toString code.toInt

end ExitCode

end CommandConsole
