import CommandConsole.Number.Digit
import CommandConsole.Number.Seconds
import CommandConsole.Text.Parser
import CommandConsole.Toml.Value

/-!
# Numbers, moments and truth values in TOML

Whole numbers have a sign or a radix, at most 64 bits, and single underscores between digits. A
number with a fraction or a power of ten must not be too large for a 64-bit binary one. Moments are
dates of the calendar, times of day, and both with an offset or without.
-/

namespace CommandConsole.Toml

open CommandConsole.Text CommandConsole.Text.Parser

/-- A digit. -/
def digit : Parser Char :=
  charWhere DecimalText.isDigit

/-- Digits, single underscores between them left out. -/
def grouped {α : Type} (one : Parser α) : Parser (List α) := do
  let first ← one
  return first :: (← many (one <|> do exactly "_"; one))

/-- Decimal digits without a zero in front. -/
def wholeDigits : Parser (List Char) := do
  let ds ← grouped digit
  accept (if ds.length = 1 ∨ ds.head? ≠ some '0' then some ds else none)

/-- A sign, or none. -/
def sign : Parser (List Char) := do
  let s ← optional (charWhere fun c => c = '+' || c = '-')
  return s.toList

namespace Scalar

/-- A whole number in range. -/
def inRange? (n : Int) : Option Int :=
  if Int64.minValue.toInt ≤ n ∧ n ≤ Int64.maxValue.toInt then some n else none

/-- A whole number written in another radix. -/
def inRadix (mark : String) (radix : Nat) : Parser Int := do
  exactly mark
  let ds ← grouped (charOf (Digit.value? radix))
  accept (inRange? (Digit.number radix ds))

/-- A decimal whole number. -/
def decimal : Parser Int := do
  let s ← sign
  let n : Int := DecimalText.valueOf (← wholeDigits)
  accept (inRange? (if s = ['-'] then -n else n))

/-- A whole number. -/
def integer : Parser Int :=
  inRadix "0x" 16 <|> inRadix "0o" 8 <|> inRadix "0b" 2 <|> decimal

/-- A power of ten. -/
def power : Parser (List Char) := do
  let _ ← charWhere fun c => c = 'e' || c = 'E'
  return 'e' :: (← sign) ++ (← grouped digit)

/-- A fraction. -/
def fraction : Parser (List Char) := do
  exactly "."
  return '.' :: (← grouped digit)

/-- Whether a decimal number is not too large for a binary one. -/
def isFinite (d : DecimalText) : Bool :=
  match d.nearest? with
  | some b => Binary64.scaled b.mantissa 1 b.exponent < Nat.pow 2 1024
  | none => false

/-- A number that is written with a fraction or a power of ten. One below all finite numbers is
taken, one above them is not. -/
def written : Parser String := do
  let s ← sign
  let whole ← wholeDigits
  let tail ← power <|> do
    let part ← fraction
    return part ++ (← optional power).getD []
  let cs := whole ++ tail
  let fits := s = ['-'] ∨ (DecimalText.ofChars? cs).any isFinite
  accept (if fits then some (String.ofList (s ++ cs)) else none)

/-- A word for an infinity or for no number. -/
def special : Parser String :=
  String.ofList <$> taken do
    let _ ← sign
    exactly "inf" <|> exactly "nan"

/-- A number with a fraction. -/
def float : Parser String :=
  written <|> special

/-- A truth value. -/
def boolean : Parser Bool :=
  (fun _ => true) <$> exactly "true" <|> (fun _ => false) <$> exactly "false"

/-- A number of some digits within a range. -/
def counted (count low high : Nat) : Parser Nat := do
  let n := DecimalText.valueOf (← times digit count)
  accept (if low ≤ n ∧ n ≤ high then some n else none)

/-- The days of a month. -/
def daysIn (year month : Nat) : Nat :=
  if month = 2 then
    if year % 4 = 0 ∧ (year % 100 ≠ 0 ∨ year % 400 = 0) then 29 else 28
  else if month = 4 ∨ month = 6 ∨ month = 9 ∨ month = 11 then 30
  else 31

/-- A date. -/
def date : Parser Unit := do
  let year ← counted 4 0 9999
  exactly "-"
  let month ← counted 2 1 12
  exactly "-"
  let _ ← counted 2 1 (daysIn year month)

/-- A time of day. -/
def time : Parser Unit := do
  let _ ← counted 2 0 23
  exactly ":"
  let _ ← counted 2 0 59
  exactly ":"
  let _ ← counted 2 0 60
  let _ ← optional do
    exactly "."
    let _ ← many1 digit

/-- An offset from universal time. -/
def offset : Parser Unit :=
  exactly "Z" <|> exactly "z" <|> do
    let _ ← charWhere fun c => c = '+' || c = '-'
    let _ ← counted 2 0 23
    exactly ":"
    let _ ← counted 2 0 59

/-- The time of day after a date. -/
def timeAfterDate : Parser Unit := do
  let _ ← charWhere fun c => c = 'T' || c = 't' || c = ' '
  time
  let _ ← optional offset

/-- A moment. -/
def moment : Parser String :=
  String.ofList <$> taken ((do date; let _ ← optional timeAfterDate) <|> time)

/-- A value that holds no other values, text apart. -/
def value : Parser Value :=
  Value.moment <$> moment <|> Value.float <$> float <|> Value.integer <$> integer <|>
    Value.boolean <$> boolean

end Scalar

end CommandConsole.Toml
