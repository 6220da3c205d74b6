import CommandConsole.Number.Binary64

/-!
# Seconds

A length of time is written as a decimal number of seconds: a sign, digits with a point among them
or without, and a power of ten. It is read as the nearest 64-bit binary number and then rounded to
whole nanoseconds. A negative length is refused unless it reads as zero without its sign, and so
are lengths of 2^64 seconds or more, and the words for infinity and for what is no number.
-/

namespace CommandConsole

/-- A decimal number without its sign: `digits * 10 ^ exponent`, and how many digits there are. -/
structure DecimalText where
  digits : Nat
  exponent : Int
  deriving DecidableEq, Repr

namespace DecimalText

/-- Whether a character is one of the ten digits. -/
def isDigit (c : Char) : Bool :=
  '0' ≤ c && c ≤ '9'

/-- The number that some digits stand for. -/
def valueOf (cs : List Char) : Nat :=
  cs.foldl (fun n c => n * 10 + (c.toNat - '0'.toNat)) 0

/-- A sign in front of a text, and the text without it. -/
def splitSign : List Char → Bool × List Char
  | '-' :: rest => (true, rest)
  | '+' :: rest => (false, rest)
  | rest => (false, rest)

/-- The power of ten at the end of a number. -/
def exponent? : List Char → Option Int
  | [] => some 0
  | e :: rest =>
    if e = 'e' ∨ e = 'E' then
      let (negative, ds) := splitSign rest
      if ds.isEmpty ∨ ¬ds.all isDigit then none
      else some (if negative then -(valueOf ds : Int) else valueOf ds)
    else none

/-- Reads a number without a sign: digits with at most one point, at least one digit, and maybe a
power of ten. -/
def ofChars? (cs : List Char) : Option DecimalText :=
  let whole := cs.takeWhile isDigit
  let afterWhole := cs.dropWhile isDigit
  let (part, tail) :=
    match afterWhole with
    | '.' :: rest => (rest.takeWhile isDigit, rest.dropWhile isDigit)
    | rest => ([], rest)
  if whole.isEmpty ∧ part.isEmpty then none
  else (exponent? tail).map fun e => ⟨valueOf (whole ++ part), e - part.length⟩

/-- How far from 1 a number may be before it is surely too large or surely reads as zero, in powers
of ten. -/
def farthest : Nat :=
  400

/-- The nearest binary number; none if it is too large for one by far. -/
def nearest? (d : DecimalText) : Option Binary64 :=
  if d.digits = 0 then some ⟨0, 0⟩
  else
    let size : Int := (Nat.log2 d.digits : Int) * 3 / 10 + d.exponent
    if size > farthest then none
    else if size < -((farthest : Int) + Nat.log2 d.digits) then some ⟨0, 0⟩
    else if d.exponent < 0 then some (Binary64.nearest d.digits (Nat.pow 10 d.exponent.natAbs))
    else some (Binary64.nearest (d.digits * Nat.pow 10 d.exponent.natAbs) 1)

end DecimalText

namespace Seconds

/-- Nanoseconds in a second. -/
def nanosPerSecond : Nat :=
  1000000000

/-- Nanoseconds in a millisecond. -/
def nanosPerMilli : Nat :=
  1000000

/-- Reads a length of time, in nanoseconds. -/
def nanos? (text : String) : Option Nat :=
  let (negative, cs) := DecimalText.splitSign text.toList
  match (DecimalText.ofChars? cs).bind DecimalText.nearest? with
  | none => none
  | some b =>
    if negative ∧ b.mantissa ≠ 0 then none
    else if Binary64.scaled b.mantissa 1 b.exponent ≥ Nat.pow 2 64 then none
    else some (b.timesRounded nanosPerSecond)

/-- The first whole millisecond not before a length of time. -/
def millisOfNanos (nanos : Nat) : Nat :=
  (nanos + (nanosPerMilli - 1)) / nanosPerMilli

end Seconds

end CommandConsole
