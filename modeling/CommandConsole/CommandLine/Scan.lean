import CommandConsole.CommandLine.Basic
import CommandConsole.Number.Digit
import CommandConsole.Text.Blank
import CommandConsole.Text.Utf16

/-!
# Scanning a command line

The default grammar. Outside quotes, blanks separate words, a backslash makes the next character
part of the word whatever it is, and a backslash before a newline separates like a blank. A double
quote opens or joins a word and starts a quoted region, which may hold newlines and in which a
backslash starts an escape: a named one (`\b \t \n \f \r \' \" \\`), an octal one of up to three
digits below 400, or a Unicode one, `\u` with any number of `u` and four hexadecimal digits, that
spells one UTF-16 unit; two of them spell a surrogate pair.

A `Scan` reads one character at a time, so what it knows after a text is all that the rest can
depend on. A text that ends in a region, an escape, or after a backslash needs more.

Results: `scanFrom_append` (scanning a text in two parts).
-/

namespace CommandConsole.CommandLine

open CommandConsole.Text

/-- Why an escape inside quotes is refused. -/
inductive EscapeFault where
  | invalidBackslash
  | truncatedOctal
  | truncatedUnicode
  | invalidUnicode
  | unpairedSurrogate
  deriving DecidableEq, Repr

/-- The wording of a refused escape. -/
def EscapeFault.message : EscapeFault → String
  | invalidBackslash => "invalid backslash escape"
  | truncatedOctal => "truncated octal escape"
  | truncatedUnicode => "truncated Unicode escape"
  | invalidUnicode => "invalid Unicode escape"
  | unpairedSurrogate => "unpaired surrogate in Unicode escape"

/-- The report of a refused escape whose backslash is at `start`. -/
def EscapeFault.at (fault : EscapeFault) (start : Nat) : Malformed :=
  ⟨start, fault.message⟩

/-- A high surrogate that waits for its partner, and where its escape started. -/
structure Lead where
  start : Nat
  unit : Nat
  deriving DecidableEq, Repr

/-- Where a scan stands. A position `start` is that of the backslash of the escape. -/
inductive Mode where
  /-- Outside quotes. -/
  | bare
  /-- Outside quotes, after a backslash. -/
  | bareEscape
  /-- Inside quotes. -/
  | quoted
  /-- Inside quotes, after a backslash. -/
  | quotedEscape (start : Nat)
  /-- In an octal escape: its value so far and how many more digits it may take. -/
  | octal (start value room : Nat)
  /-- After the `u` of a Unicode escape: the value and number of the digits so far. -/
  | unicode (start : Nat) (lead : Option Lead) (value digits : Nat)
  /-- After a high surrogate, where a backslash must come. -/
  | pairing (lead : Lead)
  /-- After a high surrogate and a backslash, where a `u` must come. -/
  | pairingEscape (lead : Lead) (start : Nat)
  deriving DecidableEq, Repr

/-- A scan: the finished words and the characters of the open one, last first, where it stands,
and how many characters it has read. -/
structure Scan where
  words : List String := []
  word : Option (List Char) := none
  mode : Mode := .bare
  offset : Nat := 0
  deriving DecidableEq, Repr

namespace Scan

/-- Adds a character to the open word, or opens one with it. -/
def push (s : Scan) (c : Char) : Scan :=
  { s with word := some (c :: s.word.getD []) }

/-- Opens a word unless one is open. -/
def openWord (s : Scan) : Scan :=
  { s with word := some (s.word.getD []) }

/-- Ends the open word, if there is one. -/
def closeWord (s : Scan) : Scan :=
  match s.word with
  | none => s
  | some cs => { s with words := String.ofList cs.reverse :: s.words, word := none }

/-- The scan in another mode. -/
def goto (s : Scan) (m : Mode) : Scan :=
  { s with mode := m }

/-- Outside quotes. -/
def bareStep (s : Scan) (c : Char) : Scan :=
  if c = '"' then s.openWord.goto .quoted
  else if c = '\\' then s.goto .bareEscape
  else if isBlank c then s.closeWord
  else s.push c

/-- Inside quotes. -/
def quotedStep (s : Scan) (c : Char) : Scan :=
  if c = '"' then s.goto .bare
  else if c = '\\' then s.goto (.quotedEscape s.offset)
  else (s.push c).goto .quoted

/-- The character that a one-letter escape names. -/
def namedEscape (c : Char) : Option Char :=
  match c with
  | 'b' => some '\x08'
  | 't' => some '\t'
  | 'n' => some '\n'
  | 'f' => some '\x0c'
  | 'r' => some '\r'
  | '\'' => some '\''
  | '"' => some '"'
  | '\\' => some '\\'
  | _ => none

/-- After a backslash inside quotes. -/
def escapeStep (s : Scan) (start : Nat) (c : Char) : Except Malformed Scan :=
  match namedEscape c with
  | some named => .ok ((s.push named).goto .quoted)
  | none =>
    match Digit.value? 8 c with
    | some digit => .ok (s.goto (.octal start digit (if digit ≤ 3 then 2 else 1)))
    | none =>
      if c = 'u' then .ok (s.goto (.unicode start none 0 0))
      else .error (EscapeFault.invalidBackslash.at start)

/-- In an octal escape. It ends at its last digit, or before a character that is no digit, which is
then read as any character inside quotes; a quote may not end it. -/
def octalStep (s : Scan) (start value room : Nat) (c : Char) : Except Malformed Scan :=
  if c = '"' then .error (EscapeFault.truncatedOctal.at start)
  else
    match Digit.value? 8 c with
    | some digit =>
      let value := value * 8 + digit
      if room ≤ 1 then .ok ((s.push (Char.ofNat value)).goto .quoted)
      else .ok (s.goto (.octal start value (room - 1)))
    | none => .ok ((s.push (Char.ofNat value)).quotedStep c)

/-- What a Unicode escape adds once its four digits are read. -/
def unit (s : Scan) (start : Nat) (lead : Option Lead) (value : Nat) : Except Malformed Scan :=
  match lead with
  | none =>
    if Utf16.isHigh value then .ok (s.goto (.pairing ⟨start, value⟩))
    else if Utf16.isLow value then .error (EscapeFault.unpairedSurrogate.at start)
    else .ok ((s.push (Char.ofNat value)).goto .quoted)
  | some lead =>
    if Utf16.isLow value then .ok ((s.push (Utf16.pair lead.unit value)).goto .quoted)
    else .error (EscapeFault.unpairedSurrogate.at lead.start)

/-- In a Unicode escape. -/
def unicodeStep (s : Scan) (start : Nat) (lead : Option Lead) (value digits : Nat) (c : Char) :
    Except Malformed Scan :=
  if c = '"' then .error (EscapeFault.truncatedUnicode.at start)
  else if digits = 0 ∧ c = 'u' then .ok s
  else
    match Digit.ofHex? c with
    | none => .error (EscapeFault.invalidUnicode.at start)
    | some digit =>
      let value := value * 16 + digit
      if digits < 3 then .ok (s.goto (.unicode start lead value (digits + 1)))
      else s.unit start lead value

/-- Reads one character, the offset apart. -/
def stepMode (s : Scan) (c : Char) : Except Malformed Scan :=
  match s.mode with
  | .bare => .ok (s.bareStep c)
  | .bareEscape =>
    if c = '\n' then .ok (s.closeWord.goto .bare) else .ok ((s.push c).goto .bare)
  | .quoted => .ok (s.quotedStep c)
  | .quotedEscape start => s.escapeStep start c
  | .octal start value room => s.octalStep start value room c
  | .unicode start lead value digits => s.unicodeStep start lead value digits c
  | .pairing lead =>
    if c = '\\' then .ok (s.goto (.pairingEscape lead s.offset))
    else .error (EscapeFault.unpairedSurrogate.at lead.start)
  | .pairingEscape lead start =>
    if c = 'u' then .ok (s.goto (.unicode start (some lead) 0 0))
    else .error (EscapeFault.unpairedSurrogate.at lead.start)

/-- Reads one character. -/
def step (s : Scan) (c : Char) : Except Malformed Scan :=
  match s.stepMode c with
  | .error e => .error e
  | .ok s => .ok { s with offset := s.offset + 1 }

/-- Reads a text. -/
def scanFrom (s : Scan) : List Char → Except Malformed Scan
  | [] => .ok s
  | c :: rest =>
    match s.step c with
    | .error e => .error e
    | .ok s => s.scanFrom rest

/-- What the text read so far stands for. -/
def outcome (s : Scan) : Outcome :=
  match s.mode with
  | .bare => .complete s.closeWord.words.reverse
  | _ => .needsMore

/-- Scanning a text in two parts. -/
theorem scanFrom_append (s : Scan) (front back : List Char) :
    s.scanFrom (front ++ back) = (s.scanFrom front).bind fun s => s.scanFrom back := by
  induction front generalizing s with
  | nil => rfl
  | cons c front ih =>
    simp only [List.cons_append, scanFrom]
    cases s.step c with
    | error e => rfl
    | ok s => exact ih s

end Scan

/-- Reads a command line in the default grammar. -/
def read : Reader := fun text =>
  (Scan.scanFrom {} text.toList).map Scan.outcome

end CommandConsole.CommandLine
