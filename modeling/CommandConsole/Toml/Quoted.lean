import CommandConsole.Number.Digit
import CommandConsole.Text.Parser

/-!
# Quoted text in TOML

Text between double quotes, in which a backslash starts an escape, or between single quotes, in
which nothing does; on one line between single marks, or on several between triple ones. Of text on
several lines a newline right at the start is left out, line ends are read as newlines, and a
backslash at the end of a line leaves out everything up to the next character that is not blank. One
or two quotes may stand inside triple ones, also right before the closing ones.
-/

namespace CommandConsole.Toml

open CommandConsole.Text CommandConsole.Text.Parser

/-- Characters that may stand in a comment or between quotes: all but the control characters other
than the tab. -/
def isPlain (c : Char) : Bool :=
  c = '\t' || (' ' ≤ c && c ≠ '\x7f')

/-- A blank within a line. -/
def isSpace (c : Char) : Bool :=
  c = ' ' || c = '\t'

/-- Blanks within a line. -/
def spaces : Parser Unit :=
  (fun _ => ()) <$> span isSpace

/-- The end of a line, which a carriage return may start. -/
def lineEnd : Parser Unit :=
  exactly "\n" <|> exactly "\r\n"

namespace Quoted

/-- The character of a number, unless it is a surrogate or too large. -/
def scalar? (n : Nat) : Option Char :=
  if n.isValidChar then some (Char.ofNat n) else none

/-- The character that a one-letter escape stands for. -/
def escaped? (c : Char) : Option Char :=
  match c with
  | 'b' => some '\x08'
  | 't' => some '\t'
  | 'n' => some '\n'
  | 'f' => some '\x0c'
  | 'r' => some '\r'
  | '"' => some '"'
  | '\\' => some '\\'
  | _ => none

/-- A character given by a number of hexadecimal digits. -/
def coded (count : Nat) : Parser Char := do
  let digits ← times (charOf Digit.ofHex?) count
  accept (scalar? (Digit.number 16 digits))

/-- An escape. -/
def escape : Parser Char := do
  exactly "\\"
  charOf escaped? <|> (do exactly "u"; coded 4) <|> (do exactly "U"; coded 8)

/-- What stands in a text with a given mark: any plain character but the mark, and but the backslash
where that starts an escape. -/
def plain (mark : Char) : Parser Char :=
  charWhere fun c => isPlain c && c ≠ mark && (mark = '\'' || c ≠ '\\')

/-- A character of a text with a given mark. -/
def item (mark : Char) : Parser Char :=
  if mark = '"' then plain mark <|> escape else plain mark

/-- A text on one line. -/
def oneLine (mark : Char) : Parser String := do
  exactly (String.singleton mark)
  let cs ← many (item mark)
  exactly (String.singleton mark)
  return String.ofList cs

/-- A backslash at the end of a line, and all blanks and line ends after it. -/
def joint : Parser Unit := do
  exactly "\\"
  spaces
  lineEnd
  let _ ← many ((fun _ => ()) <$> charWhere isSpace <|> lineEnd)

/-- One or two marks that do not close a text. -/
def marks (mark : Char) : Parser (List Char) := do
  let ms ← span (· = mark)
  accept (if ms.length = 1 ∨ ms.length = 2 then some ms else none)

/-- The marks that close a text, and what those before the last three of them stand for. -/
def closing (mark : Char) : Parser (List Char) := do
  let ms ← span (· = mark)
  accept (if 3 ≤ ms.length ∧ ms.length ≤ 5 then some (ms.drop 3) else none)

/-- A piece of a text on several lines. -/
def piece (mark : Char) : Parser (List Char) :=
  (if mark = '"' then (fun _ => []) <$> joint else failure) <|>
    (fun c => [c]) <$> item mark <|> (fun _ => ['\n']) <$> lineEnd <|> marks mark

/-- A text on several lines. -/
def severalLines (mark : Char) : Parser String := do
  exactly (String.ofList [mark, mark, mark])
  let _ ← optional lineEnd
  let pieces ← many (piece mark)
  return String.ofList (pieces.flatten ++ (← closing mark))

/-- A text on one line, which may be a key. -/
def key : Parser String :=
  oneLine '"' <|> oneLine '\''

/-- A text. -/
def text : Parser String :=
  severalLines '"' <|> severalLines '\'' <|> key

end Quoted

end CommandConsole.Toml
