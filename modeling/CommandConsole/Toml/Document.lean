import CommandConsole.Toml.Place
import CommandConsole.Toml.Quoted
import CommandConsole.Toml.Scalar

/-!
# TOML documents

A document is a sequence of lines: keys with their values, headers of tables, comments. Lists go
over several lines and hold comments; tables between braces do not. `document?` reads a whole
document, or refuses it.
-/

namespace CommandConsole.Toml

open CommandConsole.Text CommandConsole.Text.Parser

/-- How many keys a path may have, and how deep values may be nested in one another, plus one. -/
def depthLimit : Nat :=
  80

/-- Characters of a key without quotes. -/
def isBareKey (c : Char) : Bool :=
  c.isAlphanum || c = '-' || c = '_'

/-- One key. -/
def simpleKey : Parser String :=
  Quoted.key <|> String.ofList <$> many1 (charWhere isBareKey)

/-- Keys with dots between them: all but the last one, and the last one. -/
def keyPath : Parser (List String × String) := do
  let keys ← separated (do spaces; let key ← simpleKey; spaces; return key) (exactly ".")
  let path := keys.dropLast
  accept (if keys.length < depthLimit then keys.getLast?.map (path, ·) else none)

/-- A comment. -/
def comment : Parser Unit := do
  exactly "#"
  let _ ← span isPlain

/-- Blanks, line ends and comments. -/
def gap : Parser Unit := do
  let blank := (fun _ => ()) <$> charWhere isSpace
  let _ ← many (blank <|> lineEnd <|> do comment; lineEnd)

/-- A key with its value. -/
def pair (value : Parser Value) : Parser (List String × String × Value) := do
  let (path, key) ← keyPath
  exactly "="
  spaces
  let v ← value
  return (path, key, v)

/-- A list. -/
def list (value : Parser Value) : Parser Value := do
  exactly "["
  let items ← optional do
    let items ← separated (do gap; let v ← value; gap; return v) (exactly ",")
    let _ ← optional (exactly ",")
    return items
  gap
  exactly "]"
  return .list (items.getD [])

/-- A table between braces. -/
def inlineTable (value : Parser Value) : Parser Value := do
  exactly "\x7b"
  let pairs ← optional (separated (do let p ← pair value; spaces; return p) (exactly ","))
  spaces
  exactly "\x7d"
  let entries : Option Entries :=
    (pairs.getD []).foldlM (fun es (path, key, v) => putDotted es path key v) []
  accept (entries.map (.table .braces))

/-- A value in which others are nested at most so deep. -/
def value : Nat → Parser Value
  | 0 => Value.text <$> Quoted.text <|> Scalar.value
  | depth + 1 =>
    Value.text <$> Quoted.text <|> Scalar.value <|> list (value depth) <|>
      inlineTable (value depth)

/-- What a line says, its comment and its end apart. -/
def content : Parser Line :=
  (do
    exactly "[["
    let (path, key) ← keyPath
    exactly "]]"
    return .repeatedHeader path key) <|>
  (do
    exactly "["
    let (path, key) ← keyPath
    exactly "]"
    return .header path key) <|>
  (do
    let (path, key, v) ← pair (value (depthLimit - 1))
    return .pair path key v) <|>
  pure .blank

/-- A line. -/
def line : Parser Line := do
  spaces
  let l ← content
  spaces
  let _ ← optional comment
  lineEnd <|> atEnd
  return l

/-- The entries of a document; a byte order mark in front of it is left out. -/
def document? (text : String) : Option Entries := do
  let cs :=
    match text.toList with
    | '\uFEFF' :: rest => rest
    | cs => cs
  let lines ← readAll? (many line) cs
  let draft ← lines.foldlM Draft.add {}
  return draft.entries

end CommandConsole.Toml
