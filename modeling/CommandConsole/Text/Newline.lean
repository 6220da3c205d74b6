/-!
# Newlines for raw terminals

A terminal in raw mode needs a carriage return before each newline. `withReturns` puts one before
every newline that has none; the character before the text counts as no carriage return, so each
text is treated on its own.
-/

namespace CommandConsole.Text

/-- The text with a carriage return before each bare newline, where `before` is the character in
front of it. -/
def withReturnsAfter (before : Char) : List Char → List Char
  | [] => []
  | c :: rest =>
    if c = '\n' ∧ before ≠ '\r' then '\r' :: c :: withReturnsAfter c rest
    else c :: withReturnsAfter c rest

/-- The text with a carriage return before each bare newline. -/
def withReturns (s : String) : String :=
  String.ofList (withReturnsAfter '\x00' s.toList)

end CommandConsole.Text
