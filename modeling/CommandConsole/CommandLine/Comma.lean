import CommandConsole.CommandLine.Basic
import CommandConsole.Text.Blank

/-!
# Comma-separated command lines

A small second grammar: words lie between commas, blanks around a word do not belong to it, a `+`
at the end asks for more, and no line starts with `!`.
-/

namespace CommandConsole.CommandLine

open CommandConsole.Text

/-- Reads a comma-separated command line; there is at least one word, maybe an empty one. -/
def readCommaSeparated : Reader := fun text =>
  let cs := text.toList
  if cs.head? = some '!' then .error ⟨0, "bad start"⟩
  else if cs.getLast? = some '+' then .ok .needsMore
  else
    let parts := splitAtEach (· == ',') cs
    .ok (.complete (parts.map fun part => String.ofList (trim part)))

end CommandConsole.CommandLine
