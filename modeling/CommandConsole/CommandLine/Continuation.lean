import CommandConsole.CommandLine.Basic

/-!
# Command lines over several lines

Lines are gathered in a buffer, joined by newlines, and the whole buffer is read again after each
one. Once it is complete or malformed the buffer is emptied; while it needs more it is kept.
-/

namespace CommandConsole.CommandLine

/-- The buffer with one more line. -/
def extendBuffer (buffer line : String) : String :=
  if buffer.isEmpty then line else buffer ++ "\n" ++ line

/-- What a line does: the answer for the extended buffer, and the buffer that is kept. -/
def continueWith (reader : Reader) (buffer line : String) :
    Except Malformed Outcome × String :=
  let text := extendBuffer buffer line
  match reader text with
  | .ok .needsMore => (.ok .needsMore, text)
  | answer => (answer, "")

/-- What each of several lines does in turn, and the buffer that is kept at the end. -/
def continueAll (reader : Reader) (buffer : String) :
    List String → List (Except Malformed Outcome) × String
  | [] => ([], buffer)
  | line :: lines =>
    let (answer, kept) := continueWith reader buffer line
    let (answers, last) := continueAll reader kept lines
    (answer :: answers, last)

end CommandConsole.CommandLine
