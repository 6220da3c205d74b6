import CommandConsole.Failure

/-!
# What a terminal reports

Asked for a line, a terminal reports the line, that its input has ended, or that the user asked to
interrupt; or reading fails.
-/

namespace CommandConsole.Terminal

/-- What a read from a terminal gives. -/
inductive Event where
  | line (text : String)
  | endOfInput
  | interrupted
  deriving DecidableEq, Repr, Inhabited

/-- The event of a line that a source gave, or of its end. -/
def Event.ofLine? : Option String → Event
  | some text => line text
  | none => endOfInput

end CommandConsole.Terminal
