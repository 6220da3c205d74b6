import CommandConsole.CommandLine.Basic

/-!
# Failures

What can go wrong anywhere in the library, as one type: each cause has its message, the category it
is reported under, and the one-line description shown when a command cannot be found.
-/

namespace CommandConsole

/-- A read, write or flush that the system refused, with the system's text for it. -/
structure StreamFault where
  text : String
  deriving DecidableEq, Repr, Inhabited

/-- What can go wrong. -/
inductive Failure where
  /-- A command line that the reader refuses. -/
  | malformed (report : CommandLine.Malformed)
  | unknownCommand (name : String)
  | emptyCommand
  /-- The registry has no command at all. -/
  | noCommands
  | execution (text : String)
  /-- The work was cancelled and stopped. -/
  | interrupted
  | invalidState (text : String)
  | configuration (text : String)
  | stream (fault : StreamFault)
  deriving DecidableEq, Repr, Inhabited

namespace Failure

/-- The text of a failure. -/
def message : Failure → String
  | malformed report => report.message
  | unknownCommand name => "command \"" ++ name ++ "\" not found"
  | emptyCommand => "empty command"
  | noCommands => "no commands are configured"
  | execution text => text
  | interrupted => "interrupted"
  | invalidState text => "invalid state: " ++ text
  | configuration text => "Configuration error: " ++ text
  | stream fault => "I/O error: " ++ fault.text

/-- The heading a failure is reported under. -/
def category : Failure → String
  | malformed _ => "Syntax Error"
  | unknownCommand _ | emptyCommand | noCommands => "Lookup Error"
  | execution _ => "Execution Error"
  | interrupted => "Interrupted"
  | invalidState _ => "Invalid State"
  | configuration _ => "Configuration Error"
  | stream _ => "I/O Error"

/-- Whether the failure is the normal end of cancelled work. -/
def isInterrupted : Failure → Bool
  | interrupted => true
  | _ => false

/-- The line that reports a failed command. -/
def report (e : Failure) : String :=
  "Error: " ++ e.message

/-- The line that reports a command line that names no command; it gives the offset of a malformed
one. -/
def describe : Failure → String
  | malformed r => "Error@" ++ toString r.offset ++ ": " ++ r.message
  | e => e.report

end Failure

end CommandConsole
