import CommandConsole.CommandLine.Scan
import CommandConsole.Command.Script

/-!
# From a command line to a command

The first word names the command and the others are its arguments. `resolve` finds the command or
says why there is none: first a command line that cannot be read or is unfinished, then one without
words, then a registry without commands, then a name that it does not have. `Binding.perform` runs
a command: of its failures only `interrupted` passes on, any other is printed as one line and
becomes the code 1.
-/

namespace CommandConsole

/-- A command to find: a command line, or its words. -/
inductive CommandInput where
  | line (text : String)
  | words (words : List String)
  deriving DecidableEq, Repr

/-- Whether the words are still to be read from a line. -/
def CommandInput.isLine : CommandInput → Bool
  | line _ => true
  | words _ => false

/-- A command with the name it was called by and its arguments. -/
structure Binding where
  command : Command
  name : String
  args : List String

namespace Binding

/-- What is reported under an unfinished command line. -/
def unfinished (text : String) : Failure :=
  .malformed ⟨text.length, "incomplete command"⟩

/-- The words of an input. -/
def wordsOf (reader : CommandLine.Reader) : CommandInput → Except Failure (List String)
  | .words ws => .ok ws
  | .line text =>
    match reader text with
    | .error report => .error (.malformed report)
    | .ok .needsMore => .error (unfinished text)
    | .ok (.complete ws) => .ok ws

/-- The command that some words name. -/
def ofWords (registry : Registry Command) : List String → Except Failure Binding
  | [] => .error .emptyCommand
  | name :: args =>
    if registry.isEmpty then .error .noCommands
    else
      match registry.lookup name with
      | none => .error (.unknownCommand name)
      | some command => .ok ⟨command, name, args⟩

/-- The command that an input names. -/
def resolve (reader : CommandLine.Reader) (registry : Registry Command) (input : CommandInput) :
    Except Failure Binding :=
  (wordsOf reader input).bind (ofWords registry)

/-- Reports a failed command; it counts as ended with code 1. -/
def reportFailure (e : Failure) : Command.Action ExitCode := do
  Command.Action.print .err e.report
  return ExitCode.failed

/-- Runs the command. Only `interrupted`, and the fault of a report that could not be written, are
failures of the whole. -/
def perform (b : Binding) (inv : Command.Invocation) : Command.Action ExitCode :=
  tryCatch (b.command.body { inv with name := b.name, args := b.args }) fun e =>
    if e.isInterrupted then throw e else reportFailure e

end Binding

end CommandConsole
