import CommandConsole.Command.Dispatch

/-!
# The console

A console is what all its sessions share: the way command lines are read, the commands, and the
settings of its shells.
-/

namespace CommandConsole

/-- How a shell shows itself. -/
structure ShellSettings where
  greeting : String := "Welcome to ctk 0.1.0"
  prompt : String := "ctk> "
  continuationPrompt : String := "...> "
  /-- Whether newlines are written with carriage returns. -/
  crlf : Bool := false
  deriving DecidableEq, Repr, Inhabited

namespace ShellSettings

/-- The greeting; an empty one is no greeting. -/
def greeting? (s : ShellSettings) : Option String :=
  if s.greeting.isEmpty then none else some s.greeting

/-- The prompt for the next line, where `buffer` holds the lines of an unfinished command. -/
def promptFor (s : ShellSettings) (buffer : String) : String :=
  if buffer.isEmpty then s.prompt else s.continuationPrompt

theorem promptFor_eq (s : ShellSettings) (buffer : String) :
    s.promptFor buffer = if buffer = "" then s.prompt else s.continuationPrompt := by
  simp only [promptFor, String.isEmpty_iff]

end ShellSettings

/-- What the sessions of one console share. -/
structure Console where
  reader : CommandLine.Reader := CommandLine.read
  registry : Registry Command := {}
  settings : ShellSettings := {}

namespace Console

/-- The command that an input names. -/
def resolve (c : Console) (input : CommandInput) : Except Failure Binding :=
  Binding.resolve c.reader c.registry input

/-- The help on every command. -/
def reference (c : Console) : Registry Help :=
  c.registry.map Command.help

end Console

end CommandConsole
