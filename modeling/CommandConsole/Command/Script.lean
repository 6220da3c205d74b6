import CommandConsole.Command.Help
import CommandConsole.Command.Registry
import CommandConsole.Environment
import CommandConsole.Failure
import CommandConsole.Number.ExitCode
import CommandConsole.Program

/-!
# What a command does

A command is its help and a body. The body is a program over the requests below: it reads and
writes the streams it was given, waits, looks at whether it was cancelled, and may run other
commands and nested sessions. All else it knows is in its `Invocation`.
-/

namespace CommandConsole

/-- The two outputs of a command. -/
inductive Channel where
  | out
  | err
  deriving DecidableEq, Repr

/-- Why a wait ended. -/
inductive Wake where
  | elapsed
  | cancelled
  deriving DecidableEq, Repr

namespace Command

/-- What a command may ask for. -/
inductive Request where
  /-- Write a text to a channel in one call. -/
  | write (channel : Channel) (text : String)
  | flush (channel : Channel)
  /-- Read a line of the command's input; none at its end. -/
  | readLine
  /-- Whether the session that runs the command was interrupted. -/
  | isCancelled
  /-- The time on the clock in milliseconds. -/
  | clock
  /-- Wait until cancelled, or until the clock shows a time. -/
  | wait (deadline : Option Nat)
  /-- Let others go first. -/
  | yield
  /-- The date and time of day, in seconds since 1970. -/
  | calendar
  /-- Have the enclosing shell end after this command; nothing happens outside a shell. -/
  | setExitValue (value : ExitCode)
  /-- Interrupt the enclosing shell; it answers whether that had an effect. -/
  | interrupt
  /-- Run a nested shell. -/
  | nestShell (args : List String)
  /-- Run a command in a nested one-shot session; none if the words name no command. -/
  | nestOnce (words : List String)
  /-- Run another command in this one's place; none if the words name no command. -/
  | invoke (words : List String)

/-- What each request is answered with. -/
def Answer : Request → Type
  | .write .. | .flush _ => Except StreamFault Unit
  | .readLine => Except StreamFault (Option String)
  | .isCancelled | .interrupt => Bool
  | .clock | .calendar => Nat
  | .wait _ => Wake
  | .yield | .setExitValue _ => Unit
  | .nestShell _ => Except Failure ExitCode
  | .nestOnce _ | .invoke _ => Option (Except Failure ExitCode)

/-- A program over the requests of commands. -/
abbrev Script := Program Request Answer

/-- A script that a failure ends. -/
abbrev Action := ExceptT Failure Script

namespace Action

/-- Asks, and goes on with the answer. -/
def ask (r : Request) : Action (Answer r) :=
  ExceptT.lift (Program.request r)

/-- Goes on with the value, or ends with the failure. -/
def ofResult {α : Type} : Except Failure α → Action α
  | .ok a => pure a
  | .error e => throw e

/-- Goes on with the value, or ends with the stream's fault. -/
def ofStream {α : Type} : Except StreamFault α → Action α
  | .ok a => pure a
  | .error fault => throw (.stream fault)

/-- Writes a text. -/
def write (channel : Channel) (text : String) : Action Unit := do
  ofStream (← ask (.write channel text))

/-- Writes a text as a line. -/
def print (channel : Channel) (text : String) : Action Unit :=
  write channel (Text.asLine text)

/-- Flushes a channel. -/
def flush (channel : Channel) : Action Unit := do
  ofStream (← ask (.flush channel))

/-- Reads a line; none at the end of input. -/
def readLine : Action (Option String) := do
  ofStream (← ask .readLine)

/-- Whether the session that runs the command was interrupted. -/
def isCancelled : Action Bool :=
  ask .isCancelled

/-- Ends with `interrupted` if the session was interrupted. -/
def checkCancelled : Action Unit := do
  if ← isCancelled then throw .interrupted

/-- Waits until cancelled, or until some milliseconds have passed. -/
def waitFor (millis : Option Nat) : Action Wake := do
  match millis with
  | none => ask (.wait none)
  | some d =>
    let start : Nat ← ask .clock
    ask (.wait (some (start + d)))

end Action

/-- What a command is run with. -/
structure Invocation where
  /-- The name the command was called by. -/
  name : String
  args : List String
  env : Environment
  /-- The arguments of the enclosing shell; none outside a shell. -/
  shell : Option (List String)
  /-- The help on every command of the console. -/
  reference : Registry Help

end Command

/-- A command. -/
structure Command where
  help : Help := {}
  body : Command.Invocation → Command.Action ExitCode

end CommandConsole
