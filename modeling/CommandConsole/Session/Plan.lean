import CommandConsole.CommandLine.Continuation
import CommandConsole.Console
import CommandConsole.Terminal.Event

/-!
# What sessions do

A one-shot session runs one command and flushes its output. A shell prints its greeting and then
reads lines, one turn after the other: each turn reads a line, and runs a command if the lines
gathered so far are one. Both are programs over the requests below, one program for each turn, so
that a session can be interrupted between any two of its requests.

What ends a shell: the end of the terminal's input, an exit value that a command set, or a failure
of a read, write or flush of its own, which is reported and makes the code 1.
-/

namespace CommandConsole.Session

/-- What a session asks of what it runs on. Its own texts go to its output channel. -/
inductive Request where
  | write (text : String)
  | flush
  /-- Whether the operation in progress was interrupted. -/
  | isCancelled
  /-- Make ready for the next operation. -/
  | renew
  /-- The exit value that commands have set. -/
  | exitValue
  /-- Show a prompt and start to read a line. -/
  | prompt (text : String)
  /-- Wait for the line, or until interrupted. -/
  | event (prompt : String)
  /-- Find the command that some words name. -/
  | resolve (words : List String)
  /-- Run a command. -/
  | run (binding : Binding)

/-- What each request is answered with. -/
def Answer : Request → Type
  | .write _ | .flush | .prompt _ => Except StreamFault Unit
  | .isCancelled => Bool
  | .renew => Unit
  | .exitValue => Option ExitCode
  | .event _ => Except StreamFault Terminal.Event
  | .resolve _ => Except Failure Binding
  | .run _ => Except Failure ExitCode

/-- A program over the requests of sessions. -/
abbrev Plan := Program Request Answer

/-- What follows a turn: another turn with the lines of an unfinished command, or the end. -/
inductive Next where
  | again (buffer : String)
  | ended (result : Except Failure ExitCode)

/-- A plan that a failure ends. -/
abbrev Action := ExceptT Failure Plan

namespace Plan

/-- Asks, and answers with what it got. -/
def request (r : Request) : Plan (Answer r) :=
  Program.request r

/-- Writes a line. -/
def printLine (text : String) : Plan (Except StreamFault Unit) :=
  request (.write (Text.asLine text))

/-- Flushes the output. -/
def flush : Plan (Except StreamFault Unit) :=
  request .flush

/-- Whether the operation in progress was interrupted. -/
def isCancelled : Plan Bool :=
  request .isCancelled

/-- Makes ready for the next operation. -/
def renew : Plan Unit :=
  request .renew

/-- The exit value that commands have set. -/
def exitValue : Plan (Option ExitCode) :=
  request .exitValue

/-- Shows a prompt and starts to read a line. -/
def prompt (text : String) : Plan (Except StreamFault Unit) :=
  request (.prompt text)

/-- Waits for the line, or until interrupted. -/
def event (text : String) : Plan (Except StreamFault Terminal.Event) :=
  request (.event text)

/-- Finds the command that some words name. -/
def resolve (words : List String) : Plan (Except Failure Binding) :=
  request (.resolve words)

/-- Runs a command. -/
def run (b : Binding) : Plan (Except Failure ExitCode) :=
  request (.run b)

end Plan

/-- Goes on with the value, or ends with the stream's fault. -/
def ofStream {α : Type} : Except StreamFault α → Action α
  | .ok a => pure a
  | .error fault => throw (.stream fault)

/-- Writes a line. -/
def print (text : String) : Action Unit := do
  ofStream (← Plan.printLine text)

/-- Shows a prompt and waits for a line. -/
def readEvent (prompt : String) : Action Terminal.Event := do
  ofStream (← Plan.prompt prompt)
  ofStream (← Plan.event prompt)

/-- Makes ready for the next operation if this one was interrupted. -/
def renewIfCancelled : Plan Unit := do
  if ← Plan.isCancelled then Plan.renew

/-! ## One-shot sessions -/

/-- Runs a command and flushes the output. A flush that fails is the result, whatever the command
answered. -/
def once (b : Binding) : Plan Next := do
  let result ← Plan.run b
  match ← Plan.flush with
  | .error fault => return .ended (.error (.stream fault))
  | .ok () => return .ended result

/-! ## Shells -/

/-- The code of a shell: its exit value, or 0, or after a failure, which is reported, 1. -/
def closingCode (failure : Option Failure) : Plan ExitCode := do
  match failure with
  | none => return (← Plan.exitValue).getD 0
  | some e =>
    let _ ← Plan.printLine e.report
    return ExitCode.failed

/-- Ends a shell. -/
def close (failure : Option Failure) : Plan Next := do
  let code ← closingCode failure
  let _ ← Plan.flush
  return .ended (.ok code)

/-- Does a part of a shell that answers the buffer for the next turn, or none to stop. -/
def orClose (part : Action (Option String)) : Plan Next := do
  match ← part.run with
  | .ok (some buffer) => return .again buffer
  | .ok none => close none
  | .error e => close (some e)

/-- Before the first turn. -/
def greet (settings : ShellSettings) : Action (Option String) := do
  if let some greeting := settings.greeting? then print greeting
  return some ""

/-- After a command that was interrupted. -/
def afterInterrupted : Action Unit := do
  ofStream (← Plan.flush)
  print ""
  Plan.renew

/-- Runs the command that some words name, or reports that there is none; it does not matter if that
report cannot be written. -/
def dispatch (words : List String) : Action Unit := do
  match ← ExceptT.lift (Plan.resolve words) with
  | .error e =>
    let _ ← Plan.printLine e.describe
  | .ok binding =>
    match ← ExceptT.lift (Plan.run binding) with
    | .ok _ => renewIfCancelled
    | .error .interrupted => afterInterrupted
    | .error e => throw e

/-- What a line does, behind the lines of an unfinished command. -/
def hearLine (console : Console) (buffer line : String) : Action (Option String) := do
  let (answer, kept) := CommandLine.continueWith console.reader buffer line
  match answer with
  | .error report => print (Failure.malformed report).report
  | .ok .needsMore => pure ()
  | .ok (.complete []) => pure ()
  | .ok (.complete words) => dispatch words
  return some kept

/-- After an interrupt at the prompt: the gathered lines are dropped. -/
def hearInterrupt : Action (Option String) := do
  Plan.renew
  print ""
  return some ""

/-- One turn of a shell that holds the lines of an unfinished command in `buffer`. -/
def turn (console : Console) (buffer : String) : Action (Option String) := do
  if (← Plan.exitValue).isSome then return none
  match ← readEvent (console.settings.promptFor buffer) with
  | .endOfInput => return none
  | .interrupted => hearInterrupt
  | .line line => hearLine console buffer line

end CommandConsole.Session
