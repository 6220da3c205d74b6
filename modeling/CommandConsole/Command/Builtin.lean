import CommandConsole.Command.Listing
import CommandConsole.Command.Script
import CommandConsole.Number.Calendar

/-!
# The built-in commands

`date`, `echo`, `exit` (also called `quit`), `help`, `sleep` and `subshell`. A command that cannot
use its arguments prints its usage line, or what is wrong with the one it has, on its error channel
and ends with code 1.
-/

namespace CommandConsole.Builtin

open Command Command.Action

/-- Reports wrong arguments. -/
def refuseArguments (help : Help) (inv : Invocation) : Action ExitCode := do
  print .err (Help.usageLine inv.name help.usage)
  return ExitCode.failed

/-- Reports an error. -/
def refuse (text : String) : Action ExitCode := do
  print .err ("Error: " ++ text)
  return ExitCode.failed

/-- A text in double quotes. -/
def quoted (s : String) : String :=
  "\"" ++ s ++ "\""

/-! ## date -/

def dateHelp : Help where
  summary := "Display the current time and date."
  detail := "Displays the current local time and date."

/-- Prints the date and the time of day. -/
def date : Command where
  help := dateHelp
  body inv := do
    if inv.args.isEmpty then
      let seconds : Nat ← ask .calendar
      print .out (Calendar.render seconds)
      return 0
    else refuseArguments dateHelp inv

/-! ## echo -/

/-- Prints its arguments. -/
def echo : Command where
  help :=
    { usage := some "[arg ...]"
      summary := "Echoes command line arguments."
      detail := "Prints the command line arguments separated by spaces." }
  body inv := do
    print .out (" ".intercalate inv.args)
    return 0

/-! ## exit -/

def exitHelp : Help where
  usage := some "[value]"
  summary := "Exit the shell."
  detail := "Causes the shell to exit with the specified integer exit value (default zero)."

/-- Has the enclosing shell end with a value. -/
def endShell (value : ExitCode) : Action ExitCode := do
  ask (.setExitValue value)
  return value

/-- Ends the enclosing shell. -/
def exit : Command where
  help := exitHelp
  body inv :=
    match inv.args with
    | [] => endShell 0
    | [text] =>
      match ExitCode.ofText? text with
      | some value => endShell value
      | none => refuse ("invalid exit value " ++ quoted text)
    | _ => refuseArguments exitHelp inv

/-! ## help -/

def helpHelp : Help where
  usage := some "[command]"
  summary := "Displays information about available commands."
  detail :=
    "When used with no arguments, lists all of the available console commands along with short " ++
      "descriptions.\nWhen used with a specific command, displays detailed information about " ++
      "that command."

/-- Lists the commands, or describes one. -/
def help : Command where
  help := helpHelp
  body inv :=
    match inv.args with
    | [] => do
      print .out ""
      write .out inv.reference.listing
      return 0
    | [topic] => do
      match inv.reference.lookup topic with
      | some h =>
        write .out (h.details topic)
        return 0
      | none =>
        print .out (topic ++ ": command not found")
        return ExitCode.failed
    | _ => refuseArguments helpHelp inv

/-! ## sleep -/

def sleepHelp : Help where
  usage := some "seconds"
  summary := "Sleep for a while."
  detail := "Sleeps for the specified number of seconds. Fractional seconds are supported."

/-- Waits for a length of time, or until it is interrupted. -/
def sleep : Command where
  help := sleepHelp
  body inv :=
    match inv.args with
    | [text] =>
      match Seconds.nanos? text with
      | some nanos => do
        match ← waitFor (some (Seconds.millisOfNanos nanos)) with
        | .elapsed => return 0
        | .cancelled => throw .interrupted
      | none => refuse ("invalid seconds " ++ quoted text)
    | _ => refuseArguments sleepHelp inv

/-! ## subshell -/

/-- Runs a nested shell. -/
def subshell : Command where
  help :=
    { usage := some "[arg ...]"
      summary := "Start a nested shell session."
      detail :=
        "Starts a new shell session on the same terminal with the same environment. The nested " ++
          "shell ends with exit, quit or end of input, and its exit value becomes the value of " ++
          "this command." }
  body inv := do
    if inv.shell.isSome then ofResult (← ask (.nestShell inv.args))
    else refuse ("the " ++ quoted inv.name ++ " command only works within shell sessions")

/-! ## The bundle -/

/-- The built-in commands by name. -/
def commands : List (String × Command) :=
  [("date", date), ("echo", echo), ("exit", exit), ("help", help), ("quit", exit),
    ("sleep", sleep), ("subshell", subshell)]

/-- The built-in command of a name. -/
def command? (name : String) : Option Command :=
  commands.lookup name

/-- The bundle of the built-in commands. -/
def bundle : Bundle Command :=
  Bundle.ofList "Built-in commands" commands

end CommandConsole.Builtin
