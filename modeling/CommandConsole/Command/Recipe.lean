import CommandConsole.Command.Script

/-!
# Recipes

A recipe is a command written as a list of steps. The steps are carried out in order; some of them
end the command, and a recipe that comes to its end ends with code 0.
-/

namespace CommandConsole.Recipe

open Command Command.Action

/-- One step of a recipe. Printing is writing a line to the output channel. -/
inductive Step where
  | out (text : String)
  | err (text : String)
  | write (text : String)
  | stop (code : ExitCode)
  | fail (e : Failure)
  | setExitValue (value : ExitCode)
  /-- Print the name and the arguments of the command. -/
  | args
  /-- Read a line and print it. -/
  | read
  /-- Print the value of the variable that the first argument names. -/
  | variableOfArg
  /-- Print the arguments of the enclosing shell. -/
  | shellArgs
  /-- Stop with `interrupted` if cancelled. -/
  | check
  /-- Print whether the command was cancelled. -/
  | cancelled
  | waitCancelled
  | yield
  | flush
  /-- Interrupt the enclosing shell and print what it answers. -/
  | interrupt
  /-- Run the arguments as a command in a nested one-shot session. -/
  | nestArgs
  /-- Run the arguments as a command in place of this one. -/
  | invokeArgs

/-- The code of a recipe whose arguments name no command for a nested session. -/
def notNested : ExitCode :=
  99

/-- The code of a recipe whose arguments name no command to run. -/
def notInvoked : ExitCode :=
  98

/-- Arguments joined by bars. -/
def joined (args : List String) : String :=
  "|".intercalate args

/-- The word for a truth value. -/
def word (b : Bool) : String :=
  if b then "true" else "false"

/-- Carries out one step; the answer is the code to stop with, if it stops. -/
def Step.perform (inv : Invocation) : Step → Action (Option ExitCode)
  | out text => do
    print .out text
    return none
  | err text => do
    print .err text
    return none
  | write text => do
    Action.write .out text
    return none
  | stop code => return some code
  | fail e => throw e
  | setExitValue value => do
    ask (.setExitValue value)
    return none
  | args => do
    print .out (inv.name ++ "|" ++ joined inv.args)
    return none
  | read => do
    match ← readLine with
    | some line => print .out ("read: " ++ line)
    | none => print .out "end of input"
    return none
  | variableOfArg => do
    print .out ((inv.args.head?.bind inv.env.get?).getD "unset")
    return none
  | shellArgs => do
    match inv.shell with
    | some given => print .out ("shell " ++ joined given)
    | none => print .out "no shell"
    return none
  | check => do
    checkCancelled
    return none
  | cancelled => do
    print .out ("cancelled " ++ word (← isCancelled))
    return none
  | waitCancelled => do
    let _ ← waitFor none
    return none
  | yield => do
    ask .yield
    return none
  | flush => do
    Action.flush .out
    return none
  | interrupt => do
    if inv.shell.isSome then
      let had : Bool ← ask .interrupt
      print .out ("interrupt " ++ word had)
    else print .out "no shell"
    return none
  | nestArgs => do
    match (← ask (.nestOnce inv.args) : Option (Except Failure ExitCode)) with
    | none => return some notNested
    | some result =>
      let code ← ofResult result
      print .out ("nested code " ++ code.toText)
      return none
  | invokeArgs => do
    match (← ask (.invoke inv.args) : Option (Except Failure ExitCode)) with
    | none => return some notInvoked
    | some result =>
      let code ← ofResult result
      print .out (inv.args.headD "" ++ " code " ++ code.toText)
      return none

/-- Carries out steps until one stops. -/
def perform (inv : Invocation) : List Step → Action ExitCode
  | [] => return 0
  | step :: rest => do
    match ← step.perform inv with
    | some code => return code
    | none => perform inv rest

/-- The command of a recipe. -/
def command (help : Help) (steps : List Step) : Command where
  help := help
  body inv := perform inv steps

end CommandConsole.Recipe
