import CommandConsole.Activity.Basic
import CommandConsole.Program

/-!
# Bodies of activities

The body of an activity is a program that waits, looks at whether it was cancelled, and may use the
activity it runs in. It returns, well or with a failure, or it dies. `Work.Step` gives bodies as
lists of steps that note what they see.
-/

namespace CommandConsole.Activity

namespace Work

/-- What a body may ask for. -/
inductive Request where
  | isCancelled
  | clock
  | sleepUntil (time : Nat)
  | waitCancelled
  /-- Wait for a permit and take it. -/
  | takePermit
  /-- Let others go first. -/
  | yield
  | close
  | interrupt
  | start
  | stage
  /-- Write a line to the log. -/
  | note (text : String)

/-- What each request is answered with. -/
def Answer : Request → Type
  | .isCancelled | .interrupt => Bool
  | .clock => Nat
  | .start => Except Failure Unit
  | .stage => Stage
  | _ => Unit

/-- How a body ends. -/
inductive Exit where
  | returned (result : Except Failure Unit)
  /-- It stops without a result. -/
  | died

end Work

/-- The body of an activity. -/
abbrev Work := Program Work.Request Work.Answer

namespace Work

/-- Asks, and goes on with the answer. -/
def request (r : Request) : Work (Answer r) :=
  Program.request r

/-- Writes a line to the log. -/
def note (text : String) : Work Unit :=
  request (.note text)

/-- The name of a stage. -/
def stageName : Stage → String
  | .initial => "Initial"
  | .started => "Started"
  | .completed => "Completed"
  | .closed => "Closed"

/-- The word for a truth value. -/
def word (b : Bool) : String :=
  if b then "true" else "false"

/-- One step of a body. -/
inductive Step where
  | finish
  | fail (e : Failure)
  | die
  | yield
  | check
  | waitCancelled
  | takePermit
  | close
  | interrupt
  | start
  | stage
  | note (text : String)
  | sleep (millis : Nat)

/-- Carries out one step; the answer is how the body ends, if it does. -/
def Step.perform : Step → Work (Option Exit)
  | finish => return some (.returned (.ok ()))
  | fail e => return some (.returned (.error e))
  | die => return some .died
  | yield => do
    request .yield
    return none
  | check => do
    let cancelled : Bool ← request .isCancelled
    Work.note ("cancelled " ++ word cancelled)
    return none
  | waitCancelled => do
    request .waitCancelled
    Work.note "saw cancel"
    return none
  | takePermit => do
    request .takePermit
    Work.note "passed gate"
    return none
  | close => do
    request .close
    Work.note "closed self"
    return none
  | interrupt => do
    let had : Bool ← request .interrupt
    Work.note ("interrupt self " ++ word had)
    return none
  | start => do
    match (← request .start : Except Failure Unit) with
    | .ok () => Work.note "started self"
    | .error e => Work.note ("start self: " ++ e.message)
    return none
  | stage => do
    let s : Stage ← request .stage
    Work.note ("state " ++ stageName s)
    return none
  | note text => do
    Work.note text
    return none
  | sleep millis => do
    let now : Nat ← request .clock
    request (.sleepUntil (now + millis))
    return none

/-- Carries out steps until one ends the body. -/
def performSteps : List Step → Work Exit
  | [] => return .returned (.ok ())
  | step :: rest => do
    match ← step.perform with
    | some exit => return exit
    | none => performSteps rest

/-- A body that notes that it was entered and carries out steps. -/
def ofSteps (steps : List Step) : Work Exit := do
  note "perform"
  performSteps steps

end Work

end CommandConsole.Activity
