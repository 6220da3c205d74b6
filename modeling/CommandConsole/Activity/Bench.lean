import CommandConsole.Activity.Host
import CommandConsole.Activity.Work

/-!
# An activity with its body

A `Bench` runs the body of one activity, one request at a time, beside a caller who starts,
interrupts and closes the activity. It logs what the body notes and, if the activity has hooks, the
failure of the body and the release of the resources.

A body on a worker of its own loses it when the activity is closed: it goes on only as far as it can
without giving way, and never reports after that.
-/

namespace CommandConsole.Activity

/-- An entry of the log. -/
inductive LogEntry where
  | note (text : String)
  | failed (e : Failure)
  | released
  deriving DecidableEq, Repr

/-- How far the body has come. -/
inductive Task where
  /-- Not started. -/
  | absent
  /-- Started, and not entered yet. -/
  | scheduled
  | running (work : Work Work.Exit)
  | over

/-- An activity, its body, and what they have to do with. -/
structure Bench where
  activity : Activity
  /-- The failure of the body and the release are logged. -/
  hooked : Bool := true
  owned : Bool := false
  body : Work Work.Exit
  task : Task := .absent
  permits : Nat := 0
  clock : Nat := 0
  /-- The last entry first. -/
  log : List LogEntry := []

namespace Bench

/-- A bench whose activity was not started. -/
def new (worker : Worker) (hooked : Bool) (body : Work Work.Exit) : Bench where
  activity := { worker := some worker }
  hooked := hooked
  owned := worker = .owned
  body := body

/-- Adds an entry to the log. -/
def write (b : Bench) (entry : LogEntry) : Bench :=
  { b with log := entry :: b.log }

/-- Adds an entry to the log if the activity has hooks. -/
def writeHook (b : Bench) (entry : LogEntry) : Bench :=
  if b.hooked then b.write entry else b

/-- Starts the activity. -/
def start (b : Bench) : Except Failure Bench :=
  b.activity.start.map fun a => { b with activity := a, task := .scheduled }

/-- Interrupts the activity. -/
def interrupt (b : Bench) : Bool × Bench :=
  let (had, a) := b.activity.interrupt
  (had, { b with activity := a })

/-- Closes the activity. -/
def close (b : Bench) : Bench :=
  let (releases, a) := b.activity.close
  let b := { b with activity := a }
  if releases then b.writeHook .released else b

/-- Adds a permit. -/
def permit (b : Bench) : Bench :=
  { b with permits := b.permits + 1 }

/-- Whether the body has lost its worker. -/
def severed (b : Bench) : Bool :=
  b.owned && b.activity.isClosed

/-- Ends the body. -/
def exit (b : Bench) (e : Work.Exit) : Bench :=
  let b := { b with task := .over }
  match e with
  | .died => b.close
  | .returned result =>
    let b := (hookedFailure? result).elim b fun e => b.writeHook (.failed e)
    { b with activity := b.activity.report result }.close

/-- The body goes on with `work`. -/
def goOn (b : Bench) (work : Work Work.Exit) : Option Suspension × Bench :=
  (none, { b with task := .running work })

/-- The body gives way or waits; one that has lost its worker ends there. -/
def suspend (b : Bench) (s : Suspension) : Option Suspension × Bench :=
  if b.severed then (none, { b with task := .over }) else (some s, b)

/-- One step of the body: why it does not go on after it, if it does not. -/
def workStep (b : Bench) : Work Work.Exit → Option Suspension × Bench
  | .done e => (none, b.exit e)
  | .ask .isCancelled next => b.goOn (next b.activity.cancelled)
  | .ask .clock next => b.goOn (next b.clock)
  | .ask (.sleepUntil time) next =>
    if time ≤ b.clock then b.goOn (next ()) else b.suspend (.waiting (some time))
  | .ask .waitCancelled next =>
    if b.activity.cancelled then b.goOn (next ()) else b.suspend (.waiting none)
  | .ask .takePermit next =>
    if 0 < b.permits then { b with permits := b.permits - 1 }.goOn (next ())
    else b.suspend (.waiting none)
  | .ask .yield next => { b with task := .running (next ()) }.suspend .gaveWay
  | .ask .close next => b.close.goOn (next ())
  | .ask .interrupt next => b.interrupt.2.goOn (next b.interrupt.1)
  | .ask .start next =>
    match b.activity.start with
    | .ok a => { b with activity := a }.goOn (next (.ok ()))
    | .error e => b.goOn (next (.error e))
  | .ask .stage next => b.goOn (next b.activity.stage)
  | .ask (.note text) next => (b.write (.note text)).goOn (next ())

/-- One step of the task. -/
def step (b : Bench) : Option Suspension × Bench :=
  match b.task with
  | .absent | .over => (some (.waiting none), b)
  | .scheduled =>
    let (entry, a) := b.activity.enter
    match entry with
    | .skip => (none, { b with activity := a, task := .over })
    | .perform => { b with activity := a }.goOn b.body
  | .running work => b.workStep work

instance : Host Bench where
  activity := Bench.activity
  clock := Bench.clock
  setClock time b := { b with clock := time }
  advance := Host.runSteps step Host.patience

/-- The log since it had `count` entries. -/
def logAfter (b : Bench) (count : Nat) : List LogEntry :=
  (b.log.take (b.log.length - count)).reverse

end Bench

end CommandConsole.Activity
