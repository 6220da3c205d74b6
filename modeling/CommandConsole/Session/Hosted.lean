import CommandConsole.Activity.Host
import CommandConsole.Session.Completion

/-!
# A session as an activity

A `HostedSession` runs a session as the body of an activity and keeps the exit value it ended with.
When the activity is cancelled while the session executes, the session is interrupted, once, as soon
as it waits for something; it then ends in its own way. A session that was interrupted counts as
ended with the value reserved for that, one that failed with 1.

Who waits for a hosted session learns the exit value. One whose session never executed, because the
activity was cancelled or closed before, reports the reserved value.

Results: `wait_of_outcome` (a wait ends at once where the activity has an outcome).
-/

namespace CommandConsole

open Activity

namespace HostedSession

/-- How far the activity has come with its session. -/
inductive Task where
  | absent
  | scheduled
  /-- It executes the session; `forwarded` says whether the activity's cancellation was passed
  on. -/
  | executing (forwarded : Bool)
  | over
  deriving DecidableEq, Repr

/-- The exit value of a session that ended with a result. -/
def valueOf : Except Failure ExitCode → ExitCode
  | .ok value => value
  | .error e => if e.isInterrupted then ExitCode.interrupted else ExitCode.failed

end HostedSession

/-- A session and the activity it is run by. -/
structure HostedSession where
  activity : Activity := {}
  task : HostedSession.Task := .absent
  run : Run
  exitValue : Option ExitCode := none

namespace HostedSession

/-- Starts the activity. -/
def start (h : HostedSession) : Except Failure HostedSession :=
  h.activity.start.map fun a => { h with activity := a, task := .scheduled }

/-- Interrupts the session. -/
def interrupt (h : HostedSession) : Bool × HostedSession :=
  let (had, run) := h.run.interrupt
  (had, { h with run := run })

/-- Cancels the activity. -/
def cancel (h : HostedSession) : Bool × HostedSession :=
  let (had, a) := h.activity.interrupt
  (had, { h with activity := a })

/-- Closes the activity. -/
def close (h : HostedSession) : HostedSession :=
  { h with activity := h.activity.close.2 }

/-- The session has ended. -/
def finish (h : HostedSession) (result : Except Failure ExitCode) : HostedSession :=
  { h with
    activity := (h.activity.report (result.map fun _ => ())).close.2
    task := .over
    exitValue := some (valueOf result) }

/-- One step of the task. -/
def step (h : HostedSession) : Option Suspension × HostedSession :=
  match h.task with
  | .absent | .over => (some (.waiting none), h)
  | .scheduled =>
    let (entry, a) := h.activity.enter
    let h := { h with activity := a }
    match entry with
    | .skip => (none, { h with task := .over })
    | .perform =>
      match h.run.execute with
      | .ok run => (none, { h with run := run, task := .executing false })
      | .error e => (none, h.finish (.error e))
  | .executing forwarded =>
    match h.run.result? with
    | some result => (none, h.finish result)
    | none =>
      match h.run.step with
      | .ok run => (none, { h with run := run })
      | .error deadline =>
        if h.activity.cancelled ∧ ¬forwarded then
          (none, { h with run := h.run.interrupt.2, task := .executing true })
        else (some (.waiting deadline), h)

instance : Host HostedSession where
  activity := HostedSession.activity
  clock h := h.run.world.clock
  setClock time h := { h with run := h.run.passTo time }
  advance := Host.runSteps step Host.patience

/-- What those learn who wait for a hosted session: the exit value of the session, or what stands
for the outcome of the activity. -/
def report (h : HostedSession) (outcome : Outcome) : ExitCode :=
  h.exitValue.getD
    (match outcome with
    | .reported .finished => 0
    | .reported (.failed _) => ExitCode.failed
    | .reported .interrupted | .abandoned => ExitCode.interrupted)

/-- Waits for the exit value, for an hour at most. -/
def wait (h : HostedSession) : Option ExitCode × HostedSession :=
  let (outcome, h) := Host.waitMillis Host.hour h
  (outcome.map h.report, h)

theorem wait_of_outcome {h : HostedSession} {outcome : Outcome}
    (ho : h.activity.outcome? = some outcome) : h.wait = (some (h.report outcome), h) := by
  rw [wait, Host.waitMillis_of_outcome ho]
  rfl

/-- Starts the session and waits for its exit value, for an hour at most. -/
def startAndWait (h : HostedSession) : Except Failure (Option ExitCode × HostedSession) :=
  h.start.map wait

/-- Executes the session itself and not through the activity. -/
def executeDirectly (h : HostedSession) : Run.Execution × HostedSession :=
  let (execution, run) := h.run.executeToEnd
  (execution, { h with run := run })

/-- Changes the world of the session. -/
def onWorld (h : HostedSession) (f : World → World) : HostedSession :=
  { h with run := { h.run with world := f h.run.world } }

end HostedSession

end CommandConsole
