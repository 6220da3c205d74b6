import CommandConsole.Session.Run

/-!
# Running a session to its end

A run that waits for a time only has its clock set to that time and goes on. One that waits for an
event or an interrupt that never comes does not end; it is given up after a time longer than any
that a test of patience can tell from never.

A session can also fail to be made: when its input names no command, the reason is written to its
error stream.
-/

namespace CommandConsole

/-- The command that an input names. Why it names none is written to an outlet as one line; it does
not matter if that cannot be written. -/
def Console.findCommand (console : Console) (w : World) (err : Outlet) (input : CommandInput) :
    Option Binding × World :=
  match console.resolve input with
  | .ok b => (some b, w)
  | .error e => (none, (w.write err (Text.asLine e.describe)).2)

namespace Run

/-- What became of one execution. -/
inductive Execution where
  | ended (result : Except Failure ExitCode)
  | stillRunning

/-- How long to wait, in milliseconds, for what never comes. -/
def never : Nat :=
  1000000000000

/-- Lets a run go on, and time pass, until it has ended or only an event could go on with it; the
number bounds how often time passes. -/
def complete : Nat → Run → Execution × Run
  | 0, r => (.stillRunning, r)
  | n + 1, r =>
    match r.settle patience with
    | (.over result, r) => (.ended result, r)
    | (.waiting none, r) => (.stillRunning, r.abandon.passTo (r.world.clock + never))
    | (.waiting (some time), r) => complete n (r.passTo time)

/-- Executes the outermost session: the first call runs it to its end, every other is refused. -/
def executeToEnd (r : Run) : Execution × Run :=
  match r.execute with
  | .error e => (.ended (.error e), r)
  | .ok r => r.complete patience

/-- Executes the outermost session several times. -/
def executeTimes : Nat → Run → List Execution × Run
  | 0, r => ([], r)
  | n + 1, r =>
    let (first, r) := r.executeToEnd
    let (others, r) := executeTimes n r
    (first :: others, r)

/-- The one-shot session of a command in a world, or the world in which the reason was written why
there is none. -/
def ofCommand (console : Console) (world : World) (out err : Outlet) (env : Environment)
    (input : CommandInput) : Except World (Binding × Run) :=
  match console.findCommand world err input with
  | (none, world) => .error world
  | (some b, world) => .ok (b, ofLevel console world (Level.once b out err env))

/-- The shell session on the terminal of a world. -/
def ofShell (console : Console) (world : World) (args : List String) (env : Environment) : Run :=
  ofLevel console world (Level.shell console.settings args env)

end Run

end CommandConsole
