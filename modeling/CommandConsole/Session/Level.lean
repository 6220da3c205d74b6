import CommandConsole.Session.State
import CommandConsole.Session.Plan
import CommandConsole.Session.World

/-!
# One session while it runs

A `Level` is one session with all it holds: its state, its streams, what it is, and where it stands
in its plan. `Level.step` carries out one request. A command's requests are answered for the session
that runs it; a command may also start a nested session, which then runs in its place.
-/

namespace CommandConsole

namespace Session

/-- What a session is: a shell with its arguments and the exit value set so far, or the run of one
command. -/
inductive Role where
  | shell (args : List String) (exitValue : Option ExitCode)
  | once (binding : Binding)

/-- Where a session stands. -/
inductive Phase where
  /-- Not executed yet. -/
  | idle
  /-- In its own plan. -/
  | own (plan : Plan Next)
  /-- In a command, before `next`. -/
  | command (script : Command.Script (Except Failure ExitCode))
      (next : Except Failure ExitCode → Plan Next)
  /-- In a nested session that a command waits for. -/
  | nested (resume : Except Failure ExitCode → Command.Script (Except Failure ExitCode))
      (next : Except Failure ExitCode → Plan Next)
  /-- Executed. -/
  | over (result : Except Failure ExitCode)

end Session

open Session

/-- A session. -/
structure Level where
  state : ExecutionState := {}
  role : Role
  out : Outlet
  err : Outlet
  env : Environment := {}
  phase : Phase := .idle

namespace Level

/-- A shell on the terminal. Its commands write all their output to the terminal. -/
def shell (settings : ShellSettings) (args : List String) (env : Environment) : Level :=
  let outlet : Outlet := ⟨.first, ⟨settings.crlf⟩⟩
  { role := .shell args none, out := outlet, err := outlet, env := env }

/-- The run of one command on some streams. -/
def once (b : Binding) (out err : Outlet) (env : Environment) : Level :=
  { role := .once b, out := out, err := err, env := env }

/-- The arguments of a shell. -/
def shellArgs? (l : Level) : Option (List String) :=
  match l.role with
  | .shell args _ => some args
  | .once _ => none

/-- The exit value of a shell. -/
def exitValue (l : Level) : Option ExitCode :=
  match l.role with
  | .shell _ value => value
  | .once _ => none

/-- Sets the exit value of a shell. -/
def setExitValue (l : Level) (value : ExitCode) : Level :=
  match l.role with
  | .shell args _ => { l with role := .shell args (some value) }
  | .once _ => l

/-- The outlet of a channel. -/
def outlet (l : Level) : Channel → Outlet
  | .out => l.out
  | .err => l.err

/-- The level in another phase. -/
def goto (l : Level) (phase : Phase) : Level :=
  { l with phase := phase }

/-- What commands of this session are run with, their own names and arguments apart. -/
def invocation (console : Console) (l : Level) : Command.Invocation where
  name := ""
  args := []
  env := l.env
  shell := l.shellArgs?
  reference := console.reference

/-- The script of a command run in this session. -/
def scriptOf (console : Console) (l : Level) (b : Binding) :
    Command.Script (Except Failure ExitCode) :=
  (b.perform (l.invocation console)).run

/-- The first part of the session's plan. -/
def opening (console : Console) (l : Level) : Plan Next :=
  match l.role with
  | .shell .. => orClose (greet console.settings)
  | .once b => Session.once b

/-- Begins to execute the session, once. -/
def execute (console : Console) (l : Level) : Except Failure Level :=
  l.state.begin.map fun state => { l with state := state, phase := .own (l.opening console) }

/-- Ends the execution. -/
def finish (l : Level) (result : Except Failure ExitCode) : Level :=
  { l with state := l.state.finish, phase := .over result }

/-- Whether a command of this session routes interrupts to the session nested in it. -/
def forwards (l : Level) : Bool :=
  l.shellArgs?.isSome

/-- The level as it starts a nested session. -/
def enter (l : Level) (phase : Phase) : Level :=
  { l with state := if l.forwards then l.state.link else l.state, phase := phase }

/-- The level after the session nested in it has ended. -/
def leave (l : Level) (result : Except Failure ExitCode) : Level :=
  match l.phase with
  | .nested resume next =>
    { l with
      state := if l.forwards then l.state.unlink else l.state
      phase := .command (resume result) next }
  | _ => l

/-- What one step comes to. -/
inductive Progress where
  /-- The level and the world after it, and whether the outermost session is interrupted. -/
  | moved (level : Level) (world : World) (interrupts : Bool)
  /-- A nested session starts. -/
  | nests (level child : Level) (world : World)
  /-- Nothing can be done until an interrupt or an event, or until the clock shows a time. -/
  | blocked (deadline : Option Nat)

/-- A step that only changes this level. -/
def move (l : Level) (w : World) (phase : Phase) : Progress :=
  .moved (l.goto phase) w false

/-- One step of the session's own plan. -/
def planStep (console : Console) (w : World) (l : Level) : Plan Next → Progress
  | .done (.again buffer) => l.move w (.own (orClose (turn console buffer)))
  | .done (.ended result) => .moved (l.finish result) w false
  | .ask (.write text) next =>
    let (result, w) := w.write l.out text
    l.move w (.own (next result))
  | .ask .flush next =>
    let (result, w) := w.flush l.out
    l.move w (.own (next result))
  | .ask .isCancelled next => l.move w (.own (next l.state.cancelled))
  | .ask .renew next => ({ l with state := l.state.renew } : Level).move w (.own (next ()))
  | .ask .exitValue next => l.move w (.own (next l.exitValue))
  | .ask (.prompt text) next =>
    if l.state.cancelled then l.move w (.own (next (.ok ())))
    else
      let (result, w) := w.startRead text
      l.move w (.own (next result))
  | .ask (.event prompt) next =>
    if l.state.cancelled then l.move w (.own (next (.ok .interrupted)))
    else
      let (reply, w) := w.pollRead prompt
      match reply.answer with
      | some event => .moved (l.goto (.own (next event))) w reply.interrupts
      | none => if reply.interrupts then .moved l w true else .blocked none
  | .ask (.resolve words) next => l.move w (.own (next (console.resolve (.words words))))
  | .ask (.run b) next => l.move w (.command (l.scriptOf console b) next)

/-- Reports words that name no command; it does not matter if that cannot be written. -/
def reportUnresolved (w : World) (l : Level) (e : Failure) : World :=
  (w.write l.err (Text.asLine e.describe)).2

/-- One step of a command, where `next` is the session's plan after it. -/
def scriptStep (console : Console) (w : World) (l : Level)
    (next : Except Failure ExitCode → Plan Next) :
    Command.Script (Except Failure ExitCode) → Progress
  | .done result => l.move w (.own (next result))
  | .ask (.write channel text) more =>
    let (result, w) := w.write (l.outlet channel) text
    l.move w (.command (more result) next)
  | .ask (.flush channel) more =>
    let (result, w) := w.flush (l.outlet channel)
    l.move w (.command (more result) next)
  | .ask .readLine more =>
    let (answer, w) := w.readLine
    l.move w (.command (more answer) next)
  | .ask .isCancelled more => l.move w (.command (more l.state.cancelled) next)
  | .ask .clock more => l.move w (.command (more w.clock) next)
  | .ask (.wait deadline) more =>
    if l.state.cancelled then l.move w (.command (more .cancelled) next)
    else if deadline.any (· ≤ w.clock) then l.move w (.command (more .elapsed) next)
    else .blocked deadline
  | .ask .yield more => l.move w (.command (more ()) next)
  | .ask .calendar more => l.move w (.command (more w.calendar) next)
  | .ask (.setExitValue value) more => (l.setExitValue value).move w (.command (more ()) next)
  | .ask .interrupt more =>
    match l.shellArgs?, ExecutionState.interrupt [l.state] with
    | some _, (had, [state]) =>
      ({ l with state := state } : Level).move w (.command (more had) next)
    | _, _ => l.move w (.command (more false) next)
  | .ask (.nestShell args) more =>
    .nests (l.enter (.nested more next)) (Level.shell console.settings args l.env) w
  | .ask (.nestOnce words) more =>
    match console.resolve (.words words) with
    | .error e => l.move (l.reportUnresolved w e) (.command (more none) next)
    | .ok b =>
      .nests (l.enter (.nested (fun result => more (some result)) next))
        (Level.once b l.out l.err l.env) w
  | .ask (.invoke words) more =>
    match console.resolve (.words words) with
    | .error e => l.move (l.reportUnresolved w e) (.command (more none) next)
    | .ok b =>
      l.move w (.command ((l.scriptOf console b).bind fun result => more (some result)) next)

/-- One step of a session that has no nested one. -/
def step (console : Console) (w : World) (l : Level) : Progress :=
  match l.phase with
  | .own plan => l.planStep console w plan
  | .command script next => l.scriptStep console w next script
  | .idle | .nested .. | .over _ => .blocked none

end Level

end CommandConsole
