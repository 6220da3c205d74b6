import CommandConsole.Command.Builtin
import CommandConsole.Options
import CommandConsole.Paths
import CommandConsole.Session.Hosted
import CommandConsole.Settings

/-!
# The program

What the program does from its arguments to its exit code. It reads its arguments, loads its
settings, makes its log file where it needs one, and then lists the commands, runs one command, or
runs a shell, on a console with the built-in commands. A session is run as an activity, and its exit
value is the program's exit code.

What lies outside (arguments, variables, files, input) is a `Surroundings`, what the program leaves
behind is a `Report`. A log file that cannot be made is only warned about.

Results: `run_stopped`, `run_refused` (a program that does not start leaves no log file).
-/

namespace CommandConsole

/-- Why the log file cannot be made. -/
inductive LogFault where
  | directory (fault : StreamFault)
  | file (fault : StreamFault)
  deriving DecidableEq, Repr

/-- The warning that the log file cannot be made. -/
def LogFault.warning : LogFault → String
  | directory fault => "Warning: Could not create log directory: " ++ fault.text
  | file fault => "Warning: Could not create log file: " ++ fault.text

/-- What the program finds when it starts. -/
structure Surroundings where
  args : List String := []
  env : Environment := {}
  /-- The home directory of the user's account, for when no variable names one. -/
  accountHome : Option String := none
  file : String → FileContents := fun _ => .missing
  /-- What keeps the log file from being made. -/
  logFault : Option LogFault := none
  input : Source := {}

namespace Surroundings

/-- The user's directories. -/
def directories (s : Surroundings) : Directories where
  home := ((s.env.get? "HOME").filter (!·.isEmpty)).or s.accountHome
  config := s.env.get? "XDG_CONFIG_HOME"
  state := s.env.get? "XDG_STATE_HOME"

/-- The options that the arguments give. -/
def options (s : Surroundings) : Except Options.Stop Options :=
  Options.ofArguments s.args (s.env.get? "CTK_CONFIG")

/-- The settings file to use. -/
def settingsFile (s : Surroundings) (o : Options) : String :=
  o.config.getD s.directories.settingsFile

end Surroundings

/-- What the program leaves behind. -/
structure Report where
  code : Nat
  out : String := ""
  err : String := ""
  /-- The log file that was made. -/
  logFile : Option String := none
  deriving DecidableEq, Repr

namespace Application

/-- What the program writes about a failure to start. -/
def complaint (e : Failure) : String :=
  "ctk: " ++ e.message

/-- The console of the program. -/
def console (settings : Settings) : Console where
  registry := ⟨[Builtin.bundle]⟩
  settings := settings.shell

/-- Writes text that goes out as it is. -/
def out : Outlet :=
  ⟨.first, {}⟩

/-- Writes errors. -/
def err : Outlet :=
  ⟨.second, {}⟩

/-- What the program comes to after it has its settings. -/
inductive Course where
  /-- It ends at once. -/
  | ended (code : Nat) (world : World)
  /-- It runs a session. -/
  | session (hosted : HostedSession)

/-- Runs a session as an activity. -/
def activity (settings : Settings) (run : Run) : HostedSession :=
  { run := run, activity := { shutdownWait := settings.shutdownWait } }

/-- What the program does for a job, given the world to do it in. -/
def course (settings : Settings) (env : Environment) (world : World) : Job → Course
  | .list =>
    match world.write out (console settings).reference.listing with
    | (.ok (), world) => .ended 0 world
    | (.error fault, world) =>
      .ended 1 (world.write err (Text.asLine (complaint (.stream fault)))).2
  | .perform input =>
    match Run.ofCommand (console settings) world out err env input with
    | .error world => .ended 1 world
    | .ok (_, run) => .session (activity settings run)
  | .shell => .session (activity settings (Run.ofShell (console settings) world [] env))

/-- The exit code and the world at the end of a session; a session that never ends has none. -/
def finish (r : HostedSession) : Option ExitCode × World :=
  match r.start with
  | .error _ => (some ExitCode.failed, r.run.world)
  | .ok r =>
    let (outcome, r) := Activity.Host.waitUntil none r
    (outcome.map r.report, r.run.world)

/-- The world of a session of the program, whose terminal shows no prompts. -/
def world (input : Source) : World where
  input := input
  terminal := .plain { showPrompt := false }

/-- Whether and where the log goes to a file: its path if it could be made, and what is written
about it if not. -/
def logFile (s : Surroundings) (o : Options) : Option String × Option String :=
  if o.logsToFile then
    match s.logFault with
    | none => (some s.directories.logFile, none)
    | some fault => (none, some fault.warning)
  else (none, none)

/-- The report of a program that has its settings. -/
def conduct (s : Surroundings) (o : Options) (settings : Settings) : Report :=
  let (log, warning) := logFile s o
  let start := world s.input
  let start := warning.elim start fun text => (start.write err (Text.asLine text)).2
  let report (code : Nat) (w : World) : Report := ⟨code, w.first.contents, w.second.contents, log⟩
  match course settings s.env start o.job with
  | .ended code w => report code w
  | .session hosted =>
    let (code, w) := finish hosted
    report (code.getD ExitCode.failed).status w

/-- The whole program. -/
def run (s : Surroundings) : Report :=
  match s.options with
  | .error stop =>
    if stop.code = 0 then { code := 0, out := stop.text }
    else { code := stop.code, err := stop.text }
  | .ok o =>
    let path := s.settingsFile o
    match Settings.load path (s.file path) with
    | .error e => { code := 1, err := Text.asLine (complaint e) }
    | .ok settings => conduct s o settings

theorem run_stopped {s : Surroundings} {stop : Options.Stop} (h : s.options = .error stop) :
    (run s).code = stop.code ∧ (run s).logFile = none := by
  unfold run
  rw [h]
  by_cases hc : stop.code = 0 <;> simp [hc]

theorem run_refused {s : Surroundings} {o : Options} {e : Failure} (ho : s.options = .ok o)
    (h : Settings.load (s.settingsFile o) (s.file (s.settingsFile o)) = .error e) :
    run s = { code := 1, err := Text.asLine (complaint e) } := by
  simp [run, ho, h]

end Application

end CommandConsole
