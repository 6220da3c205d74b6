import CommandConsole.Application
import Std.Time.DateTime.Timestamp

/-!
# The command line

`main` finds out what `Application` needs to know, and carries out what it says: it reads the
settings file, makes the log file, hands the lines of the standard input to the session whenever it
waits for one, sleeps when it waits for a time, and writes what it has written.
-/

namespace CommandConsole.Main

/-- What a path leads to. -/
def fileAt (path : String) : IO FileContents := do
  try
    return .bytes (← IO.FS.readBinFile path).toList
  catch
    | .noFileOrDirectory .. => return .missing
    | e => return .unreadable ⟨toString e⟩

/-- Makes the log file. -/
def makeLogFile (d : Directories) : IO (Option LogFault) := do
  try
    IO.FS.createDirAll d.logDirectory
  catch e => return some (.directory ⟨toString e⟩)
  try
    IO.FS.writeFile d.logFile ""
    return none
  catch e => return some (.file ⟨toString e⟩)

/-- The variables that matter to the program. -/
def variableNames : List String :=
  ["HOME", "XDG_CONFIG_HOME", "XDG_STATE_HOME", "CTK_CONFIG"]

/-- What the program finds when it starts, files apart. -/
def surroundings (args : List String) : IO Surroundings := do
  let values ← variableNames.mapM fun name => do return (← IO.getEnv name).map (name, ·)
  return { args := args, env := .ofList (values.filterMap id) }

/-- Writes what was written since `shown` calls on the second sink, and all that is new on the
first. -/
def display (w : World) (shown : Nat) : IO World := do
  let (text, next) := w.takeShown
  IO.print text
  IO.eprint (w.second.contentsAfter shown)
  (← IO.getStdout).flush
  return next

/-- Reads bytes up to the end of a line. -/
partial def readBytes (input : IO.FS.Stream) (before : List UInt8) : IO (List UInt8) := do
  match (← input.read 1).toList with
  | [] => return before.reverse
  | b :: _ =>
    if b = Source.newline then return (b :: before).reverse else readBytes input (b :: before)

/-- The source with the next line of the standard input. -/
def feed (source : Source) : IO Source := do
  let bytes ← readBytes (← IO.getStdin) []
  if bytes.getLast? = some Source.newline then return source.feed bytes
  else return (source.feed bytes).close

/-- Runs a session to its end; `start` is when its clock showed zero. -/
partial def converse (r : HostedSession) (shown start : Nat) : IO ExitCode := do
  let r := Activity.Host.setClock ((← IO.monoMsNow) - start) r
  let (why, r) := Activity.Host.advance r
  let world ← display r.run.world shown
  let r := r.onWorld fun _ => world
  let shown := world.second.log.length
  match r.activity.outcome? with
  | some outcome => return r.report outcome
  | none =>
    match why with
    | .gaveWay => converse r shown start
    | .waiting (some time) =>
      IO.sleep (UInt32.ofNat (min (time - world.clock) 60000))
      converse r shown start
    | .waiting none =>
      let source ← feed world.input
      converse (r.onWorld fun w => { w with input := source }) shown start

/-- Runs the program with its settings. -/
def conduct (s : Surroundings) (o : Options) (settings : Settings) : IO Nat := do
  let fault ← if o.logsToFile then makeLogFile s.directories else pure none
  if let some fault := fault then IO.eprintln fault.warning
  let now ← Std.Time.Timestamp.now
  let world :=
    { Application.world { closed := false } with
      epoch := now.toSecondsSinceUnixEpoch.val.toNat
      terminal := .plain { showPrompt := ← (← IO.getStdin).isTty } }
  match Application.course settings s.env world o.job with
  | .ended code w =>
    let _ ← display w 0
    return code
  | .session hosted =>
    match hosted.start with
    | .error e =>
      IO.eprintln (Application.complaint e)
      return 1
    | .ok hosted => return (← converse hosted 0 (← IO.monoMsNow)).status

end CommandConsole.Main

open CommandConsole CommandConsole.Main in
def main (args : List String) : IO UInt32 := do
  let s ← surroundings args
  match s.options with
  | .error stop =>
    if stop.code = 0 then IO.print stop.text else IO.eprint stop.text
    return UInt32.ofNat stop.code
  | .ok o =>
    let path := s.settingsFile o
    match Settings.load path (← fileAt path) with
    | .error e =>
      IO.eprintln (Application.complaint e)
      return 1
    | .ok settings => return UInt32.ofNat (← conduct s o settings)
