import CommandConsole.Stream.Sink
import CommandConsole.Stream.Source
import CommandConsole.Terminal.Scripted
import CommandConsole.Terminal.Plain

/-!
# What a session works on

The streams, the terminal and the clock that a session and all sessions nested in it share. A
terminal writes to the first of the two sinks.
-/

namespace CommandConsole

/-- The two sinks. -/
inductive SinkName where
  | first
  | second
  deriving DecidableEq, Repr

/-- Where a session writes: which sink, and how. -/
structure Outlet where
  sink : SinkName
  output : Output := {}
  deriving DecidableEq, Repr

/-- The terminal of a shell. -/
inductive TerminalKind where
  | scripted (t : ScriptedTerminal)
  | plain (t : PlainTerminal)

/-- What sessions share. -/
structure World where
  first : Sink := {}
  second : Sink := {}
  input : Source := {}
  terminal : TerminalKind := .scripted {}
  /-- The clock, in milliseconds. -/
  clock : Nat := 0
  /-- Seconds since 1970 when the clock showed zero. -/
  epoch : Nat := 0
  /-- How many calls on the first sink were shown to the outside. -/
  shown : Nat := 0

namespace World

/-- The sink of a name. -/
def sink (w : World) : SinkName → Sink
  | .first => w.first
  | .second => w.second

/-- The world with another sink of a name. -/
def setSink (w : World) (name : SinkName) (sink : Sink) : World :=
  match name with
  | .first => { w with first := sink }
  | .second => { w with second := sink }

/-- Writes a text to an outlet. -/
def write (w : World) (outlet : Outlet) (text : String) : Except StreamFault Unit × World :=
  let (result, sink) := outlet.output.write (w.sink outlet.sink) text
  (result, w.setSink outlet.sink sink)

/-- Flushes the sink of an outlet. -/
def flush (w : World) (outlet : Outlet) : Except StreamFault Unit × World :=
  let (result, sink) := (w.sink outlet.sink).flush
  (result, w.setSink outlet.sink sink)

/-- Reads a line of the input. -/
def readLine (w : World) : Except StreamFault (Option String) × World :=
  let (answer, input) := w.input.readLine
  (answer, { w with input := input })

/-- What the first sink took since it was last shown, and the world in which it is shown. -/
def takeShown (w : World) : String × World :=
  (w.first.contentsAfter w.shown, { w with shown := w.first.log.length })

/-- The date and time of day, in seconds since 1970. -/
def calendar (w : World) : Nat :=
  w.epoch + w.clock / 1000

/-- What became of a request to the terminal: an answer, or none yet; and whether the outermost
session is interrupted on the way. -/
structure TerminalAnswer (α : Type) where
  answer : Option (Except StreamFault α)
  interrupts : Bool := false

/-- Shows a prompt and starts to read a line. -/
def startRead (w : World) (prompt : String) : Except StreamFault Unit × World :=
  match w.terminal with
  | .scripted _ => (.ok (), w)
  | .plain t =>
    match t.prompt w.first prompt with
    | (.error fault, sink) => (.error fault, { w with first := sink })
    | (.ok (), sink) =>
      let (t, input) := t.startRead w.input
      (.ok (), { w with first := sink, terminal := .plain t, input := input })

/-- Looks whether the line has come. -/
def pollRead (w : World) (prompt : String) : TerminalAnswer Terminal.Event × World :=
  match w.terminal with
  | .plain t =>
    let (t, input) := t.advance w.input
    match t.takeAnswer? with
    | some (answer, t) => (⟨some answer, false⟩, { w with terminal := .plain t, input := input })
    | none => (⟨none, false⟩, { w with terminal := .plain t, input := input })
  | .scripted t =>
    match t.next? with
    | none => (⟨none, false⟩, w)
    | some (cue, t) =>
      let (output, w) := w.takeShown
      let t := { t with played := ⟨cue, prompt, output⟩ :: t.played }
      let w := { w with terminal := .scripted t }
      match cue with
      | .report event => (⟨some event, false⟩, w)
      | .interruptSession => (⟨none, true⟩, w)
      | .interruptThenLine text => (⟨some (.ok (.line text)), true⟩, w)

/-- The entries of a script played so far. -/
def history (w : World) : List PlayedCue :=
  match w.terminal with
  | .scripted t => t.history
  | .plain _ => []

/-- Changes the terminal if it plays a script. -/
def onScript (w : World) (f : ScriptedTerminal → ScriptedTerminal) : World :=
  match w.terminal with
  | .scripted t => { w with terminal := .scripted (f t) }
  | .plain _ => w

end World

end CommandConsole
