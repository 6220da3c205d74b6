import CommandConsole.Stream.Sink
import CommandConsole.Stream.Source
import CommandConsole.Terminal.Event

/-!
# Terminals on plain streams

A `PlainTerminal` shows its prompts on an output and reads lines from a source. A read that was
started goes on even when nobody waits for it any more: it keeps its answer for the next read, so no
line is lost. It takes its line from the source as soon as the line is there.

Results: `takeAnswer?_startRead_answered` (an answer that came while nobody waited is what the next
read gets, and the source is left alone).
-/

namespace CommandConsole

/-- A read that was started. -/
inductive PendingRead where
  /-- Its line is not there yet. -/
  | inFlight
  | answered (answer : Except StreamFault (Option String))

/-- A terminal on streams. -/
structure PlainTerminal where
  showPrompt : Bool := true
  pending : Option PendingRead := none
  /-- How it writes its prompts. -/
  output : Output := {}

namespace PlainTerminal

/-- Writes and flushes a prompt, if prompts are shown. It goes the terminal's own way to the sink,
however a session writes there. -/
def prompt (t : PlainTerminal) (sink : Sink) (text : String) : Except StreamFault Unit × Sink :=
  if t.showPrompt then
    match t.output.write sink text with
    | (.ok (), sink) => sink.flush
    | failed => failed
  else (.ok (), sink)

/-- Lets a read in flight take its line, if the source has one. -/
def advance (t : PlainTerminal) (source : Source) : PlainTerminal × Source :=
  match t.pending with
  | some .inFlight =>
    match source.readLine? with
    | some (answer, source) => ({ t with pending := some (.answered answer) }, source)
    | none => (t, source)
  | _ => (t, source)

/-- Starts a read unless one was started before. -/
def startRead (t : PlainTerminal) (source : Source) : PlainTerminal × Source :=
  ({ t with pending := some (t.pending.getD .inFlight) } : PlainTerminal).advance source

/-- The answer of the started read, if it has come; the next read is then a new one. -/
def takeAnswer? (t : PlainTerminal) :
    Option (Except StreamFault Terminal.Event × PlainTerminal) :=
  match t.pending with
  | some (.answered answer) => some (answer.map Terminal.Event.ofLine?, { t with pending := none })
  | _ => none

/-- A whole read under a prompt: nothing if it has to wait for its line. The prompt may fail, and
then no read is started. -/
def readLine? (t : PlainTerminal) (source : Source) (sink : Sink) (text : String) :
    Option (Except StreamFault Terminal.Event) × PlainTerminal × Source × Sink :=
  match t.prompt sink text with
  | (.error fault, sink) => (some (.error fault), t, source, sink)
  | (.ok (), sink) =>
    let (t, source) := t.startRead source
    match t.takeAnswer? with
    | some (answer, t) => (some answer, t, source, sink)
    | none => (none, t, source, sink)

theorem takeAnswer?_startRead_answered {t : PlainTerminal} {source : Source}
    {answer : Except StreamFault (Option String)} (h : t.pending = some (.answered answer)) :
    (t.startRead source).1.takeAnswer? =
      some (answer.map Terminal.Event.ofLine?, { t with pending := none }) ∧
      (t.startRead source).2 = source := by
  simp [startRead, advance, takeAnswer?, h]

end PlainTerminal

end CommandConsole
