import CommandConsole.Terminal.Plain

/-!
# A terminal with its streams

An `AttachedTerminal` is a terminal on streams together with the source it reads from and the sink
it writes to. Text may arrive at the source while a read is in flight; the read takes its line as
soon as it is whole.
-/

namespace CommandConsole

/-- A terminal on streams with the streams. -/
structure AttachedTerminal where
  terminal : PlainTerminal := {}
  source : Source := {}
  sink : Sink := {}

namespace AttachedTerminal

/-- Reads a line under a prompt; nothing if the line is not there yet, and then the read goes on. -/
def readLine? (a : AttachedTerminal) (prompt : String) :
    Option (Except StreamFault Terminal.Event) × AttachedTerminal :=
  let (answer, terminal, source, sink) := a.terminal.readLine? a.source a.sink prompt
  (answer, ⟨terminal, source, sink⟩)

/-- Reads a line from the source itself. -/
def readRaw (a : AttachedTerminal) : Except StreamFault (Option String) × AttachedTerminal :=
  let (answer, source) := a.source.readLine
  (answer, { a with source := source })

/-- Writes a line. -/
def print (a : AttachedTerminal) (text : String) : Except StreamFault Unit × AttachedTerminal :=
  let (result, sink) := a.terminal.output.write a.sink (Text.asLine text)
  (result, { a with sink := sink })

/-- Flushes the sink. -/
def flush (a : AttachedTerminal) : Except StreamFault Unit × AttachedTerminal :=
  let (result, sink) := a.sink.flush
  (result, { a with sink := sink })

/-- Lets a read in flight take its line. -/
def settle (a : AttachedTerminal) : AttachedTerminal :=
  let (terminal, source) := a.terminal.advance a.source
  { a with terminal := terminal, source := source }

/-- Text arrives at the source. -/
def receive (a : AttachedTerminal) (text : String) : AttachedTerminal :=
  { a with source := a.source.feed (Text.Utf8.encode text) }.settle

/-- The source ends. -/
def close (a : AttachedTerminal) : AttachedTerminal :=
  { a with source := a.source.close }.settle

end AttachedTerminal

end CommandConsole
