import CommandConsole.Failure
import CommandConsole.Text.Newline
import CommandConsole.Text.Utf8

/-!
# Output

A `Sink` takes what is written to it and remembers every call: what was written or flushed, and
whether it was taken. Which calls fail depends on their number alone (`Faults`). An empty text
makes no call, and a failed write leaves nothing behind.

An `Output` is a way to write to a sink: as the text is, or with a carriage return put before each
bare newline. A text is one write call either way.

Results: `write_empty`, `contents_write_refused` (a failed write leaves nothing).
-/

namespace CommandConsole

/-- Which write calls and which flush calls fail, by their number from 0. -/
structure Faults where
  onWrite : Nat → Option StreamFault := fun _ => none
  onFlush : Nat → Option StreamFault := fun _ => none

namespace Faults

/-- Every write from number `n` on fails. -/
def writesFrom (n : Nat) (fault : StreamFault) : Faults :=
  { onWrite := fun k => if n ≤ k then some fault else none }

/-- Only write number `n` fails. -/
def writeAt (n : Nat) (fault : StreamFault) : Faults :=
  { onWrite := fun k => if k = n then some fault else none }

/-- Every flush fails. -/
def flushes (fault : StreamFault) : Faults :=
  { onFlush := fun _ => some fault }

/-- The calls that either fails fail. -/
def union (a b : Faults) : Faults where
  onWrite n := (a.onWrite n).or (b.onWrite n)
  onFlush n := (a.onFlush n).or (b.onFlush n)

end Faults

/-- What one write holds: text, or bytes that need not be text. -/
inductive Chunk where
  | text (s : String)
  | raw (bytes : List UInt8)
  deriving DecidableEq, Repr

/-- The bytes of a chunk. -/
def Chunk.bytes : Chunk → List UInt8
  | text s => Text.Utf8.encode s
  | raw bytes => bytes

/-- A call on a sink, and whether it was taken. -/
inductive SinkCall where
  | write (chunk : Chunk) (taken : Bool)
  | flush (taken : Bool)
  deriving DecidableEq, Repr

/-- The chunk that a call left in the sink. -/
def SinkCall.kept? : SinkCall → Option Chunk
  | write chunk taken => if taken then some chunk else none
  | flush _ => none

/-- A place that text is written to: its calls so far, the last one first, and their numbers. -/
structure Sink where
  faults : Faults := {}
  writes : Nat := 0
  flushes : Nat := 0
  log : List SinkCall := []

namespace Sink

/-- Writes one chunk in one call. -/
def put (s : Sink) (chunk : Chunk) : Except StreamFault Unit × Sink :=
  match s.faults.onWrite s.writes with
  | some fault =>
    (.error fault, { s with writes := s.writes + 1, log := .write chunk false :: s.log })
  | none => (.ok (), { s with writes := s.writes + 1, log := .write chunk true :: s.log })

/-- Writes a text in one call; an empty text makes none. -/
def write (s : Sink) (text : String) : Except StreamFault Unit × Sink :=
  if text.isEmpty then (.ok (), s) else s.put (.text text)

/-- Asks for all that was written to reach its end. -/
def flush (s : Sink) : Except StreamFault Unit × Sink :=
  match s.faults.onFlush s.flushes with
  | some fault => (.error fault, { s with flushes := s.flushes + 1, log := .flush false :: s.log })
  | none => (.ok (), { s with flushes := s.flushes + 1, log := .flush true :: s.log })

/-- The sink with all that it holds discarded. -/
def clear (s : Sink) : Sink :=
  { s with log := [] }

/-- The chunks of some calls, given last first, in the order they were written. -/
def chunksOf (log : List SinkCall) : List Chunk :=
  (log.filterMap SinkCall.kept?).reverse

/-- The text of some calls, given last first; bytes that are no text show as U+FFFD. -/
def textOf (log : List SinkCall) : String :=
  Text.Utf8.decodeLossy ((chunksOf log).flatMap Chunk.bytes)

/-- All that the sink holds, as text. -/
def contents (s : Sink) : String :=
  textOf s.log

/-- What the sink took after its first `calls` calls, as text. -/
def contentsAfter (s : Sink) (calls : Nat) : String :=
  textOf (s.log.take (s.log.length - calls))

@[simp] theorem write_empty (s : Sink) : s.write "" = (.ok (), s) := rfl

theorem contents_write_refused {s : Sink} {text : String} {fault : StreamFault}
    (h : s.faults.onWrite s.writes = some fault) : (s.write text).2.contents = s.contents := by
  unfold write
  split
  · rfl
  · simp [put, h, contents, textOf, chunksOf, SinkCall.kept?]

end Sink

/-- How a text goes to a sink: with a carriage return before each bare newline, or as it is. -/
structure Output where
  returns : Bool := false
  deriving DecidableEq, Repr

namespace Output

/-- What reaches the sink for a text. -/
def translate (o : Output) (text : String) : String :=
  if o.returns then Text.withReturns text else text

/-- Writes a text. -/
def write (o : Output) (sink : Sink) (text : String) : Except StreamFault Unit × Sink :=
  sink.write (o.translate text)

end Output

end CommandConsole
