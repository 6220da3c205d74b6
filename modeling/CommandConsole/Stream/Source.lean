import CommandConsole.Failure
import CommandConsole.Text.Line
import CommandConsole.Text.Utf8

/-!
# Input

A `Source` holds what was not read yet, and knows whether more may come. It holds bytes, and a
failure of the stream at each place where reading fails. Reading a line takes the bytes up to and
with the next newline, or the rest of a closed source, or all up to and with the next failure. The
answer is the text without its line ending, a fault if the stream failed or the bytes are not UTF-8
(they are gone all the same), or `none` at the end. While an open source holds no whole line there
is no answer yet.
-/

namespace CommandConsole

/-- What a source holds at one place: a byte, or a failure of the stream. -/
inductive Source.Item where
  | byte (b : UInt8)
  | fault (e : StreamFault)
  deriving DecidableEq, Repr

/-- What is to be read. -/
structure Source where
  rest : List Source.Item := []
  closed : Bool := true
  deriving DecidableEq, Repr

namespace Source

/-- The byte that ends a line. -/
def newline : UInt8 := 10

/-- The fault of a line that is not text. -/
def notText : StreamFault :=
  ⟨"stream did not contain valid UTF-8"⟩

instance : Coe (List UInt8) (List Item) :=
  ⟨List.map .byte⟩

/-- Whether a read goes no further. -/
def Item.ends : Item → Bool
  | byte b => b == newline
  | fault _ => true

/-- The byte at a place where reading does not fail. -/
def Item.byte? : Item → Option UInt8
  | byte b => some b
  | fault _ => none

/-- A source that holds a text and then ends. -/
def ofText (s : String) : Source :=
  ⟨Text.Utf8.encode s, true⟩

/-- The source with more at its end. -/
def feed (s : Source) (items : List Item) : Source :=
  { s with rest := s.rest ++ items }

/-- The source with nothing more to come. -/
def close (s : Source) : Source :=
  { s with closed := true }

/-- The answer for one line, its ending included. A failure of the stream is all that is left of
its line. -/
def lineOf (piece : List Item) : Except StreamFault String :=
  match piece.getLast? with
  | some (.fault e) => .error e
  | _ =>
    match Text.Utf8.decode? (piece.filterMap Item.byte?) with
    | some text => .ok (String.ofList (Text.chomp text.toList))
    | none => .error notText

/-- Reads a line: the answer and the source after it, or nothing while the line is unfinished. -/
def readLine? (s : Source) : Option (Except StreamFault (Option String) × Source) :=
  let (piece, rest) := Text.spanThrough Item.ends s.rest
  if Text.isEnded Item.ends piece ∨ s.closed then
    let answer := if piece.isEmpty then .ok none else (lineOf piece).map some
    some (answer, { s with rest := rest })
  else none

/-- Reads a line, an unfinished one as if nothing more came. -/
def readLine (s : Source) : Except StreamFault (Option String) × Source :=
  match s.close.readLine? with
  | some (answer, next) => (answer, { next with closed := s.closed })
  | none => (.ok none, s)

end Source

end CommandConsole
