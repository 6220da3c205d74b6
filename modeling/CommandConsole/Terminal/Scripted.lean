import CommandConsole.Terminal.Event

/-!
# Terminals that play a script

A `ScriptedTerminal` reports the events of a list in order. Besides what a terminal can report, an
entry of the list may interrupt the session from outside while it reads: without an answer after
it, or together with a line that is read all the same. After the last entry the terminal waits for
more or reports the end of input, as often as it is asked.
-/

namespace CommandConsole

/-- One entry of a script. -/
inductive Cue where
  | report (event : Except StreamFault Terminal.Event)
  /-- Interrupt the outermost session; this read never answers. -/
  | interruptSession
  /-- Interrupt the outermost session, then report a line. -/
  | interruptThenLine (text : String)

/-- An entry that was played: under which prompt, and what was written since the one before. -/
structure PlayedCue where
  cue : Cue
  prompt : String
  output : String

/-- A terminal that plays a script. -/
structure ScriptedTerminal where
  cues : List Cue := []
  ended : Bool := true
  played : List PlayedCue := []

namespace ScriptedTerminal

/-- The next entry and the terminal after it; nothing while it waits for more. -/
def next? (t : ScriptedTerminal) : Option (Cue × ScriptedTerminal) :=
  match t.cues with
  | cue :: rest => some (cue, { t with cues := rest })
  | [] => if t.ended then some (.report (.ok .endOfInput), t) else none

/-- The terminal with one more entry at the end of its script. -/
def feed (t : ScriptedTerminal) (cue : Cue) : ScriptedTerminal :=
  { t with cues := t.cues ++ [cue] }

/-- The terminal with nothing more to come after its script. -/
def close (t : ScriptedTerminal) : ScriptedTerminal :=
  { t with ended := true }

/-- The entries played so far, in order. -/
def history (t : ScriptedTerminal) : List PlayedCue :=
  t.played.reverse

end ScriptedTerminal

end CommandConsole
