import CommandConsole.Proofs.Session.Demand
import CommandConsole.Proofs.Stream.Contents

/-!
# What is said under a shell

A shell, the sessions under it and its terminal all make their calls on one sink. An `Utterance` is
such a call as its maker has it: a text that a session writes, a prompt, or a flush. How a text
reaches the sink is up to the shell's settings, and whether a call is taken to the sink, which goes
by the number of the call.

So a world can be stripped of all that was written to that sink (`World.bare`): whatever is asked
of it next, it answers as before and comes to the same, with carriage returns or without.

Results: `agrees_write`, `agrees_startRead` and the like (a call in a world and in the bare one),
`carryOut_bare` (a demand there), `says_carryOut` (what a demand leaves in the sink).
-/

namespace CommandConsole

/-- A call that a session or the terminal makes on the sink of a shell. -/
inductive Utterance where
  /-- A session writes a text. -/
  | said (text : String) (taken : Bool)
  /-- The terminal writes a prompt. -/
  | prompted (text : String) (taken : Bool)
  | flushed (taken : Bool)
  deriving DecidableEq, Repr

/-- The call as the sink gets it: the text of a session with carriage returns or without, and a
prompt as it is. -/
def Utterance.call (returns : Bool) : Utterance → SinkCall
  | said text taken => .write (.text ((⟨returns⟩ : Output).translate text)) taken
  | prompted text taken => .write (.text text) taken
  | flushed taken => .flush taken

example : (Utterance.said "a\n\r\nb" true).call true = .write (.text "a\r\n\r\nb") true := by decide

example : (Utterance.prompted "a\nb" true).call true = .write (.text "a\nb") true := by decide

/-! ## Sinks -/

namespace Sink

variable {returns : Bool} {s t : Sink} {text : String}

/-- The sink after a call. -/
def logs (s : Sink) : SinkCall → Sink
  | .write chunk taken => { s with writes := s.writes + 1, log := .write chunk taken :: s.log }
  | .flush taken => { s with flushes := s.flushes + 1, log := .flush taken :: s.log }

/-- The sink after all that is said. -/
def hear (returns : Bool) (s : Sink) (said : List Utterance) : Sink :=
  said.foldl (fun s u => s.logs (u.call returns)) s

/-- What is said by a text. -/
def saying (s : Sink) (text : String) : List Utterance :=
  if text = "" then [] else [.said text s.takesNext]

/-- What is said by a flush. -/
def flushing (s : Sink) : Utterance :=
  .flushed (s.faults.onFlush s.flushes).isNone

theorem log_hear (returns : Bool) (s : Sink) (said : List Utterance) :
    (s.hear returns said).log = (said.map (Utterance.call returns)).reverse ++ s.log := by
  induction said generalizing s with
  | nil => rfl
  | cons u rest ih =>
    have hlog : (s.logs (u.call returns)).log = u.call returns :: s.log := by cases u <;> rfl
    rw [hear, List.foldl_cons, ← hear, ih, hlog, List.map_cons, List.reverse_cons,
      List.append_assoc]
    rfl

/-- What a sink holds, and how a text gets there, does not change how it counts its calls. -/
theorem clear_hear {returns' : Bool} (h : s.clear = t.clear) (said : List Utterance) :
    (s.hear returns said).clear = (t.hear returns' said).clear := by
  induction said generalizing s t with
  | nil => exact h
  | cons u rest ih =>
    have hone : (s.logs (u.call returns)).clear = (t.logs (u.call returns')).clear := calc
      (s.logs (u.call returns)).clear = (s.clear.logs (u.call returns')).clear := by cases u <;> rfl
      _ = (t.clear.logs (u.call returns')).clear := by rw [h]
      _ = (t.logs (u.call returns')).clear := by cases u <;> rfl
    exact ih hone

theorem write_of_ne (h : text ≠ "") : s.write text =
    match s.faults.onWrite s.writes with
    | some fault => (.error fault, s.logs (.write (.text text) false))
    | none => (.ok (), s.logs (.write (.text text) true)) := by
  rw [write, if_neg (by simpa using h), put]
  cases s.faults.onWrite s.writes <;> rfl

/-- **A session's text.** -/
theorem write_eq (returns : Bool) (s : Sink) (text : String) :
    (⟨returns⟩ : Output).write s text =
      ((s.clear.write text).1, s.hear returns (s.saying text)) := by
  rw [Output.write]
  by_cases h : text = ""
  · rw [Output.translate_eq_empty_iff.mpr h, h]
    rfl
  · have htranslated : (⟨returns⟩ : Output).translate text ≠ "" := by
      rwa [ne_eq, Output.translate_eq_empty_iff]
    rw [write_of_ne htranslated, write_of_ne h, saying, if_neg h, takesNext]
    simp only [clear]
    cases s.faults.onWrite s.writes <;> rfl

theorem flush_eq (returns : Bool) (s : Sink) :
    s.flush = (s.clear.flush.1, s.hear returns [s.flushing]) := by
  unfold flush clear hear flushing
  cases s.faults.onFlush s.flushes <;> rfl

end Sink

namespace PlainTerminal

/-- What is said by a prompt. -/
def prompting (t : PlainTerminal) (s : Sink) (text : String) : List Utterance :=
  if t.showPrompt then
    if t.output.translate text = "" then [s.flushing]
    else if s.takesNext then [.prompted (t.output.translate text) true, s.flushing]
    else [.prompted (t.output.translate text) false]
  else []

/-- **A prompt.** -/
theorem prompt_eq (returns : Bool) (t : PlainTerminal) (s : Sink) (text : String) :
    t.prompt s text = ((t.prompt s.clear text).1, s.hear returns (t.prompting s text)) := by
  unfold prompt prompting
  cases t.showPrompt with
  | false => rfl
  | true =>
    simp only [if_true, Output.write]
    by_cases h : t.output.translate text = ""
    · rw [if_pos h, h]
      exact Sink.flush_eq returns s
    · rw [if_neg h, Sink.write_of_ne h, Sink.write_of_ne h, Sink.takesNext]
      simp only [Sink.clear]
      cases s.faults.onWrite s.writes with
      | some fault => rfl
      | none =>
        simp only [Option.isNone_none, if_true]
        rw [Sink.flush_eq returns, Sink.flush_eq returns (Sink.logs _ _)]
        rfl

end PlainTerminal

/-! ## Worlds -/

/-- The terminal without the entries of its script that it has played. -/
def TerminalKind.bare : TerminalKind → TerminalKind
  | .scripted t => .scripted { t with played := [] }
  | .plain t => .plain t

namespace World

variable {returns : Bool} {w : World}

/-- The world without what was written to its first sink, and without what was shown of it. -/
def bare (w : World) : World :=
  { w with first := w.first.clear, terminal := w.terminal.bare, shown := 0 }

/-- What is said by the terminal when it starts to read. -/
def prompting (w : World) (text : String) : List Utterance :=
  match w.terminal with
  | .scripted _ => []
  | .plain t => t.prompting w.first text

/-- The world after calls on its first sink. -/
def hear (returns : Bool) (w : World) (said : List Utterance) : World :=
  { w with first := w.first.hear returns said }

@[simp] theorem bare_bare (w : World) : w.bare.bare = w.bare := by
  obtain ⟨first, second, input, terminal, clock, epoch, shown⟩ := w
  cases terminal <;> rfl

theorem bare_hear {returns' : Bool} {w w' : World} (h : w.bare = w'.bare) (said : List Utterance) :
    (w.hear returns said).bare = (w'.hear returns' said).bare := by
  have hfirst : w.first.clear = w'.first.clear := congrArg World.first h
  have hclear : (w.first.hear returns said).clear = (w'.first.hear returns' said).clear :=
    Sink.clear_hear hfirst said
  calc (w.hear returns said).bare
      = { w.bare with first := (w.first.hear returns said).clear } := rfl
    _ = { w'.bare with first := (w'.first.hear returns' said).clear } := by rw [h, hclear]

/-- The calls on the sinks between two moments are those of what was said, on the first one. -/
structure Told (returns : Bool) (w : World) (said : List Utterance) (w' : World) : Prop where
  first : w'.first = w.first.hear returns said
  second : w'.second = w.second

theorem told_nil (returns : Bool) (w : World) : w.Told returns [] w :=
  ⟨rfl, rfl⟩

theorem Told.log {w w' : World} {said : List Utterance} (h : w.Told returns said w') :
    w'.first.log = (said.map (Utterance.call returns)).reverse ++ w.first.log := by
  rw [h.first, Sink.log_hear]

theorem Told.trans {w w' w'' : World} {said more : List Utterance} (h : w.Told returns said w')
    (hmore : w'.Told returns more w'') : w.Told returns (said ++ more) w'' where
  first := by rw [hmore.first, h.first, Sink.hear, Sink.hear, Sink.hear, List.foldl_append]
  second := by rw [hmore.second, h.second]

/-- A call in a world comes to the same as one in the bare world, with what is said on the way. -/
structure Agrees {α : Type} (returns : Bool) (w : World) (said : List Utterance)
    (called bareCalled : α × World) : Prop where
  answer : called.1 = bareCalled.1
  world : called.2.bare = bareCalled.2.bare
  told : w.Told returns said called.2

theorem agrees_write (returns : Bool) (w : World) (text : String) :
    w.Agrees returns (w.first.saying text) (w.write (.ofShell returns) text)
      (w.bare.write (.ofShell false) text) := by
  have hwrite (returns : Bool) (w : World) : w.write (.ofShell returns) text =
      ((w.first.clear.write text).1, w.hear returns (w.first.saying text)) :=
    congrArg (fun p => (p.1, { w with first := p.2 })) (Sink.write_eq returns w.first text)
  rw [hwrite, hwrite]
  exact ⟨rfl, bare_hear (bare_bare w).symm _, rfl, rfl⟩

theorem agrees_flush (returns : Bool) (w : World) :
    w.Agrees returns [w.first.flushing] (w.flush (.ofShell returns))
      (w.bare.flush (.ofShell false)) := by
  have hflush (returns returns' : Bool) (w : World) : w.flush (.ofShell returns') =
      (w.first.clear.flush.1, w.hear returns [w.first.flushing]) :=
    congrArg (fun p => (p.1, { w with first := p.2 })) (Sink.flush_eq returns w.first)
  rw [hflush returns, hflush false]
  exact ⟨rfl, bare_hear (bare_bare w).symm _, rfl, rfl⟩

theorem agrees_readLine (returns : Bool) (w : World) :
    w.Agrees returns [] w.readLine w.bare.readLine := by
  refine ⟨rfl, ?_, rfl, rfl⟩
  exact (bare_bare { w with input := w.input.readLine.2 }).symm

/-- A terminal on streams starts to read. -/
theorem startRead_hear (returns : Bool) {t : PlainTerminal} (ht : w.terminal = .plain t)
    (text : String) : w.startRead text =
      match (t.prompt w.first.clear text).1 with
      | .error fault => (.error fault, w.hear returns (w.prompting text))
      | .ok () => (.ok (), ({ w with
          terminal := .plain (t.startRead w.input).1
          input := (t.startRead w.input).2 } : World).hear returns (w.prompting text)) := by
  obtain ⟨first, second, input, terminal, clock, epoch, shown⟩ := w
  cases ht
  simp only [startRead, prompting]
  rw [PlainTerminal.prompt_eq returns]
  cases (t.prompt first.clear text).1 <;> rfl

theorem agrees_startRead (returns : Bool) (w : World) (text : String) :
    w.Agrees returns (w.prompting text) (w.startRead text) (w.bare.startRead text) := by
  cases ht : w.terminal with
  | scripted t =>
    have hstart : w.startRead text = (.ok (), w) := by rw [startRead, ht]
    have hbare : w.bare.startRead text = (.ok (), w.bare) := by
      simp only [startRead, bare, ht, TerminalKind.bare]
    rw [hstart, hbare, prompting, ht]
    exact ⟨rfl, (bare_bare w).symm, rfl, rfl⟩
  | plain t =>
    have hbare : w.bare.terminal = .plain t := by simp only [bare, ht, TerminalKind.bare]
    have hsaid : w.bare.prompting text = w.prompting text := by
      simp only [prompting, ht, hbare]
      rfl
    rw [startRead_hear returns ht, startRead_hear false hbare, hsaid]
    have hclear : w.bare.first.clear = w.first.clear := rfl
    rw [hclear]
    cases (t.prompt w.first.clear text).1 with
    | error fault => exact ⟨rfl, bare_hear (bare_bare w).symm _, rfl, rfl⟩
    | ok =>
      refine ⟨rfl, ?_, rfl, rfl⟩
      simp only
      refine bare_hear ?_ _
      rfl

theorem next?_bare (t : ScriptedTerminal) : ({ t with played := [] } : ScriptedTerminal).next? =
    t.next?.map fun p => (p.1, { p.2 with played := [] }) := by
  obtain ⟨cues, ended, played⟩ := t
  cases cues with
  | cons cue rest => rfl
  | nil => cases ended <;> rfl

theorem agrees_pollRead (returns : Bool) (w : World) (text : String) :
    w.Agrees returns [] (w.pollRead text) (w.bare.pollRead text) := by
  cases ht : w.terminal with
  | plain t =>
    have hbare : w.bare.terminal = .plain t := by simp only [bare, ht, TerminalKind.bare]
    rw [pollRead, pollRead, ht, hbare]
    simp only
    have hinput : w.bare.input = w.input := rfl
    rw [hinput]
    cases (t.advance w.input).1.takeAnswer? <;> exact ⟨rfl, rfl, rfl, rfl⟩
  | scripted t =>
    have hbare : w.bare.terminal = .scripted { t with played := [] } := by
      simp only [bare, ht, TerminalKind.bare]
    rw [pollRead, pollRead, ht, hbare]
    simp only [next?_bare]
    cases t.next? with
    | none => exact ⟨rfl, (bare_bare w).symm, rfl, rfl⟩
    | some p =>
      obtain ⟨cue, t'⟩ := p
      cases cue <;> exact ⟨rfl, rfl, rfl, rfl⟩

end World

/-! ## Demands -/

/-- What is said when a demand is met. -/
def Demand.utterances (w : World) : Demand → List Utterance
  | say text _ => w.first.saying text
  | flush _ => [w.first.flushing]
  | prompt text _ => w.prompting text
  | _ => []

theorem Demand.utterances_bare (w : World) (d : Demand) : d.utterances w.bare = d.utterances w := by
  cases d with
  | prompt text next =>
    obtain ⟨first, second, input, terminal, clock, epoch, shown⟩ := w
    cases terminal <;> rfl
  | _ => rfl

namespace Run

variable {returns : Bool} {w w' : World} {d : Demand} {levels : List Level} {interrupts : Bool}

/-- What a step comes to, without what it writes and how. -/
def Progress.bare : Progress → Progress
  | .moved levels w interrupts => .moved (levels.map (Level.under false)) w.bare interrupts
  | .blocked deadline => .blocked deadline

@[simp] theorem map_under_under (b b' : Bool) (levels : List Level) :
    (levels.map (Level.under b)).map (Level.under b') = levels.map (Level.under b') := by
  rw [List.map_map]
  rfl

theorem bare_of_agrees {α : Type} {called bareCalled : α × World} {said : List Utterance}
    (h : w.Agrees returns said called bareCalled) (next : α → List Level) (interrupts : Bool) :
    (Progress.moved ((next called.1).map (Level.under returns)) called.2 interrupts).bare =
      (Progress.moved ((next bareCalled.1).map (Level.under false)) bareCalled.2
        interrupts).bare := by
  simp only [Progress.bare, h.answer, h.world, map_under_under]

/-- **A demand in the bare world** comes to the same. -/
theorem carryOut_bare (returns : Bool) (w : World) (d : Demand) :
    (d.carryOut returns w).bare = (d.carryOut false w.bare).bare := by
  have hsame (levels : List Level) (interrupts : Bool) :
      (Progress.moved (levels.map (Level.under returns)) w interrupts).bare =
        (Progress.moved (levels.map (Level.under false)) w.bare interrupts).bare := by
    simp only [Progress.bare, World.bare_bare, map_under_under]
  cases d with
  | alone levels => exact hsame levels false
  | say text next => exact bare_of_agrees (w.agrees_write returns text) next false
  | flush next => exact bare_of_agrees (w.agrees_flush returns) next false
  | readLine next => exact bare_of_agrees (w.agrees_readLine returns) next false
  | clock next => exact hsame (next w.clock) false
  | calendar next => exact hsame (next w.calendar) false
  | wait deadline levels =>
    simp only [Demand.carryOut]
    have hclock : w.bare.clock = w.clock := rfl
    rw [hclock]
    split
    · exact hsame levels false
    · rfl
  | prompt text next => exact bare_of_agrees (w.agrees_startRead returns text) next false
  | event text waiting next =>
    have hpoll := w.agrees_pollRead returns text
    simp only [Demand.carryOut]
    rw [← hpoll.answer]
    cases (w.pollRead text).1.answer with
    | some e => exact bare_of_agrees hpoll (fun _ => next e) _
    | none =>
      simp only
      split
      · exact bare_of_agrees hpoll (fun _ => waiting) true
      · rfl
  | stands => rfl

/-- A step under a shell, if there is one, leaves sessions under the shell, and in its sink what was
said. -/
inductive Progress.Says (returns : Bool) (w : World) (said : List Utterance) : Progress → Prop
  | moved {levels : List Level} {w' : World} {interrupts : Bool}
      (hlevels : levels.map (Level.under returns) = levels) (hw : w.Told returns said w') :
      Says returns w said (.moved levels w' interrupts)
  | blocked (deadline : Option Nat) : Says returns w said (.blocked deadline)

theorem says_of_agrees {α : Type} {called bareCalled : α × World} {said : List Utterance}
    (h : w.Agrees returns said called bareCalled) (levels : List Level) (interrupts : Bool) :
    (Progress.moved (levels.map (Level.under returns)) called.2 interrupts).Says returns w said :=
  .moved (map_under_under returns returns levels) h.told

/-- **What a demand leaves** in the sink is what is said when it is met. -/
theorem says_carryOut (returns : Bool) (w : World) (d : Demand) :
    (d.carryOut returns w).Says returns w (d.utterances w) := by
  have hsilent (levels : List Level) :
      (Progress.moved (levels.map (Level.under returns)) w false).Says returns w [] :=
    .moved (map_under_under returns returns levels) (World.told_nil returns w)
  cases d with
  | alone levels => exact hsilent levels
  | say text next => exact says_of_agrees (w.agrees_write returns text) _ false
  | flush next => exact says_of_agrees (w.agrees_flush returns) _ false
  | readLine next => exact says_of_agrees (w.agrees_readLine returns) _ false
  | clock next => exact hsilent (next w.clock)
  | calendar next => exact hsilent (next w.calendar)
  | wait deadline levels =>
    simp only [Demand.carryOut]
    split
    · exact hsilent levels
    · exact .blocked deadline
  | prompt text next => exact says_of_agrees (w.agrees_startRead returns text) _ false
  | event text waiting next =>
    simp only [Demand.carryOut]
    cases (w.pollRead text).1.answer with
    | some e => exact says_of_agrees (w.agrees_pollRead returns text) (next e) _
    | none =>
      simp only
      split
      · exact says_of_agrees (w.agrees_pollRead returns text) waiting true
      · exact .blocked none
  | stands => exact .blocked none

end Run

end CommandConsole
