import CommandConsole.Command.Builtin
import CommandConsole.Proofs.Session.Effect
import CommandConsole.Proofs.Stream.Contents
import CommandConsole.Proofs.Terminal.Reads
import CommandConsole.Session.Completion

/-!
# Carriage returns in what a shell writes

A shell may be set to put a carriage return before each bare newline of its output. All that it
writes goes there through its own outlet: its greeting and its reports, and what its commands and
the sessions nested in it write. Its prompts do not: the terminal writes them, the way the terminal
writes. So the only texts with a bare newline that such a shell can leave are its prompts, and it
leaves one if a prompt has a newline and the terminal writes its prompts as they are.

`Undisturbed` is what may happen to a run while only its sessions write to the first sink. A line and
an interrupt may come at the same moment, and then the prompt may still be shown or the line heard.

Results: `inherited_returning` (what all sessions under such a shell have in common),
`bears_of_touches` (what they leave in the sink), `holds_of_undisturbed` (any property that all their
texts have). Main statement: `pieces_of_undisturbed`.
-/

namespace CommandConsole

open Session

/-! ## What shells ask for -/

namespace Session

variable {α : Type} {P : Request → Prop} {console : Console} {settings : ShellSettings}
  {buffer : String}

/-- Every request that a plan may come to satisfies `P`. -/
def Within (P : Request → Prop) : Plan α → Prop
  | .done _ => True
  | .ask r next => P r ∧ ∀ a, Within P (next a)

/-- The prompts of a shell are those of its settings. -/
def Prompting (settings : ShellSettings) : Request → Prop
  | .prompt text => text = settings.prompt ∨ text = settings.continuationPrompt
  | _ => True

theorem within_close (failure : Option Failure) : Within (Prompting settings) (close failure) := by
  cases failure with
  | none => exact ⟨trivial, fun _ => ⟨trivial, fun _ => trivial⟩⟩
  | some e => exact ⟨trivial, fun _ => ⟨trivial, fun _ => trivial⟩⟩

theorem within_print (text : String) :
    Within (Prompting settings) (orClose do print text; return some buffer) := by
  refine ⟨trivial, fun a => ?_⟩
  cases a with
  | ok => trivial
  | error fault => exact within_close _

theorem within_hearInterrupt : Within (Prompting settings) (orClose hearInterrupt) :=
  ⟨trivial, fun _ => within_print ""⟩

theorem within_dispatch (words : List String) :
    Within (Prompting settings) (orClose do dispatch words; return some buffer) := by
  refine ⟨trivial, fun found => ?_⟩
  cases found with
  | error e => exact ⟨trivial, fun _ => trivial⟩
  | ok b =>
    refine ⟨trivial, fun result => ?_⟩
    cases result with
    | ok code =>
      refine ⟨trivial, fun cancelled => ?_⟩
      cases cancelled with
      | true => exact ⟨trivial, fun _ => trivial⟩
      | false => trivial
    | error e =>
      cases e with
      | interrupted =>
        refine ⟨trivial, fun flushed => ?_⟩
        cases flushed with
        | error fault => exact within_close _
        | ok =>
          refine ⟨trivial, fun printed => ?_⟩
          cases printed with
          | error fault => exact within_close _
          | ok => exact ⟨trivial, fun _ => trivial⟩
      | _ => exact within_close _

theorem within_hearLine (line : String) :
    Within (Prompting settings) (orClose (hearLine console buffer line)) := by
  unfold hearLine
  cases CommandLine.continueWith console.reader buffer line with
  | mk answer kept =>
    match answer with
    | .error report => exact within_print _
    | .ok .needsMore | .ok (.complete []) => trivial
    | .ok (.complete (word :: words)) => exact within_dispatch _

/-- **A turn of a shell** shows one of its two prompts. -/
theorem within_turn : Within (Prompting console.settings) (orClose (turn console buffer)) := by
  refine ⟨trivial, fun value => ?_⟩
  cases value with
  | some value => exact within_close none
  | none =>
    have hprompt : Prompting console.settings (.prompt (console.settings.promptFor buffer)) := by
      unfold ShellSettings.promptFor
      split
      · exact .inl rfl
      · exact .inr rfl
    refine ⟨hprompt, fun shown => ?_⟩
    cases shown with
    | error fault => exact within_close _
    | ok =>
      refine ⟨trivial, fun answer => ?_⟩
      cases answer with
      | error fault => exact within_close _
      | ok e =>
        cases e with
        | endOfInput => exact within_close none
        | interrupted => exact within_hearInterrupt
        | line line => exact within_hearLine line

theorem within_greet : Within (Prompting settings) (orClose (greet settings)) := by
  unfold greet
  cases settings.greeting? with
  | none => trivial
  | some greeting => exact within_print greeting

theorem within_once (b : Binding) : Within (Prompting settings) (once b) := by
  refine ⟨trivial, fun result => ⟨trivial, fun flushed => ?_⟩⟩
  cases flushed <;> trivial

/-- From where a session stands, it shows no prompts but those of the settings. -/
def Phase.Prompts (settings : ShellSettings) : Phase → Prop
  | .own plan => Within (Prompting settings) plan
  | .command _ next | .nested _ next => ∀ result, Within (Prompting settings) (next result)
  | .idle | .over _ => True

end Session

/-! ## The sessions under a shell -/

namespace Level

/-- What a session writes to the first sink gets its carriage returns. -/
structure Returning (settings : ShellSettings) (l : Level) : Prop where
  returns : ∀ outlet, l.Writes outlet → outlet.sink = .first → outlet.output.returns = true
  prompts : l.phase.Prompts settings

variable {console : Console} {w : World} {l l' : Level} {es : List Entry}

theorem outlets_of_does (h : Does console w l es l') : l'.out = l.out ∧ l'.err = l.err := by
  cases h <;> exact ⟨rfl, rfl⟩

theorem prompts_of_does (h : Does console w l es l') (hl : l.phase.Prompts console.settings) :
    l'.phase.Prompts console.settings := by
  cases h with
  | again hp => exact within_turn
  | ended hp => trivial
  | asked hp =>
    rw [hp] at hl
    exact hl.2 _
  | waited => exact hl
  | began hp =>
    rw [hp] at hl
    exact hl.2
  | returned hp =>
    rw [hp] at hl
    exact hl _
  | used hp | invoked hp | nested hp =>
    rw [hp] at hl
    exact hl

theorem Returning.congr {settings : ShellSettings} (h : l.Returning settings)
    (hout : l'.out = l.out ∧ l'.err = l.err) (hp : l'.phase.Prompts settings) :
    l'.Returning settings := by
  refine ⟨fun outlet ho => h.returns outlet ?_, hp⟩
  rwa [Writes, hout.1, hout.2] at ho

theorem returning_of_does (h : Does console w l es l') (hl : l.Returning console.settings) :
    l'.Returning console.settings :=
  hl.congr (outlets_of_does h) (prompts_of_does h hl.prompts)

/-- A shell of settings that ask for carriage returns. -/
theorem returning_shell {settings : ShellSettings} (hcrlf : settings.crlf = true)
    (args : List String) (env : Environment) : (shell settings args env).Returning settings where
  returns := by
    rintro outlet (rfl | rfl) - <;> exact hcrlf
  prompts := trivial

/-- **All sessions under a shell** whose settings ask for carriage returns. -/
theorem inherited_returning (hcrlf : console.settings.crlf = true) :
    Run.Inherited console (Returning console.settings) where
  step _ _ _ _ _ hs h := returning_of_does (does_of_step hs) h
  nest l _ _ _ _ hs h := by
    refine ⟨returning_of_does (does_of_nests hs).2 h, ?_⟩
    obtain ⟨hspawns, -⟩ := spawns_of_nests hs
    cases hspawns with
    | shell args => exact returning_shell hcrlf args l.env
    | once b => exact ⟨h.returns, trivial⟩
  leave l result h := by
    refine h.congr ?_ (phase_leave (fun _ _ hnext => hnext) h.prompts)
    unfold leave
    split <;> exact ⟨rfl, rfl⟩
  execute l _ hx h := by
    obtain ⟨-, rfl⟩ := execute_eq_ok_iff.mp hx
    refine ⟨h.returns, ?_⟩
    unfold opening
    cases l.role with
    | shell => exact within_greet
    | once b => exact within_once b
  call l behind h := by
    rcases called_snd l behind with he | ⟨-, he⟩
    · rwa [he]
    · rw [he]
      exact ⟨h.returns, h.prompts⟩

end Level

/-! ## What they leave in the sink -/

namespace PlainTerminal

variable {t : PlainTerminal} {P : String → Prop}

/-- The way prompts are written, if they are shown. -/
def prompts (t : PlainTerminal) : Option Output :=
  if t.showPrompt then some t.output else none

theorem prompts_advance (t : PlainTerminal) (source : Source) :
    (t.advance source).1.prompts = t.prompts := by
  unfold advance
  split
  · cases source.readLine? <;> rfl
  · rfl

theorem prompts_startRead (t : PlainTerminal) (source : Source) :
    (t.startRead source).1.prompts = t.prompts :=
  prompts_advance _ source

theorem holds_prompt {sink : Sink} {text : String} (h : sink.Holds P)
    (ht : ∀ o, t.prompts = some o → P (o.translate text)) : (t.prompt sink text).2.Holds P := by
  unfold prompt
  split
  next hshow =>
    have hwritten := Sink.holds_write h (ht t.output (if_pos hshow))
    rw [← Output.write] at hwritten
    split
    next sink' hw =>
      rw [hw] at hwritten
      exact Sink.holds_flush hwritten
    · exact hwritten
  · exact h

end PlainTerminal

/-- The way a terminal writes prompts, if it shows any. -/
def TerminalKind.prompts : TerminalKind → Option Output
  | .scripted _ => none
  | .plain t => t.prompts

/-- A property of every text with its carriage returns, and of the prompts as a terminal writes
them. -/
structure Admits (P : String → Prop) (settings : ShellSettings) (prompts : Option Output) :
    Prop where
  written : ∀ text, P (Text.withReturns text)
  prompted : ∀ o, prompts = some o →
    P (o.translate settings.prompt) ∧ P (o.translate settings.continuationPrompt)

namespace World

variable {P : String → Prop} {prompts : Option Output} {w w' : World} {text : String}

/-- What the first sink holds has a property, and the terminal shows its prompts in some way. -/
structure Bears (P : String → Prop) (prompts : Option Output) (w : World) : Prop where
  holds : w.first.Holds P
  shows : w.terminal.prompts = prompts

theorem bears_setSink (h : w.Bears P prompts) {name : SinkName} {sink : Sink}
    (hs : name = .first → sink.Holds P) : (w.setSink name sink).Bears P prompts := by
  cases name with
  | first => exact ⟨hs rfl, h.shows⟩
  | second => exact ⟨h.holds, h.shows⟩

theorem bears_write (h : w.Bears P prompts) {outlet : Outlet}
    (ht : outlet.sink = .first → P (outlet.output.translate text)) :
    (w.write outlet text).2.Bears P prompts := by
  refine bears_setSink h fun hfirst => ?_
  rw [hfirst]
  exact Sink.holds_write h.holds (ht hfirst)

theorem bears_flush (h : w.Bears P prompts) (outlet : Outlet) :
    (w.flush outlet).2.Bears P prompts := by
  refine bears_setSink h fun hfirst => ?_
  rw [hfirst]
  exact Sink.holds_flush h.holds

theorem bears_startRead (h : w.Bears P prompts)
    (ht : ∀ o, prompts = some o → P (o.translate text)) :
    (w.startRead text).2.Bears P prompts := by
  obtain ⟨hholds, rfl⟩ := h
  unfold startRead
  cases hterminal : w.terminal with
  | scripted t => exact ⟨hholds, by rw [hterminal]⟩
  | plain t =>
    rw [hterminal] at ht
    have hprompt : (t.prompt w.first text).2.Holds P := PlainTerminal.holds_prompt hholds ht
    simp only
    split
    next fault sink hshown =>
      rw [hshown] at hprompt
      exact ⟨hprompt, rfl⟩
    next sink hshown =>
      rw [hshown] at hprompt
      exact ⟨hprompt, PlainTerminal.prompts_startRead t w.input⟩

theorem bears_pollRead (h : w.Bears P prompts) (text : String) :
    (w.pollRead text).2.Bears P prompts := by
  obtain ⟨hholds, rfl⟩ := h
  cases hterminal : w.terminal with
  | scripted t =>
    unfold pollRead
    rw [hterminal]
    simp only
    split
    · exact ⟨hholds, by rw [hterminal]⟩
    next cue t' _ => cases cue <;> exact ⟨hholds, rfl⟩
  | plain t =>
    have hadvance := PlainTerminal.prompts_advance t w.input
    cases ha : (t.advance w.input).1.takeAnswer? with
    | none =>
      rw [pollRead_none hterminal ha]
      exact ⟨hholds, hadvance⟩
    | some taken =>
      obtain ⟨answer, t'⟩ := taken
      rw [pollRead_some hterminal ha]
      obtain ⟨kept, -, -, rfl⟩ := PlainTerminal.takeAnswer?_eq_some ha
      exact ⟨hholds, hadvance⟩

theorem bears_of_touches {l : Level} {settings : ShellSettings} (hP : Admits P settings prompts)
    (h : w.Bears P prompts) (hl : l.Returning settings) (ht : l.Touches w w') :
    w'.Bears P prompts := by
  cases ht with
  | nothing => exact h
  | @write outlet ho text =>
    refine bears_write h fun hfirst => ?_
    rw [Output.translate, hl.returns outlet ho hfirst]
    exact hP.written text
  | flush => exact bears_flush h _
  | readLine => exact ⟨h.holds, h.shows⟩
  | pollRead => exact bears_pollRead h _
  | startRead hphase =>
    have hprompts := hl.prompts
    rw [hphase] at hprompts
    refine bears_startRead h fun o ho => ?_
    rcases hprompts.1 with rfl | rfl
    · exact (hP.prompted o ho).1
    · exact (hP.prompted o ho).2

end World

namespace Run

variable {console : Console} {r r' : Run} {w : World} {P : String → Prop}
  {prompts : Option Output}

/-! ## Runs -/

/-- What may happen to a run while only its sessions write to the first sink. -/
inductive Undisturbed : Run → Run → Prop
  | step {r r' : Run} (h : r.step = .ok r') : Undisturbed r r'
  | interrupt (r : Run) (i : Nat) : Undisturbed r (r.interruptAt i).2
  | execute {r r' : Run} (h : r.execute = .ok r') : Undisturbed r r'
  /-- The prompt is shown though the shell is interrupted. -/
  | prompt {r : Run} {before : List Level} {l : Level} {text : String}
      {next : Answer (.prompt text) → Plan Next} (hl : r.levels = before ++ [l])
      (hp : l.phase = .own (.ask (.prompt text) next)) :
      Undisturbed r { r with
        levels := before ++ [l.goto (.own (next (r.world.startRead text).1))]
        world := (r.world.startRead text).2 }
  /-- The terminal answers first, though the shell is interrupted. -/
  | first {r : Run} {before : List Level} {l : Level} {text : String}
      {next : Answer (.event text) → Plan Next} {e : Except StreamFault Terminal.Event}
      (hl : r.levels = before ++ [l]) (hp : l.phase = .own (.ask (.event text) next))
      (he : (r.world.pollRead text).1.answer = some e) :
      Undisturbed r { r with
        levels := before ++ [l.goto (.own (next e))]
        world := (r.world.pollRead text).2 }
  /-- Something else in the world changes. -/
  | world {r : Run} {w : World} (hfirst : w.first = r.world.first)
      (hprompts : w.terminal.prompts = r.world.terminal.prompts) :
      Undisturbed r { r with world := w }

/-- All sessions of a run translate what they write, and what the first sink holds has a property. -/
structure Translated (P : String → Prop) (prompts : Option Output) (console : Console) (r : Run) :
    Prop where
  under : r.console = console
  levels : ∀ l ∈ r.levels, l.Returning console.settings
  world : r.world.Bears P prompts

/-- A session at the end of the chain goes on in its own plan. -/
theorem returning_goto {before : List Level} {l : Level} {plan : Plan Next}
    {settings : ShellSettings} (h : ∀ m ∈ before ++ [l], m.Returning settings)
    (hplan : Within (Prompting settings) plan) :
    ∀ m ∈ before ++ [l.goto (.own plan)], m.Returning settings := by
  intro m hm
  rcases List.mem_append.mp hm with hm | hm
  · exact h m (List.mem_append_left _ hm)
  · obtain rfl := List.mem_singleton.mp hm
    have hl := h l (List.mem_append_right _ List.mem_cons_self)
    exact ⟨hl.returns, hplan⟩

theorem translated_of_undisturbed (hcrlf : console.settings.crlf = true)
    (hP : Admits P console.settings prompts) (hr : r.Translated P prompts console)
    (h : Undisturbed r r') : r'.Translated P prompts console := by
  obtain ⟨rfl, hlevels, hworld⟩ := hr
  have hinherited := Level.inherited_returning hcrlf
  cases h with
  | step hs =>
    obtain ⟨hconsole, hlevels'⟩ := forall_step hinherited hlevels hs
    obtain ⟨levels, w, interrupts, hstepped, rfl⟩ := stepped_of_step hs
    obtain ⟨l, hl, htouches⟩ := touches_of_stepped hstepped
    have hbears := World.bears_of_touches hP hworld (hlevels l hl) htouches
    refine ⟨hconsole, hlevels', ?_⟩
    -- An interrupt on the way changes states of sessions only.
    cases interrupts <;> exact hbears
  | interrupt i => exact ⟨rfl, forall_interruptAt hinherited hlevels i, hworld⟩
  | execute hx =>
    obtain ⟨hconsole, hlevels'⟩ := forall_execute hinherited hlevels hx
    obtain ⟨l, l', rest, -, -, rfl⟩ := execute_eq_ok hx
    exact ⟨hconsole, hlevels', hworld⟩
  | @prompt before l text next hl hphase =>
    rw [hl] at hlevels
    have hlast := hlevels l (List.mem_append_right _ List.mem_cons_self)
    have hwithin := hlast.prompts
    rw [hphase] at hwithin
    exact ⟨rfl, returning_goto hlevels (hwithin.2 _),
      World.bears_of_touches hP hworld hlast (.startRead hphase)⟩
  | @first before l text next e hl hphase he =>
    rw [hl] at hlevels
    have hlast := hlevels l (List.mem_append_right _ List.mem_cons_self)
    have hwithin := hlast.prompts
    rw [hphase] at hwithin
    exact ⟨rfl, returning_goto hlevels (hwithin.2 e), World.bears_pollRead hworld text⟩
  | world hfirst hprompts =>
    refine ⟨rfl, hlevels, ?_, hprompts.trans hworld.shows⟩
    rw [hfirst]
    exact hworld.holds

/-- What a shell that is set to write carriage returns leaves in an empty sink has any property that
all its texts have. -/
theorem holds_of_undisturbed {args : List String} {env : Environment}
    (hcrlf : console.settings.crlf = true) (hP : Admits P console.settings w.terminal.prompts)
    (hempty : w.first.log = [])
    (h : Relation.ReflTransGen Undisturbed (ofShell console w args env) r) :
    r.world.first.Holds P := by
  have hfinal : r.Translated P w.terminal.prompts console := by
    induction h with
    | refl =>
      refine ⟨rfl, ?_, Sink.holds_nil hempty, rfl⟩
      exact List.forall_mem_singleton.mpr (Level.returning_shell hcrlf args env)
    | tail _ hs ih => exact translated_of_undisturbed hcrlf hP ih hs
  exact hfinal.world.holds

/-- A text that a shell with carriage returns may leave: one without bare newlines, or a prompt as
the terminal writes it. -/
def IsPiece (settings : ShellSettings) (prompts : Option Output) (text : String) : Prop :=
  Text.Returned text ∨ ∃ o, prompts = some o ∧
    (text = o.translate settings.prompt ∨ text = o.translate settings.continuationPrompt)

theorem admits_isPiece (settings : ShellSettings) (prompts : Option Output) :
    Admits (IsPiece settings prompts) settings prompts where
  written text := .inl (Text.returned_withReturns text)
  prompted o ho := ⟨.inr ⟨o, ho, .inl rfl⟩, .inr ⟨o, ho, .inr rfl⟩⟩

/-- **Only prompts bring bare newlines.** What has come to an empty sink from a shell that is set to
write carriage returns, from its commands and from the sessions nested in it, is made of texts
without bare newlines and of prompts as its terminal writes them. So every newline there has a
carriage return directly before it, if those of the prompts have. -/
theorem pieces_of_undisturbed {args : List String} {env : Environment}
    (hcrlf : console.settings.crlf = true) (hempty : w.first.log = [])
    (h : Relation.ReflTransGen Undisturbed (ofShell console w args env) r) :
    (∃ texts, r.world.first.contents = String.join texts ∧
      ∀ text ∈ texts, IsPiece console.settings w.terminal.prompts text) ∧
    ((∀ o, w.terminal.prompts = some o → Text.Returned (o.translate console.settings.prompt) ∧
        Text.Returned (o.translate console.settings.continuationPrompt)) →
      Text.Returned r.world.first.contents) := by
  constructor
  · obtain ⟨texts, hchunks, htexts⟩ := holds_of_undisturbed hcrlf (admits_isPiece _ _) hempty h
    exact ⟨texts, Sink.contents_of_chunks hchunks, htexts⟩
  · intro hprompts
    obtain ⟨texts, hchunks, htexts⟩ :=
      holds_of_undisturbed hcrlf ⟨Text.returned_withReturns, hprompts⟩ hempty h
    rw [Sink.contents_of_chunks hchunks]
    exact Text.returned_join htexts

/-! ### A prompt of two lines -/

/-- A console whose shells write carriage returns. -/
def returningConsole (prompt : String) : Console where
  registry := ⟨[Builtin.bundle]⟩
  settings := { greeting := "", prompt := prompt, crlf := true }

/-- The world of a terminal that shows prompts, on an input. -/
def promptedWorld (text : String) : World where
  input := .ofText text
  terminal := .plain {}

/-- A shell in that world, before it is executed. -/
def promptedShell (prompt text : String) : Run :=
  ofShell (returningConsole prompt) (promptedWorld text) [] {}

/-- The shell at its end. -/
def promptedEnd (prompt text : String) : Run :=
  match (promptedShell prompt text).execute with
  | .ok r => (r.settle 200).2
  | .error _ => promptedShell prompt text

theorem undisturbed_promptedEnd (prompt text : String) :
    Relation.ReflTransGen Undisturbed (promptedShell prompt text) (promptedEnd prompt text) := by
  unfold promptedEnd
  cases hx : (promptedShell prompt text).execute with
  | error e => exact .refl
  | ok r => exact .head (.execute hx) (reflTransGen_settle (fun _ _ => .step) 200 r)

/-- The output of a command gets its carriage returns. -/
theorem returned_echo : (promptedEnd "> " "echo x\n").world.first.contents = "> x\r\n> " ∧
    Text.Returned (promptedEnd "> " "echo x\n").world.first.contents := by
  obtain ⟨-, hreturned⟩ := pieces_of_undisturbed rfl rfl (undisturbed_promptedEnd "> " "echo x\n")
  refine ⟨by decide +kernel, hreturned fun o ho => ?_⟩
  obtain rfl : ({} : Output) = o := Option.some.inj ho
  exact ⟨Text.returned_of_not_mem (by decide), Text.returned_of_not_mem (by decide)⟩

/-- **A prompt of two lines is written with a bare newline**, though the settings ask for carriage
returns. -/
theorem bare_prompt : (returningConsole "one\ntwo> ").settings.crlf = true ∧
    Relation.ReflTransGen Undisturbed (promptedShell "one\ntwo> " "") (promptedEnd "one\ntwo> " "") ∧
    (promptedEnd "one\ntwo> " "").world.first.contents = "one\ntwo> " ∧
    ¬ Text.Returned (promptedEnd "one\ntwo> " "").world.first.contents := by
  have hcontents : (promptedEnd "one\ntwo> " "").world.first.contents = "one\ntwo> " := by
    decide +kernel
  refine ⟨rfl, undisturbed_promptedEnd _ _, hcontents, ?_⟩
  rw [hcontents]
  intro h
  exact absurd (h "one".toList "two> ".toList rfl) (by decide)

end Run

end CommandConsole
