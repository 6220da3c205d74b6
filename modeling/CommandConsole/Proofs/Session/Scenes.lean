import CommandConsole.Proofs.Command.Deeds
import CommandConsole.Proofs.Session.Play
import CommandConsole.Proofs.Terminal.Lines

/-!
# From scene to scene

A scene is what a shell's own plan and its commands depend on where nobody interrupts and no stream
fails: the sessions it is nested in, its exit value, where it stands, and the lines that the
terminal has for it. `Leads` goes from one scene to another. There is one lemma for each thing that
a shell does, and each is stated backwards: what leads on from the next scene leads on from this
one. So the turns of a shell are read off its plan, one request after the other.

Results: `leads_ask`, `leads_line`, `leads_again`, `leads_finish`, `leads_run` (the shell's own
plan), `leads_script` (a command that comes to its result), `leads_open`, `leads_close` (nested
shells).
-/

namespace CommandConsole

open Session

/-- A shell that nobody interrupted stands at a phase and has an exit value. -/
structure Level.At (l : Level) (value : Option ExitCode) (phase : Phase) : Prop where
  shell : l.shellArgs?.isSome = true
  value : l.exitValue = value
  calm : l.state.cancelled = false
  phase : l.phase = phase

theorem Level.At.goto {l : Level} {value : Option ExitCode} {phase : Phase} (h : l.At value phase)
    (phase' : Phase) : (l.goto phase').At value phase' :=
  ⟨h.shell, h.value, h.calm, rfl⟩

namespace Session

/-- What the innermost of some nested shells does next depends on this: the sessions it is nested
in, its exit value, where it stands, whether it has asked the terminal for a line, and the lines
that the terminal has for it. -/
structure Scene where
  outer : List Level
  value : Option ExitCode
  phase : Phase
  asked : Bool
  lines : List String

/-- The exit values of all sessions of a scene. -/
def Scene.values (s : Scene) : List (Option ExitCode) :=
  s.outer.map Level.exitValue ++ [s.value]

end Session

namespace Run

variable {console : Console} {s t : Scene} {acts : List Act} {beats : List Beat}

/-- A run has come to a scene. -/
structure Stands (console : Console) (s : Scene) (r : Run) : Prop where
  console : r.console = console
  levels : ∃ l, r.levels = s.outer ++ [l] ∧ l.At s.value s.phase
  outer : ∀ o ∈ s.outer, o.executing = true
  calm : r.world.Calm s.asked s.lines

/-- Every run that has come to one scene comes to the other, and this is seen of it. -/
def Leads (console : Console) (s : Scene) (beats : List Beat) (s' : Scene) : Prop :=
  ∀ r, Stands console s r → ∃ r', Plays r beats r' ∧ Stands console s' r'

theorem Leads.refl (s : Scene) : Leads console s [] s :=
  fun r h => ⟨r, .refl r, h⟩

/-- A step of the innermost session in a world, of which these acts are seen, comes to a scene that
leads on. -/
def StepsOn (console : Console) (w : World) (s : Scene) (acts : List Act) (beats : List Beat)
    (t : Scene) : Prop :=
  ∀ l : Level, l.At s.value s.phase →
    ∃ s', Leads console s' beats t ∧ s'.outer = s.outer ∧
      ∃ l' w', l.step console w = .moved l' w' false ∧
        (l.logged console w).filterMap Entry.act? = acts ∧
        l'.At s'.value s'.phase ∧ w'.Calm s'.asked s'.lines

/-- A step of the innermost session that starts no other. -/
theorem plays_step {r : Run} (hr : Stands console s r)
    (h : StepsOn console r.world s acts beats t) :
    ∃ r', Plays r (acts.map (Beat.mk s.values) ++ beats) r' ∧ Stands console t r' := by
  obtain ⟨rfl, ⟨l, hlevels, hat⟩, houter, -⟩ := hr
  obtain ⟨s', hmore, he, l', w', hmoved, hacts, hat', hcalm'⟩ := h l hat
  obtain ⟨hchain, hseen⟩ := stepLevels_append l [] houter (executing_of_step (.inl ⟨_, _, hmoved⟩))
  have hstep : r.step = .ok { r with levels := s.outer ++ [l'], world := w' } := by
    unfold step
    rw [hlevels, hchain, stepLevels, hmoved]
    rfl
  have hbeats : r.beats = acts.map (Beat.mk s.values) := by
    rw [Run.beats, hlevels, hseen, chainActs, Level.acts, hmoved, List.map_append,
      List.map_singleton, hat.value, ← hacts]
    rfl
  obtain ⟨r', hplays, hstands⟩ := hmore { r with levels := s.outer ++ [l'], world := w' }
    ⟨rfl, ⟨l', by rw [he], hat'⟩, he ▸ houter, hcalm'⟩
  refine ⟨r', ?_, hstands⟩
  rw [← hbeats]
  exact .step hstep hplays

/-- A step that only takes the session elsewhere. -/
theorem StepsOn.goto {w : World} {phase : Phase} (hw : w.Calm s.asked s.lines)
    (hstep : ∀ l : Level, l.At s.value s.phase → l.step console w = .moved (l.goto phase) w false ∧
      (l.logged console w).filterMap Entry.act? = acts)
    (h : Leads console ⟨s.outer, s.value, phase, s.asked, s.lines⟩ beats t) :
    StepsOn console w s acts beats t :=
  fun l hl => ⟨_, h, rfl, l.goto phase, w, (hstep l hl).1, (hstep l hl).2, hl.goto phase, hw⟩

theorem leads_step
    (h : ∀ w : World, w.Calm s.asked s.lines → StepsOn console w s acts beats t) :
    Leads console s (acts.map (Beat.mk s.values) ++ beats) t :=
  fun r hr => plays_step hr (h r.world hr.calm)

theorem leads_silent
    (h : ∀ w : World, w.Calm s.asked s.lines → StepsOn console w s [] beats t) :
    Leads console s beats t :=
  leads_step h

theorem leads_seen {act : Act}
    (h : ∀ w : World, w.Calm s.asked s.lines → StepsOn console w s [act] beats t) :
    Leads console s (⟨s.values, act⟩ :: beats) t :=
  leads_step h

/-! ## The shell's own plan -/

/-- How a request of a shell's own plan is answered where nobody interrupts and no stream fails, and
what it leaves for the terminal to tell. -/
inductive Answers (console : Console) (value : Option ExitCode) :
    (r : Request) → Answer r → Bool → List String → Bool → List String → Prop
  | write (text : String) (asked : Bool) (lines : List String) :
      Answers console value (.write text) (.ok ()) asked lines asked lines
  | flush (asked : Bool) (lines : List String) :
      Answers console value .flush (.ok ()) asked lines asked lines
  | isCancelled (asked : Bool) (lines : List String) :
      Answers console value .isCancelled false asked lines asked lines
  | exitValue (asked : Bool) (lines : List String) :
      Answers console value .exitValue value asked lines asked lines
  | prompt (text : String) (asked : Bool) (lines : List String) :
      Answers console value (.prompt text) (.ok ()) asked lines true lines
  | event (prompt : String) (lines : List String) :
      Answers console value (.event prompt) (.ok (Terminal.Event.ofLine? lines.head?)) true lines
        false lines.tail
  | resolve (words : List String) (asked : Bool) (lines : List String) :
      Answers console value (.resolve words) (console.resolve (.words words)) asked lines asked
        lines

variable {outer : List Level} {value : Option ExitCode} {asked asked' : Bool}
  {lines lines' : List String}

theorem planStep_of_answers {l : Level} {w : World} {req : Request} {next : Answer req → Plan Next}
    {a : Answer req} (ha : Answers console value req a asked lines asked' lines')
    (hl : l.At value (.own (.ask req next))) (hw : w.Calm asked lines) :
    ∃ w', l.step console w = .moved (l.goto (.own (next a))) w' false ∧
      l.logged console w = [.asked req a] ∧ w'.Calm asked' lines' := by
  have hstep : l.step console w = l.planStep console w (.ask req next) := by
    rw [Level.step, hl.phase]
  have hr : ∀ b, req ≠ .run b := by
    rintro b rfl
    cases ha
  cases ha with
  | write text =>
    obtain ⟨hok, hcalm⟩ := World.calm_write hw l.out text
    refine ⟨_, ?_, Level.logged_asked hl.phase hr (congrArg some hok), hcalm⟩
    rw [hstep, ← hok]
    rfl
  | flush =>
    obtain ⟨hok, hcalm⟩ := World.calm_flush hw l.out
    refine ⟨_, ?_, Level.logged_asked hl.phase hr (congrArg some hok), hcalm⟩
    rw [hstep, ← hok]
    rfl
  | isCancelled =>
    refine ⟨w, ?_, Level.logged_asked hl.phase hr (congrArg some hl.calm), hw⟩
    rw [hstep, Level.planStep, hl.calm]
    rfl
  | exitValue =>
    refine ⟨w, ?_, Level.logged_asked hl.phase hr (congrArg some hl.value), hw⟩
    rw [hstep, ← hl.value]
    rfl
  | prompt text =>
    obtain ⟨hok, hcalm⟩ := World.calm_startRead hw text
    have hfree : ¬ l.state.cancelled = true := by simp [hl.calm]
    have hanswer : l.answer? console w (.prompt text) = some (.ok ()) :=
      congrArg some ((if_neg hfree).trans hok)
    refine ⟨_, ?_, Level.logged_asked hl.phase hr hanswer, hcalm⟩
    rw [hstep, Level.planStep, if_neg hfree, ← hok]
    rfl
  | event prompt =>
    obtain ⟨hok, hcalm⟩ := World.calm_pollRead hw prompt
    have hfree : ¬ l.state.cancelled = true := by simp [hl.calm]
    have hanswer : l.answer? console w (.event prompt) =
        some (.ok (Terminal.Event.ofLine? lines.head?)) :=
      (if_neg hfree).trans (congrArg World.TerminalAnswer.answer hok)
    refine ⟨_, ?_, Level.logged_asked hl.phase hr hanswer, hcalm⟩
    rw [hstep, Level.planStep, if_neg hfree]
    simp only [hok]
  | resolve words =>
    refine ⟨w, ?_, Level.logged_asked hl.phase hr rfl, hw⟩
    rw [hstep]
    rfl

/-- A request of a shell's own plan is answered. -/
theorem leads_asked {req : Request} {next : Answer req → Plan Next} {a : Answer req}
    (ha : Answers console value req a asked lines asked' lines')
    (h : Leads console ⟨outer, value, .own (next a), asked', lines'⟩ beats t) :
    Leads console ⟨outer, value, .own (.ask req next), asked, lines⟩
      ((Entry.asked req a).act?.toList.map (Beat.mk (outer.map Level.exitValue ++ [value])) ++
        beats) t := by
  refine leads_step fun w hw l hl => ?_
  obtain ⟨w', hmoved, hlogged, hcalm⟩ := planStep_of_answers ha hl hw
  refine ⟨_, h, rfl, _, w', hmoved, ?_, hl.goto _, hcalm⟩
  rw [hlogged, List.filterMap_cons]
  cases (Entry.asked req a).act? <;> rfl

/-- A request of which nothing is seen. -/
theorem leads_ask {req : Request} {next : Answer req → Plan Next} {a : Answer req}
    (ha : Answers console value req a asked lines asked' lines')
    (hsilent : (Entry.asked req a).act? = none)
    (h : Leads console ⟨outer, value, .own (next a), asked', lines'⟩ beats t) :
    Leads console ⟨outer, value, .own (.ask req next), asked, lines⟩ beats t := by
  have hleads := leads_asked ha h
  rwa [hsilent] at hleads

/-- A shell hears a line. -/
theorem leads_line {prompt line : String} {next : Answer (.event prompt) → Plan Next}
    (h : Leads console ⟨outer, value, .own (next (.ok (.line line))), false, lines⟩ beats t) :
    Leads console ⟨outer, value, .own (.ask (.event prompt) next), true, line :: lines⟩
      (⟨outer.map Level.exitValue ++ [value], .line line⟩ :: beats) t :=
  leads_asked (.event prompt (line :: lines)) h

/-- A turn of a shell is over, and the next one begins. -/
theorem leads_again {buffer : String}
    (h : Leads console ⟨outer, value, .own (orClose (turn console buffer)), asked, lines⟩ beats t) :
    Leads console ⟨outer, value, .own (.done (.again buffer)), asked, lines⟩ beats t := by
  refine leads_silent fun w hw => .goto hw (fun l hl => ⟨?_, ?_⟩) h
  · rw [Level.step, hl.phase]
    rfl
  · rw [Level.logged, hl.phase]
    rfl

/-- A shell has ended. -/
theorem leads_finish {result : Except Failure ExitCode}
    (h : Leads console ⟨outer, value, .over result, asked, lines⟩ beats t) :
    Leads console ⟨outer, value, .own (.done (.ended result)), asked, lines⟩ beats t := by
  refine leads_silent fun w hw l hl => ?_
  refine ⟨_, h, rfl, l.finish result, w, ?_, ?_, ⟨hl.shell, hl.value, hl.calm, rfl⟩, hw⟩
  · rw [Level.step, hl.phase]
    rfl
  · rw [Level.logged, hl.phase]
    rfl

/-- A command begins, run in the shell. -/
theorem leads_run {b : Binding} {next : Except Failure ExitCode → Plan Next}
    (h : ∀ inv : Command.Invocation, inv.shell.isSome = true → inv.reference = console.reference →
      Leads console ⟨outer, value, .command (b.perform inv).run next, asked, lines⟩ beats t) :
    Leads console ⟨outer, value, .own (.ask (.run b) next), asked, lines⟩
      (⟨outer.map Level.exitValue ++ [value], .began b.name b.args⟩ :: beats) t := by
  refine leads_seen fun w hw l hl => ?_
  refine ⟨_, h (l.invocation console) hl.shell rfl, rfl,
    l.goto (.command (l.scriptOf console b) next), w, ?_, ?_, hl.goto _, hw⟩
  · rw [Level.step, hl.phase]
    rfl
  · rw [Level.logged, hl.phase]
    rfl

/-! ## The commands -/

variable {next : Except Failure ExitCode → Plan Next}

/-- A command has ended. -/
theorem leads_ended {result : Except Failure ExitCode}
    (h : Leads console ⟨outer, value, .own (next result), asked, lines⟩ beats t) :
    Leads console ⟨outer, value, .command (.done result) next, asked, lines⟩
      (⟨outer.map Level.exitValue ++ [value], .ended result⟩ :: beats) t := by
  refine leads_seen fun w hw => .goto hw (fun l hl => ⟨?_, ?_⟩) h
  · rw [Level.step, hl.phase]
    rfl
  · rw [Level.logged, hl.phase]
    rfl

/-- Setting its exit value leaves a shell where it stands. -/
theorem at_setExitValue {l : Level} {phase phase' : Phase} (hl : l.At value phase) (x : ExitCode) :
    ((l.setExitValue x).goto phase').At (some x) phase' := by
  have hshell := hl.shell
  unfold Level.shellArgs? at hshell
  unfold Level.setExitValue
  cases hr : l.role with
  | shell args _ => exact ⟨rfl, rfl, hl.calm, rfl⟩
  | once b =>
    rw [hr] at hshell
    cases hshell

section Wait

variable {deadline : Nat}
  {more : Command.Answer (.wait (some deadline)) → Command.Script (Except Failure ExitCode)}

/-- What the step of a waiting command is. -/
theorem step_of_wait {l : Level} (w : World)
    (hl : l.At value (.command (.ask (.wait (some deadline)) more) next)) :
    l.step console w = if deadline ≤ w.clock then
      .moved (l.goto (.command (more .elapsed) next)) w false else .blocked (some deadline) := by
  rw [Level.step, hl.phase]
  simp only [Level.scriptStep, hl.calm, Bool.false_eq_true, if_false, Option.any_some,
    decide_eq_true_eq]
  rfl

/-- A wait whose time has come is over. -/
theorem plays_elapsed {r : Run} (hr : Stands console
      ⟨outer, value, .command (.ask (.wait (some deadline)) more) next, asked, lines⟩ r)
    (htime : deadline ≤ r.world.clock)
    (h : Leads console ⟨outer, value, .command (more .elapsed) next, asked, lines⟩ beats t) :
    ∃ r', Plays r beats r' ∧ Stands console t r' := by
  have hsteps : StepsOn console r.world
      ⟨outer, value, .command (.ask (.wait (some deadline)) more) next, asked, lines⟩
      [] beats t := by
    refine .goto hr.calm (fun l hl => ⟨?_, ?_⟩) h
    · rw [step_of_wait r.world hl, if_pos htime]
    · have hfree : ¬ l.state.cancelled = true := by simp [hl.calm]
      have hcome : (some deadline).any (· ≤ r.world.clock) = true := by simpa using htime
      have hgrant : l.grant? console r.world (.wait (some deadline)) = some .elapsed :=
        (if_neg hfree).trans (if_pos hcome)
      rw [Level.logged_used hl.phase hgrant]
      rfl
  exact plays_step hr hsteps

/-- **A wait is over when its time has come**, and time passes until then. -/
theorem leads_wait
    (h : Leads console ⟨outer, value, .command (more .elapsed) next, asked, lines⟩ beats t) :
    Leads console ⟨outer, value, .command (.ask (.wait (some deadline)) more) next, asked, lines⟩
      beats t := by
  intro r hr
  by_cases htime : deadline ≤ r.world.clock
  · exact plays_elapsed hr htime h
  · obtain ⟨hconsole, ⟨l, hlevels, hl⟩, houter, hcalm⟩ := hr
    have hblocked : r.step = .error (some deadline) := by
      have hexecuting : l.executing = true := by rw [Level.executing, hl.phase]
      unfold step
      rw [hlevels, (stepLevels_append l [] houter hexecuting).1, stepLevels,
        step_of_wait r.world hl, if_neg htime]
      rfl
    have hlater : Stands console
        ⟨outer, value, .command (.ask (.wait (some deadline)) more) next, asked, lines⟩
        (r.passTo deadline) :=
      ⟨hconsole, ⟨l, hlevels, hl⟩, houter, World.calm_clock hcalm _⟩
    obtain ⟨r', hplays, hstands⟩ := plays_elapsed hlater (Nat.le_max_right _ _) h
    exact ⟨r', .wait hblocked hplays, hstands⟩

end Wait

/-- **A command comes to its result.** -/
theorem leads_script {script : Command.Script (Except Failure ExitCode)}
    {result : Except Failure ExitCode} {value' : Option ExitCode}
    (hscript : Concludes script value result value')
    (h : Leads console ⟨outer, value', .own (next result), asked, lines⟩ beats t) :
    Leads console ⟨outer, value, .command script next, asked, lines⟩
      (⟨outer.map Level.exitValue ++ [value'], .ended result⟩ :: beats) t := by
  induction hscript with
  | done => exact leads_ended h
  | @write channel text value value' more result _ ih =>
    refine leads_silent fun w hw l hl => ?_
    obtain ⟨hok, hcalm⟩ := World.calm_write hw (l.outlet channel) text
    refine ⟨_, ih h, rfl, l.goto (.command (more (.ok ())) next), _, ?_, ?_,
      hl.goto _, hcalm⟩
    · rw [Level.step, hl.phase, ← hok]
      rfl
    · rw [Level.logged_used hl.phase rfl]
      rfl
  | @clock more value value' result _ ih =>
    refine leads_silent fun w hw => .goto hw (fun l hl => ⟨?_, ?_⟩) (ih w.clock h)
    · rw [Level.step, hl.phase]
      rfl
    · rw [Level.logged_used hl.phase rfl]
      rfl
  | wait _ ih => exact leads_wait (ih h)
  | @calendar more value value' result _ ih =>
    refine leads_silent fun w hw => .goto hw (fun l hl => ⟨?_, ?_⟩) (ih w.calendar h)
    · rw [Level.step, hl.phase]
      rfl
    · rw [Level.logged_used hl.phase rfl]
      rfl
  | @setExitValue x more value value' result _ ih =>
    refine leads_silent fun w hw l hl => ?_
    refine ⟨_, ih h, rfl, (l.setExitValue x).goto (.command (more ()) next), w, ?_, ?_,
      at_setExitValue hl x, hw⟩
    · rw [Level.step, hl.phase]
      rfl
    · rw [Level.logged_used hl.phase rfl]
      rfl

/-! ## Nested shells -/

/-- A shell that starts a nested session. -/
theorem at_enter {l : Level} {phase phase' : Phase} (hl : l.At value phase) :
    (l.enter phase').At value phase' := by
  refine ⟨hl.shell, hl.value, ?_, rfl⟩
  unfold Level.enter
  split <;> exact hl.calm

/-- A shell whose nested session has ended. -/
theorem at_leave {o : Level}
    {resume : Except Failure ExitCode → Command.Script (Except Failure ExitCode)}
    (ho : o.At value (.nested resume next)) (result : Except Failure ExitCode) :
    (o.leave result).At value (.command (resume result) next) := by
  have he : o.leave result = { o with
      state := if o.forwards then o.state.unlink else o.state
      phase := .command (resume result) next } := by rw [Level.leave, ho.phase]
  rw [he]
  refine ⟨ho.shell, ho.value, ?_, rfl⟩
  simp only
  split <;> exact ho.calm

/-- A new shell is executed. -/
theorem execute_shell (console : Console) (args : List String) (env : Environment) :
    ∃ m, (Level.shell console.settings args env).execute console = .ok m ∧
      m.At none (.own (orClose (greet console.settings))) :=
  ⟨_, rfl, rfl, rfl, rfl, rfl⟩

/-- A nested shell that was made is executed by the next step. -/
theorem plays_execute {r : Run} {o : Level} {args : List String} {env : Environment}
    (hlevels : r.levels = outer ++ [o, Level.shell r.console.settings args env])
    (houter : ∀ m ∈ outer ++ [o], m.executing = true) (hcalm : r.world.Calm asked lines)
    (h : Leads r.console
      ⟨outer ++ [o], none, .own (orClose (greet r.console.settings)), asked, lines⟩ beats t) :
    ∃ r', Plays r beats r' ∧ Stands r.console t r' := by
  obtain ⟨houter', ho⟩ := List.forall_mem_append.mp houter
  obtain ⟨m, hexecute, hm⟩ := execute_shell r.console args env
  obtain ⟨hchain, hseen⟩ := stepLevels_append o [Level.shell r.console.settings args env] houter'
    (ho o List.mem_cons_self)
  have hidle : (Level.shell r.console.settings args env).phase = .idle := rfl
  have hstep : r.step = .ok { r with levels := outer ++ [o, m] } := by
    unfold step
    rw [hlevels, hchain, stepLevels, hidle, hexecute]
    rfl
  have hbeats : r.beats = [] := by
    rw [Run.beats, hlevels, hseen]
    rfl
  obtain ⟨r', hplays, hstands⟩ := h { r with levels := outer ++ [o, m] }
    ⟨rfl, ⟨m, by rw [List.append_assoc, List.singleton_append], hm⟩, houter, hcalm⟩
  have hplays' := Plays.step hstep hplays
  rw [hbeats] at hplays'
  exact ⟨r', hplays', hstands⟩

/-- **A command of a shell opens a nested one**, which begins with an exit value of its own. -/
theorem leads_open {args : List String}
    {more : Command.Answer (.nestShell args) → Command.Script (Except Failure ExitCode)}
    (h : ∀ o : Level, o.At value (.nested more next) →
      Leads console ⟨outer ++ [o], none, .own (orClose (greet console.settings)), asked, lines⟩
        beats t) :
    Leads console ⟨outer, value, .command (.ask (.nestShell args) more) next, asked, lines⟩
      (⟨outer.map Level.exitValue ++ [value], .opened⟩ :: beats) t := by
  rintro r ⟨rfl, ⟨l, hlevels, hl⟩, houter, hcalm⟩
  have hvalue : l.exitValue = value := hl.value
  have hexecuting : l.executing = true := by rw [Level.executing, hl.phase]
  have hnests : l.step r.console r.world = .nests (l.enter (.nested more next))
      (Level.shell r.console.settings args l.env) r.world := by
    rw [Level.step, hl.phase]
    rfl
  obtain ⟨hchain, hseen⟩ := stepLevels_append l [] houter hexecuting
  have hstep : r.step = .ok { r with levels := outer ++ [l.enter (.nested more next),
      Level.shell r.console.settings args l.env] } := by
    unfold step
    rw [hlevels, hchain, stepLevels, hnests]
    rfl
  have hbeats : r.beats = [⟨outer.map Level.exitValue ++ [value], .opened⟩] := by
    rw [Run.beats, hlevels, hseen, chainActs, Level.acts, hnests, ← hvalue]
    simp
  have hwaits : ∀ m ∈ outer ++ [l.enter (.nested more next)], m.executing = true :=
    List.forall_mem_append.mpr ⟨houter, List.forall_mem_singleton.mpr rfl⟩
  obtain ⟨r', hmore, hstands⟩ := plays_execute (r := { r with levels :=
    outer ++ [l.enter (.nested more next), Level.shell r.console.settings args l.env] })
    rfl hwaits hcalm (h _ (at_enter hl))
  have hplays' := Plays.step hstep hmore
  rw [hbeats] at hplays'
  exact ⟨r', hplays', hstands⟩

/-- **A nested shell that has ended** gives its result to the command that opened it. -/
theorem leads_close {o : Level} {value' : Option ExitCode} {result : Except Failure ExitCode}
    {resume : Except Failure ExitCode → Command.Script (Except Failure ExitCode)}
    (ho : o.At value' (.nested resume next))
    (h : Leads console ⟨outer, value', .command (resume result) next, asked, lines⟩ beats t) :
    Leads console ⟨outer ++ [o], value, .over result, asked, lines⟩
      (⟨(outer ++ [o]).map Level.exitValue ++ [value], .closed result⟩ :: beats) t := by
  rintro r ⟨rfl, ⟨l, hlevels, hl⟩, houter, hcalm⟩
  have hphase : l.phase = .over result := hl.phase
  have hvalue : l.exitValue = value := hl.value
  obtain ⟨houter', hexecuting⟩ := List.forall_mem_append.mp houter
  rw [List.append_assoc] at hlevels
  obtain ⟨hchain, hseen⟩ := stepLevels_append o [l] houter' (hexecuting o List.mem_cons_self)
  have hstep : r.step = .ok { r with levels := outer ++ [o.leave result] } := by
    unfold step
    rw [hlevels, List.singleton_append, hchain, stepLevels, hphase]
    rfl
  have hbeats : r.beats = [⟨(outer ++ [o]).map Level.exitValue ++ [value], .closed result⟩] := by
    rw [Run.beats, hlevels, List.singleton_append, hseen, chainActs, hphase, ← hvalue]
    simp
  obtain ⟨r', hplays, hstands⟩ := h { r with levels := outer ++ [o.leave result] }
    ⟨rfl, ⟨_, rfl, at_leave ho result⟩, houter', hcalm⟩
  have hplays' := Plays.step hstep hplays
  rw [hbeats] at hplays'
  exact ⟨r', hplays', hstands⟩

end Run

end CommandConsole
