import CommandConsole.Proofs.Command.ExitValues
import CommandConsole.Proofs.Terminal.Lines

/-!
# Leaving a shell

Once a shell has heard a line that is `exit` or `quit` with its arguments, nothing that happens
around it changes what comes of it. `Level.Bound` says so of any session: in every world that is fair
to it, and interrupted or not, its next step moves, and it stays bound for what it was bound for.

The lemmas on the requests are stated backwards: what all shells that stand behind a request are bound
for, those that stand before it are bound for too.

Main statement: `leaves_with_exit_value`.
-/

namespace CommandConsole

open Session

namespace Level

/-- The session with its operation in progress interrupted or not. -/
def withCancelled (l : Level) (cancelled : Bool) : Level :=
  { l with state := { l.state with cancelled := cancelled } }

/-- A session comes to where `P` holds, whatever else is done to the worlds it is in, as long as these
are fair, and however it is interrupted. -/
inductive Bound (console : Console) (fair : World → Prop) (P : Level → Prop) : Level → Prop
  | here {l : Level} (h : P l) : Bound console fair P l
  | step {l : Level}
      (hmoves : ∀ cancelled w, fair w →
        ∃ l' w', (l.withCancelled cancelled).step console w = .moved l' w' false)
      (h : ∀ cancelled w l' w', fair w →
        (l.withCancelled cancelled).step console w = .moved l' w' false → Bound console fair P l') :
      Bound console fair P l

/-- All shells of a role that stand at a phase are bound for `P`. -/
def AllBound (console : Console) (fair : World → Prop) (P : Level → Prop) (role : Role)
    (phase : Phase) : Prop :=
  ∀ l : Level, l.role = role → l.phase = phase → Bound console fair P l

variable {console : Console} {fair : World → Prop} {P : Level → Prop} {role : Role} {phase : Phase}
  {script : Command.Script (Except Failure ExitCode)} {next : Except Failure ExitCode → Plan Next}

theorem allBound_here (h : ∀ l : Level, l.role = role → l.phase = phase → P l) :
    AllBound console fair P role phase :=
  fun l hr hp => .here (h l hr hp)

theorem allBound_step
    (h : ∀ (l : Level) w, l.role = role → l.phase = phase → fair w →
      ∃ l' w', l.step console w = .moved l' w' false ∧
        AllBound console fair P l'.role l'.phase) :
    AllBound console fair P role phase := by
  intro l hr hp
  have hstep := fun cancelled w => h (l.withCancelled cancelled) w hr hp
  refine .step (fun cancelled w hw => ?_) fun cancelled w l' w' hw hmoved => ?_
  · obtain ⟨l', w', hmoved, -⟩ := hstep cancelled w hw
    exact ⟨l', w', hmoved⟩
  · obtain ⟨l'', w'', hmoved', hall⟩ := hstep cancelled w hw
    cases hmoved.symm.trans hmoved'
    exact hall l' rfl rfl

/-- A step that only takes the shell elsewhere. -/
theorem allBound_goto {phase' : Phase}
    (hstep : ∀ (l : Level) w, l.role = role → l.phase = phase → fair w →
      ∃ l' w', l.step console w = .moved l' w' false ∧ l'.role = role ∧ l'.phase = phase')
    (h : AllBound console fair P role phase') : AllBound console fair P role phase := by
  refine allBound_step fun l w hr hp hw => ?_
  obtain ⟨l', w', hmoved, hrole, hphase⟩ := hstep l w hr hp hw
  exact ⟨l', w', hmoved, hrole ▸ hphase ▸ h⟩

/-! ## The shell's own plan -/

theorem allBound_resolve {words : List String} {b : Binding}
    {next : Answer (.resolve words) → Plan Next} (hb : console.resolve (.words words) = .ok b)
    (h : AllBound console fair P role (.own (next (.ok b)))) :
    AllBound console fair P role (.own (.ask (.resolve words) next)) := by
  refine allBound_goto (fun l w hr hp _ => ?_) h
  refine ⟨l.goto (.own (next (.ok b))), w, ?_, hr, rfl⟩
  rw [step, hp, ← hb]
  rfl

theorem allBound_run {b : Binding} {next : Answer (.run b) → Plan Next}
    (hscript : ∀ inv : Command.Invocation, (b.perform inv).run = script)
    (h : AllBound console fair P role (.command script next)) :
    AllBound console fair P role (.own (.ask (.run b) next)) := by
  refine allBound_goto (fun l w hr hp _ => ?_) h
  refine ⟨l.goto (.command script next), w, ?_, hr, rfl⟩
  rw [step, hp, ← hscript (l.invocation console)]
  rfl

theorem allBound_isCancelled {next : Answer .isCancelled → Plan Next}
    (h : ∀ cancelled, AllBound console fair P role (.own (next cancelled))) :
    AllBound console fair P role (.own (.ask .isCancelled next)) := by
  refine allBound_step fun l w hr hp _ => ?_
  refine ⟨l.goto (.own (next l.state.cancelled)), w, ?_, hr ▸ h l.state.cancelled⟩
  rw [step, hp]
  rfl

theorem allBound_renew {next : Answer .renew → Plan Next}
    (h : AllBound console fair P role (.own (next ()))) :
    AllBound console fair P role (.own (.ask .renew next)) := by
  refine allBound_goto (fun l w hr hp _ => ?_) h
  refine ⟨{ l with state := l.state.renew, phase := .own (next ()) }, w, ?_, hr, rfl⟩
  rw [step, hp]
  rfl

theorem allBound_exitValue {args : List String} {value : Option ExitCode}
    {next : Answer .exitValue → Plan Next}
    (h : AllBound console fair P (.shell args value) (.own (next value))) :
    AllBound console fair P (.shell args value) (.own (.ask .exitValue next)) := by
  refine allBound_goto (fun l w hr hp _ => ?_) h
  refine ⟨l.goto (.own (next value)), w, ?_, hr, rfl⟩
  have hvalue : l.exitValue = value := by rw [Level.exitValue, hr]
  rw [step, hp, ← hvalue]
  rfl

theorem allBound_flush {next : Answer .flush → Plan Next}
    (h : ∀ a, AllBound console fair P role (.own (next a))) :
    AllBound console fair P role (.own (.ask .flush next)) := by
  refine allBound_step fun l w hr hp _ => ?_
  refine ⟨l.goto (.own (next (w.flush l.out).1)), (w.flush l.out).2, ?_, hr ▸ h _⟩
  rw [step, hp]
  rfl

theorem allBound_again {buffer : String}
    (h : AllBound console fair P role (.own (orClose (turn console buffer)))) :
    AllBound console fair P role (.own (.done (.again buffer))) := by
  refine allBound_goto (fun l w hr hp _ => ?_) h
  refine ⟨l.goto (.own (orClose (turn console buffer))), w, ?_, hr, rfl⟩
  rw [step, hp]
  rfl

theorem allBound_finish {result : Except Failure ExitCode}
    (h : AllBound console fair P role (.over result)) :
    AllBound console fair P role (.own (.done (.ended result))) := by
  refine allBound_goto (fun l w hr hp _ => ?_) h
  refine ⟨l.finish result, w, ?_, hr, rfl⟩
  rw [step, hp]
  rfl

/-! ## Its commands -/

theorem allBound_setExitValue {args : List String} {value : Option ExitCode} {v : ExitCode}
    {more : Command.Answer (.setExitValue v) → Command.Script (Except Failure ExitCode)}
    (h : AllBound console fair P (.shell args (some v)) (.command (more ()) next)) :
    AllBound console fair P (.shell args value)
      (.command (.ask (.setExitValue v) more) next) := by
  refine allBound_step fun l w hr hp _ => ?_
  have hrole : (l.setExitValue v).role = .shell args (some v) := by rw [setExitValue, hr]
  refine ⟨(l.setExitValue v).goto (.command (more ()) next), w, ?_, hrole.symm ▸ h⟩
  rw [step, hp]
  rfl

theorem allBound_write {channel : Channel} {text : String}
    {more : Command.Answer (.write channel text) → Command.Script (Except Failure ExitCode)}
    (hfair : ∀ w, fair w → ∀ name, (w.sink name).Takes)
    (h : AllBound console fair P role (.command (more (.ok ())) next)) :
    AllBound console fair P role (.command (.ask (.write channel text) more) next) := by
  refine allBound_goto (fun l w hr hp hw => ?_) h
  have hwritten : (w.write (l.outlet channel) text).1 = .ok () :=
    (Sink.takes_write (hfair w hw _) _).1
  refine ⟨l.goto (.command (more (.ok ())) next), (w.write (l.outlet channel) text).2, ?_, hr, rfl⟩
  rw [step, hp, ← hwritten]
  rfl

theorem allBound_ended {result : Except Failure ExitCode}
    (h : AllBound console fair P role (.own (next result))) :
    AllBound console fair P role (.command (.done result) next) := by
  refine allBound_goto (fun l w hr hp _ => ?_) h
  refine ⟨l.goto (.own (next result)), w, ?_, hr, rfl⟩
  rw [step, hp]
  rfl

/-! ## A line that is a command -/

/-- A shell that has heard a command line runs the command that it names, and goes on with the next
turn. -/
theorem allBound_hearLine {role' : Role} {buffer line kept word : String} {words : List String}
    {b : Binding} {code : ExitCode}
    (hline : CommandLine.continueWith console.reader buffer line =
      (.ok (.complete (word :: words)), kept))
    (hb : console.resolve (.words (word :: words)) = .ok b)
    (hscript : ∀ inv : Command.Invocation, (b.perform inv).run = script)
    (hcommand : ∀ next, AllBound console fair P role' (.own (next (.ok code))) →
      AllBound console fair P role (.command script next))
    (h : AllBound console fair P role' (.own (orClose (turn console kept)))) :
    AllBound console fair P role (.own (orClose (hearLine console buffer line))) := by
  have hturn : AllBound console fair P role' (.own (.done (.again kept))) := allBound_again h
  unfold hearLine
  rw [hline]
  refine allBound_resolve hb (allBound_run hscript (hcommand _ (allBound_isCancelled ?_)))
  intro cancelled
  cases cancelled with
  | false => exact hturn
  | true => exact allBound_renew hturn

end Level

namespace Builtin

open Level

variable {console : Console} {name buffer line kept : String} {args shellArgs : List String}
  {value : Option ExitCode}

/-- The shell of an exit value that its commands have set is over with this value. -/
theorem allBound_of_exitValue {v : ExitCode} : AllBound console (fun _ => True)
    (fun l => l.phase = .over (.ok v) ∧ l.exitValue = some v) (.shell shellArgs (some v))
    (.own (orClose (turn console buffer))) := by
  refine allBound_exitValue (allBound_exitValue (allBound_flush fun a => allBound_finish ?_))
  refine allBound_here fun l hr hp => ⟨hp, ?_⟩
  rw [Level.exitValue, hr]

/-- **Accepted arguments** end the shell. -/
theorem allBound_of_accepts {v : ExitCode} (h : accepted? args = some v)
    (hline : CommandLine.continueWith console.reader buffer line =
      (.ok (.complete (name :: args)), kept))
    (hb : console.resolve (.words (name :: args)) = .ok ⟨exit, name, args⟩) :
    AllBound console (fun _ => True) (fun l => l.phase = .over (.ok v) ∧ l.exitValue = some v)
      (.shell shellArgs value) (.own (orClose (hearLine console buffer line))) :=
  allBound_hearLine hline hb (fun _ => scriptOf_exit_of_accepts h)
    (fun _ hnext => allBound_setExitValue (allBound_ended hnext)) allBound_of_exitValue

/-- **Other arguments** leave the shell as it is. -/
theorem allBound_of_refuses (h : accepted? args = none)
    (hline : CommandLine.continueWith console.reader buffer line =
      (.ok (.complete (name :: args)), kept))
    (hb : console.resolve (.words (name :: args)) = .ok ⟨exit, name, args⟩) :
    AllBound console (fun w => ∀ name, (w.sink name).Takes)
      (fun l => l.exitValue = none ∧
        ∃ next, l.phase = .own (.ask (.prompt (console.settings.promptFor kept)) next))
      (.shell shellArgs none) (.own (orClose (hearLine console buffer line))) := by
  refine allBound_hearLine hline hb (fun _ => scriptOf_exit_of_refuses h)
    (fun _ hnext => allBound_write (fun _ hw => hw) (allBound_ended hnext)) ?_
  refine allBound_exitValue (allBound_here fun l hr hp => ⟨?_, _, hp⟩)
  rw [Level.exitValue, hr]

/-- `exit` and `quit` name this command. -/
theorem resolve_exit (hregistry : console.registry = ⟨[bundle]⟩) (hname : name = "exit" ∨ name = "quit")
    (args : List String) : console.resolve (.words (name :: args)) = .ok ⟨exit, name, args⟩ := by
  have hlookup : (⟨[bundle]⟩ : Registry Command).lookup name = some exit := by
    rw [lookup_bundle]
    rcases hname with rfl | rfl <;> rfl
  have hfull : (⟨[bundle]⟩ : Registry Command).isEmpty = false := rfl
  rw [Console.resolve, hregistry]
  simp only [Binding.resolve, Binding.wordsOf, Except.bind, Binding.ofWords, hfull, hlookup]
  rfl

/-- **Exit values are exactly the numbers of 32 bits with a sign.** `exit` and `quit` accept no
argument, which is 0, or one that is a numeral of such a number. Then they set this value, and end
with it; and a shell that has heard them comes to its end with it, whatever else happens. Any other
arguments they complain about in one line, and end with 1; and a shell whose streams do not fail goes
on to its next prompt, without an exit value. -/
theorem leaves_with_exit_value :
    (∀ (console : Console) name args, console.registry = ⟨[bundle]⟩ → name = "exit" ∨ name = "quit" →
      console.resolve (.words (name :: args)) = .ok ⟨exit, name, args⟩) ∧
    (∀ args z, Accepts args z → ∃ v : ExitCode, v.toInt = z ∧
      (∀ inv name es result, Comes (scriptOf inv name args exit) es result ↔
        es = [.used (.setExitValue v) ()] ∧ result = .ok v) ∧
      ∀ console name buffer line kept (l : Level),
        CommandLine.continueWith console.reader buffer line =
          (.ok (.complete (name :: args)), kept) →
        console.resolve (.words (name :: args)) = .ok ⟨exit, name, args⟩ →
        l.shellArgs?.isSome = true → l.phase = .own (orClose (hearLine console buffer line)) →
        Bound console (fun _ => True) (fun l' => l'.phase = .over (.ok v) ∧ l'.exitValue = some v) l) ∧
    ∀ args, (∀ z, ¬ Accepts args z) →
      (∀ inv name es result,
        (Comes (scriptOf inv name args exit) es result ∧ ∀ x ∈ es, x.fault? = none) ↔
          es = [.used (.write .err (complaint name args ++ "\n")) (.ok ())] ∧
            result = .ok 1) ∧
      ∀ console name buffer line kept (l : Level),
        CommandLine.continueWith console.reader buffer line =
          (.ok (.complete (name :: args)), kept) →
        console.resolve (.words (name :: args)) = .ok ⟨exit, name, args⟩ →
        l.shellArgs?.isSome = true → l.exitValue = none →
        l.phase = .own (orClose (hearLine console buffer line)) →
        Bound console (fun w => ∀ name, (w.sink name).Takes) (fun l' => l'.exitValue = none ∧
          ∃ next, l'.phase = .own (.ask (.prompt (console.settings.promptFor kept)) next)) l := by
  refine ⟨fun console name args hregistry hname => resolve_exit hregistry hname args, ?_, ?_⟩
  · intro args z hz
    obtain ⟨v, rfl, hv⟩ := hz.exists
    refine ⟨v, rfl, fun inv name es result => comes_of_accepts hv, ?_⟩
    intro console name buffer line kept l hline hb hshell hp
    cases hrole : l.role with
    | shell shellArgs value => exact allBound_of_accepts hv hline hb l hrole hp
    | once b =>
      rw [shellArgs?, hrole] at hshell
      cases hshell
  · intro args hnone
    have hrefused := accepted?_eq_none hnone
    refine ⟨fun inv name es result => comes_of_refuses hrefused, ?_⟩
    intro console name buffer line kept l hline hb hshell hvalue hp
    cases hrole : l.role with
    | shell shellArgs value =>
      rw [Level.exitValue, hrole] at hvalue
      obtain rfl : value = none := hvalue
      exact allBound_of_refuses hrefused hline hb l hrole hp
    | once b =>
      rw [shellArgs?, hrole] at hshell
      cases hshell

/-- A console of the built-in commands. -/
def plainConsole : Console where
  registry := ⟨[bundle]⟩

/-- Its shell that has heard a line. -/
def heardShell (line : String) : Level :=
  (Level.shell plainConsole.settings [] {}).goto (.own (orClose (hearLine plainConsole "" line)))

/-- The smallest number ends the shell, and the one before it does not. -/
theorem leaves_with_least :
    (∃ v : ExitCode, v.toInt = -2147483648 ∧ Bound plainConsole (fun _ => True)
      (fun l' => l'.phase = .over (.ok v) ∧ l'.exitValue = some v)
      (heardShell "quit -02147483648")) ∧
    Bound plainConsole (fun w => ∀ name, (w.sink name).Takes) (fun l' => l'.exitValue = none ∧
      ∃ next, l'.phase = .own (.ask (.prompt "ctk> ") next)) (heardShell "exit -2147483649") := by
  obtain ⟨hresolve, haccepts, hrefuses⟩ := leaves_with_exit_value
  constructor
  · have hz : Accepts ["-02147483648"] (-2147483648) :=
      accepted?_eq_some_iff.mp (show accepted? ["-02147483648"] = some (-2147483648) by decide +kernel)
    obtain ⟨v, hv, -, hbound⟩ := haccepts _ _ hz
    exact ⟨v, hv, hbound plainConsole "quit" "" _ "" _ rfl (hresolve _ _ _ rfl (.inr rfl)) rfl rfl⟩
  · have hnone : ∀ z, ¬ Accepts ["-2147483649"] z := by
      intro z hz
      obtain ⟨v, -, hv⟩ := hz.exists
      have hrefused : accepted? ["-2147483649"] = none := by decide +kernel
      cases hrefused.symm.trans hv
    obtain ⟨-, hbound⟩ := hrefuses _ hnone
    exact hbound plainConsole "exit" "" _ "" _ rfl (hresolve _ _ _ rfl (.inl rfl)) rfl rfl rfl

end Builtin

end CommandConsole
