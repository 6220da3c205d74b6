import CommandConsole.Proofs.Command.Finding
import CommandConsole.Proofs.Session.Law

/-!
# Where the errors of commands stop

A command is run through a boundary: what its body comes to is turned into what the session gets.
`Comes` says what a script may come to, whatever its requests are answered, with the entries that it
leaves in the log of the session that runs it. `Crosses` is what the boundary makes of a result: a
code and `interrupted` pass, and any other failure is reported in one line and becomes the code 1.

The report is a write like any other. If it fails, the fault of the stream is what the session gets,
so a second failure crosses the boundary.

Results: `comes_bind_iff`, `comes_perform_iff` (what a command comes to), `step_report` (the report
is one call), `ran_of_past` (each command of a session has come to its end). Main statement:
`boundary_of_past`.
-/

namespace CommandConsole

namespace Session

variable {α β : Type} {es : List Entry}

/-! ## What scripts come to -/

/-- What a script comes to, with the entries that it leaves. -/
inductive Comes : Command.Script α → List Entry → α → Prop
  | done (x : α) : Comes (.done x) [] x
  | used {r : Command.Request} {more : Command.Answer r → Command.Script α} {es : List Entry}
      {x : α} (a : Command.Answer r) (h : Comes (more a) es x) :
      Comes (.ask r more) (.used r a :: es) x
  /-- A nested session has ended, which left its entries in its own log. -/
  | nested {r : Command.Request} {more : Command.Answer r → Command.Script α} {es : List Entry}
      {x : α} {resume : Except Failure ExitCode → Command.Script α}
      (hr : Level.resumption r more = some resume) (result : Except Failure ExitCode)
      (h : Comes (resume result) es x) : Comes (.ask r more) es x
  /-- Another command runs in this one's place. -/
  | invoked {words : List String} {more : Option (Except Failure ExitCode) → Command.Script α}
      {es : List Entry} {x : α} (b : Binding) (inv : Command.Invocation)
      (h : Comes ((b.perform inv).run.bind fun result => more (some result)) es x) :
      Comes (.ask (.invoke words) more) es x

theorem Comes.bind {script : Command.Script α} {f : α → Command.Script β} {x : α} {y : β}
    {more : List Entry} (h : Comes script es x) (hf : Comes (f x) more y) :
    Comes (script.bind f) (es ++ more) y := by
  induction h with
  | done => exact hf
  | used a _ ih => exact .used a (ih hf)
  | @nested r _ _ _ _ hr result _ ih =>
    cases r with
    | nestShell | nestOnce =>
      cases hr
      exact .nested rfl result (ih hf)
    | _ => cases hr
  | invoked b inv _ ih =>
    refine .invoked b inv ?_
    rw [← Program.bind_assoc]
    exact ih hf

theorem exists_of_comes_bind {whole : Command.Script β} {f : α → Command.Script β} {y : β}
    (h : Comes whole es y) (script : Command.Script α) (hw : script.bind f = whole) :
    ∃ before x after, es = before ++ after ∧ Comes script before x ∧ Comes (f x) after y := by
  -- The script may be done before any constructor of `h`, and all of it is then what follows.
  induction h generalizing script with
  | done y =>
    cases script with
    | done x => exact ⟨[], x, _, rfl, .done x, (show f x = _ from hw) ▸ .done y⟩
    | ask => cases hw
  | used a h ih =>
    cases script with
    | done x => exact ⟨[], x, _, rfl, .done x, (show f x = _ from hw) ▸ .used a h⟩
    | ask r next =>
      cases hw
      obtain ⟨before, x, after, rfl, hbefore, hafter⟩ := ih (next a) rfl
      exact ⟨_, x, after, rfl, .used a hbefore, hafter⟩
  | @nested r _ _ _ _ hr result h ih =>
    cases script with
    | done x => exact ⟨[], x, _, rfl, .done x, (show f x = _ from hw) ▸ .nested hr result h⟩
    | ask r' next =>
      cases hw
      cases r with
      | nestShell | nestOnce =>
        cases hr
        obtain ⟨before, x, after, rfl, hbefore, hafter⟩ := ih _ rfl
        exact ⟨_, x, after, rfl, .nested rfl result hbefore, hafter⟩
      | _ => cases hr
  | invoked b inv h ih =>
    cases script with
    | done x => exact ⟨[], x, _, rfl, .done x, (show f x = _ from hw) ▸ .invoked b inv h⟩
    | ask r' next =>
      cases hw
      obtain ⟨before, x, after, rfl, hbefore, hafter⟩ := ih _ (Program.bind_assoc _ _ _)
      exact ⟨_, x, after, rfl, .invoked b inv hbefore, hafter⟩

/-- **A script and what follows it** are done one after the other. -/
theorem comes_bind_iff {script : Command.Script α} {f : α → Command.Script β} {y : β} :
    Comes (script.bind f) es y ↔
      ∃ before x after, es = before ++ after ∧ Comes script before x ∧ Comes (f x) after y := by
  constructor
  · intro h
    exact exists_of_comes_bind h script rfl
  · rintro ⟨before, x, after, rfl, hbefore, hafter⟩
    exact hbefore.bind hafter

/-! ## The boundary -/

/-- The report of a failed command, as it stands in the log. -/
def reporting (e : Failure) (a : Except StreamFault Unit) : Entry :=
  .used (.write .err (Text.asLine e.report)) a

/-- What the boundary makes of the result that a body came to, and of the entries that it left. -/
inductive Crosses : Except Failure ExitCode → List Entry → Except Failure ExitCode →
    List Entry → Prop
  | code (code : ExitCode) (es : List Entry) : Crosses (.ok code) es (.ok code) es
  | interrupted (es : List Entry) : Crosses (.error .interrupted) es (.error .interrupted) es
  | reported {e : Failure} (he : e ≠ .interrupted) (es : List Entry) :
      Crosses (.error e) es (.ok ExitCode.failed) (es ++ [reporting e (.ok ())])
  /-- The report could not be written. -/
  | unreported {e : Failure} (he : e ≠ .interrupted) (es : List Entry) (fault : StreamFault) :
      Crosses (.error e) es (.error (.stream fault)) (es ++ [reporting e (.error fault)])

/-- What follows the body of a command. -/
def crossing : Except Failure ExitCode → Command.Script (Except Failure ExitCode)
  | .ok code => .done (.ok code)
  | .error .interrupted => .done (.error .interrupted)
  | .error e => (Binding.reportFailure e).run

/-- The body of a command, called by its name with its arguments. -/
def bodyOf (b : Binding) (inv : Command.Invocation) : Command.Script (Except Failure ExitCode) :=
  (b.command.body { inv with name := b.name, args := b.args }).run

theorem perform_run (b : Binding) (inv : Command.Invocation) :
    (b.perform inv).run = (bodyOf b inv).bind crossing := by
  refine congrArg (Program.bind (bodyOf b inv)) (funext fun result => ?_)
  rcases result with e | code
  · cases e <;> rfl
  · rfl

variable {inner result : Except Failure ExitCode} {before : List Entry}

theorem crossing_error {e : Failure} (he : e ≠ .interrupted) :
    crossing (.error e) = (Binding.reportFailure e).run := by
  cases e with
  | interrupted => exact absurd rfl he
  | _ => rfl

/-- What the session gets, by the answer to the report. -/
def ofReport : Except StreamFault Unit → Except Failure ExitCode
  | .ok () => .ok ExitCode.failed
  | .error fault => .error (.stream fault)

theorem reportFailure_run (e : Failure) : (Binding.reportFailure e).run =
    .ask (.write .err (Text.asLine e.report)) fun a => .done (ofReport a) := by
  refine congrArg (Program.ask _) (funext fun a => ?_)
  cases a <;> rfl

/-- A report is one write call. -/
theorem comes_reportFailure_iff {e : Failure} : Comes (Binding.reportFailure e).run es result ↔
    ∃ a, es = [reporting e a] ∧ result = ofReport a := by
  rw [reportFailure_run]
  constructor
  · intro h
    cases h with
    | used a h =>
      cases h
      exact ⟨a, rfl, rfl⟩
    | nested hr => cases hr
  · rintro ⟨a, rfl, rfl⟩
    exact .used _ (.done _)

theorem comes_crossing_iff :
    (∃ after, es = before ++ after ∧ Comes (crossing inner) after result) ↔
      Crosses inner before result es := by
  constructor
  · rintro ⟨after, rfl, h⟩
    cases inner with
    | ok code =>
      cases h
      rw [List.append_nil]
      exact .code code before
    | error e =>
      by_cases he : e = .interrupted
      · subst he
        cases h
        rw [List.append_nil]
        exact .interrupted before
      · rw [crossing_error he, comes_reportFailure_iff] at h
        obtain ⟨fault | ⟨⟩, rfl, rfl⟩ := h
        · exact .unreported he before fault
        · exact .reported he before
  · intro h
    cases h with
    | code | interrupted => exact ⟨[], (List.append_nil _).symm, .done _⟩
    | reported he =>
      rw [crossing_error he]
      exact ⟨_, rfl, comes_reportFailure_iff.mpr ⟨.ok (), rfl, rfl⟩⟩
    | unreported he _ fault =>
      rw [crossing_error he]
      exact ⟨_, rfl, comes_reportFailure_iff.mpr ⟨.error fault, rfl, rfl⟩⟩

/-- **What a command comes to** is what the boundary makes of what its body comes to. -/
theorem comes_perform_iff {b : Binding} {inv : Command.Invocation} :
    Comes (b.perform inv).run es result ↔
      ∃ inner before, Comes (bodyOf b inv) before inner ∧ Crosses inner before result es := by
  rw [perform_run, comes_bind_iff]
  constructor
  · rintro ⟨before, inner, after, he, hbody, hafter⟩
    exact ⟨inner, before, hbody, comes_crossing_iff.mp ⟨after, he, hafter⟩⟩
  · rintro ⟨inner, before, hbody, hcrosses⟩
    obtain ⟨after, he, hafter⟩ := comes_crossing_iff.mpr hcrosses
    exact ⟨before, inner, after, he, hbody, hafter⟩

theorem Crosses.interrupted_iff (h : Crosses inner before result es) :
    result = .error .interrupted ↔ inner = .error .interrupted := by
  cases h with
  | code | interrupted => rfl
  | reported he | unreported he => simp [he]

/-- Only `interrupted` crosses, and the fault of a report that could not be written. -/
theorem Crosses.error {e : Failure} (h : Crosses inner before (.error e) es) :
    e = .interrupted ∨ ∃ fault cause, e = .stream fault ∧ inner = .error cause ∧
      cause ≠ .interrupted ∧ es = before ++ [reporting cause (.error fault)] := by
  cases h with
  | interrupted => exact .inl rfl
  | unreported he _ fault => exact .inr ⟨fault, _, rfl, rfl, he, rfl⟩

end Session

open Session

namespace Level

variable {console : Console} {w w' : World} {l l' l₀ : Level} {log entries : List Entry}
  {past marks : List Mark}

/-- **The report of a failed command** is one call on the sink of the session's errors, which has
the whole line; it can be written if that call is taken. -/
theorem step_report {text : String}
    {more : Command.Answer (.write .err (Text.asLine text)) →
      Command.Script (Except Failure ExitCode)}
    {next : Except Failure ExitCode → Plan Next}
    (hp : l.phase = .command (.ask (.write .err (Text.asLine text)) more) next) :
    ∃ a, l.step console w = .moved (l.goto (.command (more a) next))
      (w.setSink l.err.sink ((w.sink l.err.sink).called (l.err.output.translate (text ++ "\n"))
        (w.sink l.err.sink).takesNext)) false ∧
      (a = .ok () ↔ (w.sink l.err.sink).takesNext = true) := by
  refine ⟨(w.write l.err (Text.asLine text)).1, ?_, ?_⟩
  · rw [step, hp, ← World.write_asLine]
    rfl
  · have hne : l.err.output.translate (Text.asLine text) ≠ "" := by
      rw [ne_eq, Output.translate_eq_empty_iff]
      exact Text.asLine_ne text
    rw [World.write, Output.write]
    exact Sink.write_eq_ok_iff hne

/-! ## The commands of a session -/

/-- A script runs as part of a command that began before, with the entries it has left so far: to
whatever the script comes, the command comes. -/
def RunsFor (console : Console) (l₀ : Level) (log : List Entry)
    (script : Command.Script (Except Failure ExitCode)) : Prop :=
  ∃ front b during, log = front ++ .began b :: during ∧
    ∀ es result, Comes script es result → Comes (l₀.scriptOf console b) (during ++ es) result

/-- Where a session stands in its command. -/
def Amid (console : Console) (l₀ : Level) (log : List Entry) : Phase → Prop
  | .command script _ => RunsFor console l₀ log script
  | .nested resume _ => ∀ result, RunsFor console l₀ log (resume result)
  | .idle | .own _ | .over _ => True

/-- Each command of a session that has ended has come to its result since it began. -/
def Completed (console : Console) (l₀ : Level) (log : List Entry) : Prop :=
  ∀ front result back, log = front ++ .ended result :: back → ∃ before b during,
    front = before ++ .began b :: during ∧ Comes (l₀.scriptOf console b) during result

/-- What holds of a session with its log. -/
structure Ran (console : Console) (l₀ : Level) (log : List Entry) (l : Level) : Prop where
  context : l.invocation console = l₀.invocation console
  amid : Amid console l₀ log l.phase
  completed : Completed console l₀ log

theorem RunsFor.used {r : Command.Request}
    {more : Command.Answer r → Command.Script (Except Failure ExitCode)}
    (h : RunsFor console l₀ log (.ask r more)) (a : Command.Answer r) :
    RunsFor console l₀ (log ++ [.used r a]) (more a) := by
  obtain ⟨front, b, during, rfl, hcomes⟩ := h
  refine ⟨front, b, during ++ [.used r a], by rw [List.append_assoc, List.cons_append], ?_⟩
  intro es result h
  rw [List.append_assoc]
  exact hcomes _ result (.used a h)

theorem RunsFor.nested {r : Command.Request}
    {more : Command.Answer r → Command.Script (Except Failure ExitCode)}
    {resume : Except Failure ExitCode → Command.Script (Except Failure ExitCode)}
    (h : RunsFor console l₀ log (.ask r more)) (hr : resumption r more = some resume)
    (result : Except Failure ExitCode) : RunsFor console l₀ log (resume result) := by
  obtain ⟨front, b, during, rfl, hcomes⟩ := h
  exact ⟨front, b, during, rfl, fun es x h => hcomes es x (.nested hr result h)⟩

/-- An entry that is not the end of a command. -/
theorem Completed.snoc {x : Entry} (h : Completed console l₀ log)
    (hx : ∀ result, x ≠ .ended result) : Completed console l₀ (log ++ [x]) := by
  intro front result back he
  obtain ⟨-, hx', -⟩ | ⟨rest, -, hcut⟩ := cut_snoc he
  · exact absurd hx'.symm (hx result)
  · exact h front result rest hcut

/-- The end of a command. -/
theorem Completed.ended {result : Except Failure ExitCode} (h : Completed console l₀ log)
    (hruns : RunsFor console l₀ log (.done result)) :
    Completed console l₀ (log ++ [.ended result]) := by
  intro front result' back he
  obtain ⟨rfl, hx, -⟩ | ⟨rest, -, hcut⟩ := cut_snoc he
  · cases hx
    obtain ⟨before, b, during, hlog, hcomes⟩ := hruns
    have hdone := hcomes [] result (.done result)
    rw [List.append_nil] at hdone
    exact ⟨before, b, during, hlog, hdone⟩
  · exact h front result' rest hcut

/-- A change that leaves no entry. -/
theorem Ran.silent (h : Ran console l₀ log l) (hc : l'.invocation console = l.invocation console)
    (ha : Amid console l₀ log l'.phase) : Ran console l₀ (log ++ []) l' := by
  rw [List.append_nil]
  exact ⟨hc.trans h.context, ha, h.completed⟩

theorem onRole_once (b : Binding) (x : Entry) : x.onRole (.once b) = .once b := by
  unfold Entry.onRole
  split <;> rfl

/-- Nothing that a command does changes what the commands of the session are run with. -/
theorem invocation_used {x : Entry} (hrole : l'.role = x.onRole l.role) (henv : l'.env = l.env) :
    l'.invocation console = l.invocation console := by
  have hargs : l'.shellArgs? = l.shellArgs? := by
    rw [shellArgs?, shellArgs?, hrole]
    cases l.role with
    | shell args value => rw [onRole_shell]
    | once b => rw [onRole_once]
  rw [invocation, invocation, hargs, henv]

theorem invocation_leave (l : Level) (result : Except Failure ExitCode) :
    (l.leave result).invocation console = l.invocation console := by
  unfold leave
  split <;> rfl

theorem ran_of_does (h : Ran console l₀ log l) (hd : Does console w l entries l') :
    Ran console l₀ (log ++ entries) l' := by
  have hamid := h.amid
  cases hd with
  | again | ended => exact h.silent rfl trivial
  | waited => exact h.silent rfl hamid
  | asked => exact ⟨h.context, trivial, h.completed.snoc nofun⟩
  | @began b next hp =>
    have hscript : l.scriptOf console b = l₀.scriptOf console b :=
      congrArg (fun inv => (b.perform inv).run) h.context
    exact ⟨h.context, ⟨log, b, [], rfl, fun es result hcomes => hscript ▸ hcomes⟩,
      h.completed.snoc nofun⟩
  | returned hp =>
    rw [hp] at hamid
    exact ⟨h.context, trivial, h.completed.ended hamid⟩
  | used hp =>
    rw [hp] at hamid
    refine ⟨Eq.trans ?_ h.context, hamid.used _, h.completed.snoc nofun⟩
    exact invocation_used rfl rfl
  | invoked hp =>
    rw [hp] at hamid
    obtain ⟨front, b, during, rfl, hcomes⟩ := hamid
    refine h.silent rfl ⟨front, b, during, rfl, fun es result hscript => ?_⟩
    exact hcomes es result (.invoked _ (l.invocation console) hscript)
  | nested hp hr =>
    rw [hp] at hamid
    exact h.silent rfl fun result => hamid.nested hr result

theorem ran_of_undergoes (h : Ran console l₀ log l) (hu : Undergoes console l marks l') :
    Ran console l₀ (log ++ logOf marks) l' := by
  cases hu with
  | step hs =>
    rw [logOf_marks]
    exact ran_of_does h (does_of_step hs)
  | nest hs =>
    rw [logOf_marks]
    exact ran_of_does h (does_of_nests hs).2
  | leave result =>
    exact h.silent (invocation_leave _ result)
      (phase_leave (fun resume next hall => hall result) h.amid)
  | execute hx =>
    obtain ⟨-, rfl⟩ := execute_eq_ok_iff.mp hx
    exact h.silent rfl trivial
  | call behind => exact h.silent rfl h.amid
  | prompted | heard => exact ⟨h.context, trivial, h.completed.snoc nofun⟩

theorem ran_of_past (hnew : New console l₀) (h : Past console l₀ past l) :
    Ran console l₀ (logOf past) l := by
  induction h with
  | refl =>
    refine ⟨rfl, ?_, by simp [Completed]⟩
    cases hnew <;> trivial
  | tail _ hu ih =>
    rw [logOf_append]
    exact ran_of_undergoes ih hu

/-- **Where the errors of commands stop.** A command comes to its body's code, to `interrupted`
exactly if its body does, and to the code 1 after any other failure of it, which was reported; or to
the fault of the stream on which that could not be reported. The report is one call on the sink of
the session's errors. So each command of each session has come to its result since it began,
whatever happened to the session. -/
theorem boundary_of_past (console : Console) :
    (∀ b inv es result, Comes (b.perform inv).run es result ↔
      ∃ inner before, Comes (bodyOf b inv) before inner ∧ Crosses inner before result es) ∧
    (∀ inner before result es, Crosses inner before result es →
      (result = .error .interrupted ↔ inner = .error .interrupted) ∧
      ∀ e, result = .error e → e = .interrupted ∨ ∃ fault cause, e = .stream fault ∧
        inner = .error cause ∧ cause ≠ .interrupted ∧
        es = before ++ [reporting cause (.error fault)]) ∧
    (∀ (w : World) (l : Level) (e : Failure)
      (more : Command.Answer (.write .err (Text.asLine e.report)) →
        Command.Script (Except Failure ExitCode)) (next : Except Failure ExitCode → Plan Next),
      l.phase = .command (.ask (.write .err (Text.asLine e.report)) more) next →
      ∃ a, l.step console w = .moved (l.goto (.command (more a) next))
        (w.setSink l.err.sink ((w.sink l.err.sink).called
          (l.err.output.translate ("Error: " ++ e.message ++ "\n"))
          (w.sink l.err.sink).takesNext)) false ∧
        (a = .ok () ↔ (w.sink l.err.sink).takesNext = true)) ∧
    ∀ l₀ past l, New console l₀ → Past console l₀ past l →
      Completed console l₀ (logOf past) := by
  refine ⟨fun b inv es result => comes_perform_iff, fun inner before result es h => ⟨?_, ?_⟩,
    fun w l e more next hp => step_report hp,
    fun l₀ past l hnew h => (ran_of_past hnew h).completed⟩
  · exact h.interrupted_iff
  · rintro e rfl
    exact h.error

/-! ### A report that cannot be written -/

/-- A command that fails. -/
def fire : Binding :=
  ⟨{ body := fun _ => throw (.execution "disk on fire") }, "fail", []⟩

/-- The session of that command, as it is made. -/
def burning : Level :=
  Level.once fire ⟨.first, {}⟩ ⟨.second, {}⟩ {}

/-- What the session does in a world, once it is executed. -/
def burnt (w : World) : List Mark :=
  (record {} 9 w { burning with
    state := { executed := true, running := true }, phase := .own (burning.opening {}) }).1

theorem past_burnt (w : World) : ∃ l, Past {} burning (burnt w) l := by
  have hexecuted : Past {} burning [] _ := Past.refl.tail (.execute rfl)
  exact ⟨_, hexecuted.record 9 w⟩

/-- The failure is reported, and becomes the code 1. -/
theorem boundary_burnt :
    Comes (burning.scriptOf {} fire) [reporting (.execution "disk on fire") (.ok ())] (.ok 1) ∧
    logOf (burnt {}) = [.began fire, reporting (.execution "disk on fire") (.ok ()), .ended (.ok 1),
      .asked .flush (.ok ())] ∧
    Completed {} burning (logOf (burnt {})) := by
  obtain ⟨hcomes, -, -, hcompleted⟩ := boundary_of_past {}
  obtain ⟨l, hpast⟩ := past_burnt {}
  have hcause : Failure.execution "disk on fire" ≠ .interrupted := nofun
  exact ⟨(hcomes fire _ _ _).mpr ⟨_, [], .done _, .reported hcause []⟩, rfl,
    hcompleted burning (burnt {}) l (.once _ _ _ _) hpast⟩

/-- **A failure that cannot be reported** crosses the boundary as the fault of the stream. -/
theorem unreported_burnt :
    Comes (bodyOf fire (burning.invocation {})) [] (.error (.execution "disk on fire")) ∧
    logOf (burnt { second := { faults := .writesFrom 0 ⟨"sink failed"⟩ } }) =
      [.began fire, reporting (.execution "disk on fire") (.error ⟨"sink failed"⟩),
        .ended (.error (.stream ⟨"sink failed"⟩)), .asked .flush (.ok ())] ∧
    (Except.error (.stream ⟨"sink failed"⟩) : Except Failure ExitCode) ≠ .ok 1 :=
  ⟨.done _, rfl, nofun⟩

end Level

end CommandConsole
