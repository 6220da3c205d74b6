import CommandConsole.Proofs.Session.Law
import Mathlib.Data.List.Induction

/-!
# What ends a shell

A shell goes on until its terminal is at the end of its input, an exit value is set, a line cannot
be read, or one of its own writes or flushes fails. `Stop` lists these ways. A log is read from its
latest entry back here, since it is the last few entries that tell whether the shell ends.

After a stop the shell asks for two things more: its exit value, or to report the failure, and then
a flush; it does not matter what they are answered (`Partings`). `ending` is the law that it asks for
nothing else after a stop, and ends only after one.

Results: `upheld_ending`, `course_of_permitted` (a log has one stop at most, with partings behind
it), `moves_of_stopped`. Main statement: `ending_of_past`.
-/

namespace CommandConsole.Session

/-- What ends a shell, by its log from the latest entry back, with the failure it ends by. -/
inductive Stop (console : Console) : List Entry → Option Failure → Prop
  | endOfInput {s : List Entry} (prompt : String) :
      Stop console (.asked (.event prompt) (.ok .endOfInput) :: s) none
  | exitSet {s : List Entry} (value : ExitCode) :
      Stop console (.asked .exitValue (some value) :: s) none
  /-- The prompt cannot be shown. -/
  | prompt {s : List Entry} (text : String) (fault : StreamFault) :
      Stop console (.asked (.prompt text) (.error fault) :: s) (some (.stream fault))
  /-- The line cannot be read. -/
  | line {s : List Entry} (prompt : String) (fault : StreamFault) :
      Stop console (.asked (.event prompt) (.error fault) :: s) (some (.stream fault))
  | greeting {text : String} (hg : console.settings.greeting? = some text) (fault : StreamFault) :
      Stop console [.asked (.write (Text.asLine text)) (.error fault)] (some (.stream fault))
  /-- The blank line after an interrupt at the prompt. -/
  | discarded {s : List Entry} (prompt : String) (renewed : Answer .renew) (fault : StreamFault) :
      Stop console (.asked (.write (Text.asLine "")) (.error fault) :: .asked .renew renewed ::
        .asked (.event prompt) (.ok .interrupted) :: s) (some (.stream fault))
  /-- The flush after a command that was interrupted. -/
  | flush {s : List Entry} (fault : StreamFault) :
      Stop console (.asked .flush (.error fault) :: .ended (.error .interrupted) :: s)
        (some (.stream fault))
  /-- The blank line after a command that was interrupted. -/
  | blank {s : List Entry} (flushed : Answer .flush) (fault : StreamFault) :
      Stop console (.asked (.write (Text.asLine "")) (.error fault) :: .asked .flush flushed ::
        .ended (.error .interrupted) :: s) (some (.stream fault))
  /-- The report of a malformed command line. -/
  | malformed {s : List Entry} {prompt line buffer : String} {report : CommandLine.Malformed}
      (hr : (CommandLine.continueWith console.reader buffer line).1 = .error report)
      (fault : StreamFault) :
      Stop console (.asked (.write (Text.asLine (Failure.malformed report).report)) (.error fault) ::
        .asked (.event prompt) (.ok (.line line)) :: s) (some (.stream fault))
  /-- The report of a command that failed. -/
  | command {s : List Entry} {e : Failure} (he : e ≠ .interrupted) (fault : StreamFault) :
      Stop console (.ended (.error (.stream fault)) ::
        .used (.write .err (Text.asLine e.report)) (.error fault) :: s) (some (.stream fault))

variable {console : Console} {s t : List Entry} {e : Option Failure} {buffer : String}

/-- Nothing has ended the shell so far. -/
def GoesOn (console : Console) (s : List Entry) : Prop :=
  ∀ t, t <:+ s → ∀ e, ¬ Stop console t e

/-- The latest entry has ended the shell, and none before it. -/
def Stopped (console : Console) (s : List Entry) (e : Option Failure) : Prop :=
  Stop console s e ∧ GoesOn console s.tail

theorem goesOn_nil (console : Console) : GoesOn console [] := by
  intro t ht e h
  rw [List.suffix_nil.mp ht] at h
  cases h

theorem GoesOn.cons {x : Entry} (h : GoesOn console s) (hx : ∀ e, ¬ Stop console (x :: s) e) :
    GoesOn console (x :: s) := by
  intro t ht e
  rcases List.suffix_cons_iff.mp ht with rfl | ht
  · exact hx e
  · exact h t ht e

theorem GoesOn.stopped {x : Entry} (h : GoesOn console s) (hx : Stop console (x :: s) e) :
    Stopped console (x :: s) e :=
  ⟨hx, h⟩

/-- A write that does not fail ends no shell. -/
theorem GoesOn.written {text : String} {done : Unit} (h : GoesOn console s) :
    GoesOn console (.asked (.write text) (.ok done) :: s) :=
  h.cons fun _ => nofun

/-- The report of words that name no command ends no shell, even if it cannot be written. -/
theorem GoesOn.reported {words : List String} {found : Answer (.resolve words)} {text : String}
    {a : Answer (.write text)} (h : GoesOn console (.asked (.resolve words) found :: s)) :
    GoesOn console (.asked (.write text) a :: .asked (.resolve words) found :: s) :=
  h.cons fun _ => nofun

/-- What a shell asks for first after a stop. -/
def parting : Option Failure → Request
  | none => .exitValue
  | some e => .write (Text.asLine e.report)

/-- The code of a shell, by the answer to that. -/
def partingCode : (e : Option Failure) → Answer (parting e) → ExitCode
  | none, value => Option.getD value 0
  | some _, _ => ExitCode.failed

/-- A shell asks for anything until it stops, and then for its partings. -/
inductive Asks (console : Console) : List Entry → Request → Prop
  | goesOn {s : List Entry} {r : Request} (h : GoesOn console s) : Asks console s r
  | parting {s : List Entry} {e : Option Failure} (h : Stopped console s e) :
      Asks console s (parting e)
  | flush {s : List Entry} {e : Option Failure} {a : Answer (Session.parting e)}
      (h : Stopped console s e) : Asks console (.asked (Session.parting e) a :: s) .flush

/-- A shell goes on to another turn until it stops, and ends after its partings. -/
inductive Closes (console : Console) : List Entry → Next → Prop
  | again {s : List Entry} {buffer : String} (h : GoesOn console s) : Closes console s (.again buffer)
  | ended {s : List Entry} {e : Option Failure} {a : Answer (parting e)} {b : Answer .flush}
      (h : Stopped console s e) : Closes console (.asked .flush b :: .asked (parting e) a :: s)
        (.ended (.ok (partingCode e a)))

/-- The law that a shell ends after its partings only, and these come after a stop. -/
def ending (console : Console) : Law (List Entry) where
  start := []
  see s x := x :: s
  asks := Asks console
  runs := GoesOn console
  ends := Closes console

theorem after_ending (s log : List Entry) : (ending console).after s log = log.reverse ++ s := by
  induction log generalizing s with
  | nil => rfl
  | cons x rest ih =>
    rw [Law.after_cons, ih, List.reverse_cons, List.append_assoc]
    rfl

theorem view_ending (log : List Entry) : (ending console).view log = log.reverse := by
  rw [Law.view, after_ending]
  exact List.append_nil _

/-! ## The parts of a shell keep the law -/

/-- A shell runs no command after a stop. -/
theorem Asks.goesOn_of_run {b : Binding} (h : Asks console s (.run b)) : GoesOn console s := by
  generalize hr : Request.run b = r at h
  cases h with
  | goesOn h => exact h
  | @parting _ e _ => cases e <;> cases hr
  | flush => cases hr

theorem ending_close (h : Stopped console s e) : (ending console).Keeps s (close e) := by
  cases e with
  | none =>
    refine Law.keeps_ask (r := .exitValue) nofun (.parting h) fun value => ?_
    refine Law.keeps_ask (r := .flush) nofun (.flush h) fun b => ?_
    exact .ended h
  | some e =>
    refine Law.keeps_ask (r := .write _) nofun (.parting h) fun a => ?_
    refine Law.keeps_ask (r := .flush) nofun (.flush h) fun b => ?_
    exact .ended h

/-- A line is written, and another turn follows unless that fails. -/
theorem ending_print {text : String} (h : GoesOn console s)
    (hstop : ∀ fault, Stop console (.asked (.write (Text.asLine text)) (.error fault) :: s)
      (some (.stream fault))) :
    (ending console).Keeps s (orClose do print text; return some buffer) := by
  refine Law.keeps_ask (r := .write _) nofun (.goesOn h) fun a => ?_
  cases a with
  | ok => exact .again h.written
  | error fault => exact ending_close (h.stopped (hstop fault))

theorem ending_hearInterrupt {prompt : String}
    (h : GoesOn console (.asked (.event prompt) (.ok .interrupted) :: s)) :
    (ending console).Keeps (.asked (.event prompt) (.ok .interrupted) :: s)
      (orClose hearInterrupt) := by
  refine Law.keeps_ask (r := .renew) nofun (.goesOn h) fun renewed => ?_
  exact ending_print (h.cons fun _ => nofun) (.discarded prompt renewed)

/-- Behind a command that was interrupted. -/
theorem ending_afterInterrupted (h : GoesOn console (.ended (.error .interrupted) :: s)) :
    (ending console).Keeps (.ended (.error .interrupted) :: s)
      (orClose do afterInterrupted; return some buffer) := by
  refine Law.keeps_ask (r := .flush) nofun (.goesOn h) fun flushed => ?_
  cases flushed with
  | error fault => exact ending_close (h.stopped (.flush fault))
  | ok done =>
    have hflushed : GoesOn console (.asked .flush (.ok done) :: .ended (.error .interrupted) :: s) :=
      h.cons fun _ => nofun
    refine Law.keeps_ask (r := .write _) nofun (.goesOn hflushed) fun a => ?_
    cases a with
    | error fault => exact ending_close (hflushed.stopped (.blank (.ok done) fault))
    | ok =>
      refine Law.keeps_ask (r := .renew) nofun (.goesOn hflushed.written) fun _ => ?_
      exact .again (hflushed.written.cons fun _ => nofun)

/-- Behind a command that ended with a code. -/
theorem ending_renewIfCancelled {code : ExitCode} (h : GoesOn console (.ended (.ok code) :: s)) :
    (ending console).Keeps (.ended (.ok code) :: s)
      (orClose do ExceptT.lift renewIfCancelled; return some buffer) := by
  refine Law.keeps_ask (r := .isCancelled) nofun (.goesOn h) fun cancelled => ?_
  have hlooked : GoesOn console (.asked .isCancelled cancelled :: .ended (.ok code) :: s) :=
    h.cons fun _ => nofun
  cases cancelled with
  | false => exact .again hlooked
  | true =>
    refine Law.keeps_ask (r := .renew) nofun (.goesOn hlooked) fun _ => ?_
    exact .again (hlooked.cons fun _ => nofun)

/-- What commands do ends no shell. -/
theorem goesOn_used {es : List Entry} (h : GoesOn console s) (hu : ∀ x ∈ es, x.IsUsed) :
    GoesOn console (es.reverse ++ s) := by
  induction es generalizing s with
  | nil => exact h
  | cons x rest ih =>
    obtain ⟨hx, hrest⟩ := List.forall_mem_cons.mp hu
    obtain ⟨r, a, rfl⟩ := hx
    rw [List.reverse_cons, List.append_assoc]
    exact ih (h.cons fun _ => nofun) hrest

theorem ending_dispatch {words : List String} (h : GoesOn console s) :
    (ending console).Keeps s (orClose do dispatch words; return some buffer) := by
  refine Law.keeps_ask (r := .resolve words) nofun (.goesOn h) fun found => ?_
  have hfound : GoesOn console (.asked (.resolve words) found :: s) := h.cons fun _ => nofun
  cases found with
  | error e =>
    -- It does not matter whether the report can be written.
    refine Law.keeps_ask (r := .write _) nofun (.goesOn hfound) fun a => ?_
    exact .again hfound.reported
  | ok b =>
    refine Law.keeps_run (.goesOn hfound) fun es result hused hperformed => ?_
    rw [after_ending]
    have hbegan : GoesOn console (.began b :: .asked (.resolve words) (.ok b) :: s) :=
      hfound.cons fun _ => nofun
    have hdone := goesOn_used hbegan hused
    cases hperformed with
    | ended code => exact ending_renewIfCancelled (hdone.cons fun _ => nofun)
    | interrupted => exact ending_afterInterrupted (hdone.cons fun _ => nofun)
    | unreported e fault he =>
      rw [List.reverse_append] at hdone ⊢
      exact ending_close (hdone.stopped (.command he fault))

theorem ending_hearLine {prompt line : String}
    (h : GoesOn console (.asked (.event prompt) (.ok (.line line)) :: s)) :
    (ending console).Keeps (.asked (.event prompt) (.ok (.line line)) :: s)
      (orClose (hearLine console buffer line)) := by
  unfold hearLine
  cases hc : CommandLine.continueWith console.reader buffer line with
  | mk answer kept =>
    match answer with
    | .error report => exact ending_print h (.malformed (congrArg Prod.fst hc))
    | .ok .needsMore => exact .again h
    | .ok (.complete []) => exact .again h
    | .ok (.complete (word :: words)) => exact ending_dispatch h

theorem ending_turn (h : GoesOn console s) :
    (ending console).Keeps s (orClose (turn console buffer)) := by
  refine Law.keeps_ask (r := .exitValue) nofun (.goesOn h) fun value => ?_
  cases value with
  | some value => exact ending_close (h.stopped (.exitSet value))
  | none =>
    have hvalue : GoesOn console (.asked .exitValue none :: s) := h.cons fun _ => nofun
    refine Law.keeps_ask (r := .prompt _) nofun (.goesOn hvalue) fun shown => ?_
    cases shown with
    | error fault => exact ending_close (hvalue.stopped (.prompt _ fault))
    | ok done =>
      have hshown : GoesOn console (.asked (.prompt (console.settings.promptFor buffer)) (.ok done) ::
          .asked .exitValue none :: s) := hvalue.cons fun _ => nofun
      refine Law.keeps_ask (r := .event _) nofun (.goesOn hshown) fun answer => ?_
      cases answer with
      | error fault => exact ending_close (hshown.stopped (.line _ fault))
      | ok event =>
        cases event with
        | endOfInput => exact ending_close (hshown.stopped (.endOfInput _))
        | line line => exact ending_hearLine (hshown.cons fun _ => nofun)
        | interrupted => exact ending_hearInterrupt (hshown.cons fun _ => nofun)

theorem ending_greet (console : Console) :
    (ending console).Keeps [] (orClose (greet console.settings)) := by
  unfold greet
  cases hg : console.settings.greeting? with
  | none => exact .again (goesOn_nil console)
  | some text => exact ending_print (goesOn_nil console) (.greeting hg)

/-- **Each part of a shell** goes on until there is a stop, and then comes to its partings. -/
theorem upheld_ending (console : Console) : (ending console).Upheld console where
  began s b h := h.goesOn_of_run.cons fun _ => nofun
  used s r a h := h.cons fun _ => nofun
  again s buffer h := by
    cases h with
    | again h => exact ending_turn h

/-! ## What it says of the log -/

/-- What a shell has left behind a stop, whatever it was answered. -/
inductive Partings : Option Failure → List Entry → Prop
  | none (e : Option Failure) : Partings e []
  | first {e : Option Failure} (a : Answer (parting e)) : Partings e [.asked (parting e) a]
  | both {e : Option Failure} (a : Answer (parting e)) (b : Answer .flush) :
      Partings e [.asked (parting e) a, .asked .flush b]

/-- The log of a shell has no stop, or it has one with partings behind it. -/
inductive Course (console : Console) (log : List Entry) : Prop
  | goesOn (h : GoesOn console log.reverse)
  | stopped {before after : List Entry} {e : Option Failure} (he : log = before ++ after)
      (hs : Stopped console before.reverse e) (hp : Partings e after)

/-- One entry more where nothing has ended the shell. -/
theorem course_snoc {log : List Entry} {x : Entry} (h : GoesOn console log.reverse) :
    Course console (log ++ [x]) := by
  by_cases hx : ∃ e, Stop console (x :: log.reverse) e
  · obtain ⟨e, hstop⟩ := hx
    have hstopped := h.stopped hstop
    rw [← List.reverse_concat] at hstopped
    exact .stopped (List.append_nil _).symm hstopped (.none e)
  · refine .goesOn ?_
    rw [List.reverse_concat]
    exact h.cons fun e he => hx ⟨e, he⟩

theorem course_asked {log : List Entry} {r : Request} {a : Answer r}
    (h : Asks console log.reverse r) : Course console (log ++ [.asked r a]) := by
  generalize hlog : log.reverse = s at h
  cases h with
  | goesOn h => exact course_snoc (hlog ▸ h)
  | parting h =>
    rw [← hlog] at h
    exact .stopped rfl h (.first a)
  | @flush s e b h =>
    have hsplit : log = s.reverse ++ [.asked (parting e) b] := by
      rw [← List.reverse_reverse log, hlog, List.reverse_cons]
    have hs : Stopped console s.reverse.reverse e := by rwa [List.reverse_reverse]
    exact .stopped (by rw [hsplit, List.append_assoc]; rfl) hs (.both b a)

theorem course_of_permitted {log : List Entry}
    (h : ∀ before x after, log = before ++ x :: after →
      (ending console).Permits ((ending console).view before) x) : Course console log := by
  cases log using List.reverseRecOn with
  | nil => exact .goesOn (goesOn_nil console)
  | append_singleton front x =>
    have hx := h front x [] rfl
    rw [view_ending] at hx
    cases x with
    | asked r a => exact course_asked hx
    | began b => exact course_snoc hx.goesOn_of_run
    | used r a => exact course_snoc hx
    | ended result => exact course_snoc hx

theorem Stopped.not_goesOn (h : Stopped console t e) (ht : t <:+ s) : ¬ GoesOn console s := by
  intro hgo
  exact hgo t ht e h.1

/-- After a stop nothing holds a shell up until it is over: each step moves, and leaves one of the
partings or ends the shell. -/
theorem moves_of_stopped {l : Level} (h : (ending console).Stands s l.phase)
    (hgo : ¬ GoesOn console s) (hover : ∀ result, l.phase ≠ .over result) (w : World) :
    ∃ l' w', l.step console w = .moved l' w' false ∧
      ((l.logged console w).length = 1 ∨ ∃ result, l'.phase = .over result) := by
  match hp : l.phase with
  | .over result => exact absurd hp (hover result)
  | .idle =>
    rw [hp] at h
    obtain rfl : s = [] := h
    exact absurd (goesOn_nil console) hgo
  | .command .. | .nested .. =>
    rw [hp] at h
    exact absurd h.1 hgo
  | .own (.done x) =>
    rw [hp] at h
    unfold Level.step
    rw [hp]
    cases h with
    | again hs => exact absurd hs hgo
    | ended => exact ⟨_, _, rfl, .inr ⟨_, rfl⟩⟩
  | .own (.ask r next) =>
    rw [hp] at h
    obtain ⟨hasks, -⟩ := h
    unfold Level.step Level.logged
    rw [hp]
    cases hasks with
    | goesOn hs => exact absurd hs hgo
    | @parting _ e _ => cases e <;> exact ⟨_, _, rfl, .inl rfl⟩
    | flush => exact ⟨_, _, rfl, .inl rfl⟩

/-! ## Main statement -/

/-- The code of a shell that a failure has ended, or that ended without one, by its log. -/
def finalCode : Option Failure → List Entry → ExitCode
  | none, log => (lastExit log).getD 0
  | some _, _ => ExitCode.failed

/-- The code after the partings is the one that the log gives. -/
theorem partingCode_eq {l : Level} {log front : List Entry} {a : Answer (parting e)}
    {b : Answer .flush} (hexits : Level.Exits log l)
    (he : log = front ++ [.asked (parting e) a, .asked .flush b]) :
    partingCode e a = finalCode e log := by
  cases e with
  | some e => rfl
  | none =>
    have hlook := hexits.looked front a [.asked .flush b] he
    have hlast : lastExit log = lastExit front := by
      rw [he, lastExit_append]
      rfl
    rw [finalCode, hlast, ← hlook]
    rfl

/-- A shell that is over has left its partings behind a stop, and has the code that its log gives. -/
theorem code_of_closes {l : Level} {log : List Entry} {result : Except Failure ExitCode}
    (h : Closes console log.reverse (.ended result)) (hexits : Level.Exits log l) :
    ∃ before after e, log = before ++ after ∧ Stopped console before.reverse e ∧
      Partings e after ∧ result = .ok (finalCode e log) := by
  generalize hlog : log.reverse = s at h
  cases h with
  | @ended s e a b hs =>
    have hsplit : log = s.reverse ++ [.asked (parting e) a, .asked .flush b] := by
      rw [← List.reverse_reverse log, hlog, List.reverse_cons, List.reverse_cons, List.append_assoc]
      rfl
    refine ⟨s.reverse, _, e, hsplit, by rwa [List.reverse_reverse], .both a b, ?_⟩
    rw [partingCode_eq hexits hsplit]

theorem kept_ending {args : List String} {env : Environment} {l : Level} {past : List Mark}
    (h : Level.Past console (Level.shell console.settings args env) past l) :
    (ending console).Kept (Level.shell console.settings args env) (logOf past) l :=
  have hopen : (ending console).Keeps (ending console).start
      ((Level.shell console.settings args env).opening console) := ending_greet console
  Law.kept_of_past (upheld_ending console) hopen rfl h

/-- **What ends a shell, and with which code.** Whatever its streams, its terminal and its commands
do, and however it is interrupted: while its log has no stop, it is not over. After the first stop
it comes to its partings only, nothing holds it up, and then it is over, never with an error but
with a code: 1 if a failure has ended it, otherwise the exit value that its commands set last, or 0.
And a shell that was not executed can be. -/
theorem ending_of_past {args : List String} {env : Environment} {l : Level} {past : List Mark}
    (h : Level.Past console (Level.shell console.settings args env) past l) :
    (∃ begun, (Level.shell console.settings args env).execute console = .ok begun) ∧
    ((GoesOn console (logOf past).reverse ∧ ∀ result, l.phase ≠ .over result) ∨
      ∃ before after e, logOf past = before ++ after ∧ Stopped console before.reverse e ∧
        Partings e after ∧
        (l.phase = .over (.ok (finalCode e (logOf past))) ∨
          (∀ result, l.phase ≠ .over result) ∧
            ∀ w, ∃ l' w', l.step console w = .moved l' w' false ∧
              ((l.logged console w).length = 1 ∨ ∃ result, l'.phase = .over result))) := by
  have hk := kept_ending h
  have hexits := Level.exits_of_past h rfl
  have hstands := hk.stands
  rw [view_ending] at hstands
  refine ⟨⟨_, rfl⟩, ?_⟩
  by_cases hover : ∃ result, l.phase = .over result
  · obtain ⟨result, hp⟩ := hover
    rw [hp] at hstands
    obtain ⟨before, after, e, he, hs, hpartings, rfl⟩ := code_of_closes hstands hexits
    exact .inr ⟨before, after, e, he, hs, hpartings, .inl hp⟩
  · have hrunning : ∀ result, l.phase ≠ .over result := fun result hp => hover ⟨result, hp⟩
    rcases course_of_permitted hk.permitted with hgo | ⟨he, hs, hpartings⟩
    · exact .inl ⟨hgo, hrunning⟩
    · refine .inr ⟨_, _, _, he, hs, hpartings, .inr ⟨hrunning, ?_⟩⟩
      refine moves_of_stopped hstands (hs.not_goesOn ?_) hrunning
      rw [he, List.reverse_append]
      exact List.suffix_append _ _

/-! ### A shell that fails though it has an exit value -/

/-- A console with a command that sets the exit value 5 and is interrupted. -/
def leavingConsole : Console where
  reader text := .ok (.complete [text])
  registry := ⟨[Bundle.ofList "" [("leave", ⟨{}, fun _ => do
    Command.Action.ask (.setExitValue 5)
    throw .interrupted⟩)]]⟩
  settings := { greeting := "" }

/-- Its shell as it begins. -/
def leavingShell : Level :=
  { Level.shell leavingConsole.settings [] {} with
    state := { executed := true, running := true }
    phase := .own (orClose (greet leavingConsole.settings)) }

/-- A world in which nothing can be flushed. -/
def clogged : World where
  first := { faults := Faults.flushes ⟨"clogged"⟩ }
  terminal := .scripted { cues := [.report (.ok (.line "leave"))] }

/-- What becomes of the shell in that world. -/
def leavingPast : List Mark × World × Level :=
  Level.record leavingConsole 40 clogged leavingShell

theorem past_leavingPast : Level.Past leavingConsole
    (Level.shell leavingConsole.settings [] {}) leavingPast.1 leavingPast.2.2 :=
  Level.Past.record (l := leavingShell) (.tail .refl (.execute rfl)) 40 clogged

/-- The flush after the command has ended the shell, with code 1 for all that the exit value is
5. -/
theorem ending_leaving :
    lastExit (logOf leavingPast.1) = some 5 ∧ leavingPast.2.2.phase = .over (.ok 1) ∧
    ∃ before after e, logOf leavingPast.1 = before ++ after ∧
      Stopped leavingConsole before.reverse (some e) := by
  have hexit : lastExit (logOf leavingPast.1) = some 5 := by decide +kernel
  have hover : leavingPast.2.2.phase = .over (.ok 1) :=
    Level.phase_eq_over leavingConsole {} (by decide +kernel)
  obtain ⟨-, ⟨-, hrunning⟩ | ⟨before, after, e, he, hs, -, hcode⟩⟩ := ending_of_past past_leavingPast
  · exact absurd hover (hrunning _)
  · refine ⟨hexit, hover, ?_⟩
    cases e with
    | some e => exact ⟨before, after, e, he, hs⟩
    | none =>
      rcases hcode with hcode | ⟨hrunning, -⟩
      · rw [hover, finalCode, hexit] at hcode
        cases hcode
      · exact absurd hover (hrunning _)

end CommandConsole.Session
