import CommandConsole.Proofs.Session.Chain
import CommandConsole.Proofs.Terminal.Reads
import Mathlib.Data.List.Induction

/-!
# What shells hear from a terminal on streams

A shell gives up its read when it is interrupted at its prompt, and may end or start another shell
before it reads again. `Hears` is what may happen to a run whose terminal is on streams while its
commands leave the input alone, with what its shells hear on the way. A line and an interrupt may
come at the same moment, and then either is heard first.

Results: `goes_of_step` (one step of a session), `goes_of_stepped` (one of a chain), `goes_of_hears`,
`serves_of_heard`. Main statement: `reads_of_plain`.
-/

namespace CommandConsole

open Session Source Terminal

/-- What a session has heard from the terminal; an interrupt of its own is not from there. -/
def Session.Entry.heard? : Entry → Option (Except StreamFault Event)
  | .asked (.event _) (.ok .interrupted) => none
  | .asked (.event _) e => some e
  | _ => none

/-- Whether a command has read the input. -/
def Session.Entry.readsInput : Entry → Bool
  | .used .readLine _ => true
  | _ => false

namespace Level

variable {console : Console} {w w' : World} {l l' child : Level} {interrupts : Bool}

theorem write_terminal (w : World) (outlet : Outlet) (text : String) :
    (w.write outlet text).2.terminal = w.terminal ∧ (w.write outlet text).2.input = w.input := by
  unfold World.write World.setSink
  cases outlet.sink <;> exact ⟨rfl, rfl⟩

theorem flush_terminal (w : World) (outlet : Outlet) :
    (w.flush outlet).2.terminal = w.terminal ∧ (w.flush outlet).2.input = w.input := by
  unfold World.flush World.setSink
  cases outlet.sink <;> exact ⟨rfl, rfl⟩

/-- What a call gets from a terminal on streams is heard as it is. -/
theorem heard?_of_takeAnswer? {t t' : PlainTerminal} {e : Except StreamFault Event}
    (h : t.takeAnswer? = some (e, t')) (prompt : String) :
    Entry.heard? (.asked (.event prompt) e) = some e := by
  obtain ⟨answer, -, rfl, -⟩ := PlainTerminal.takeAnswer?_eq_some h
  cases answer with
  | error fault => rfl
  | ok line => cases line <;> rfl

/-- A step of the session's own plan, on a terminal on streams. -/
theorem goes_of_planStep {t : PlainTerminal} {plan : Plan Next} (ht : w.terminal = .plain t)
    (hp : l.phase = .own plan) (h : l.planStep console w plan = .moved l' w' interrupts) :
    w.Goes [] ((l.logged console w).filterMap Entry.heard?) w' := by
  cases plan with
  | done x =>
    have hlogged : l.logged console w = [] := by simp only [logged, hp]
    rw [hlogged]
    cases x <;> cases h <;> exact .elsewhere rfl rfl
  | ask r next =>
    cases r with
    | write text =>
      rw [logged_asked hp (by simp) rfl]
      cases h
      obtain ⟨hterminal, hinput⟩ := write_terminal w l.out text
      exact .elsewhere hterminal hinput
    | flush =>
      rw [logged_asked hp (by simp) rfl]
      cases h
      obtain ⟨hterminal, hinput⟩ := flush_terminal w l.out
      exact .elsewhere hterminal hinput
    | isCancelled | renew | exitValue | resolve =>
      rw [logged_asked hp (by simp) rfl]
      cases h
      exact .elsewhere rfl rfl
    | run b =>
      have hlogged : l.logged console w = [.began b] := by simp only [logged, hp]
      rw [hlogged]
      cases h
      exact .elsewhere rfl rfl
    | prompt text =>
      simp only [planStep] at h
      by_cases hc : l.state.cancelled = true
      · rw [if_pos hc] at h
        rw [logged_asked hp (by simp) (congrArg some (if_pos hc))]
        cases h
        exact .elsewhere rfl rfl
      · rw [if_neg hc] at h
        rw [logged_asked hp (by simp) (congrArg some (if_neg hc))]
        cases h
        exact .start text
    | event prompt =>
      simp only [planStep] at h
      by_cases hc : l.state.cancelled = true
      · rw [if_pos hc] at h
        rw [logged_asked hp (by simp) (if_pos hc)]
        cases h
        exact .elsewhere rfl rfl
      · rw [if_neg hc] at h
        have hpoll := World.Goes.poll (w := w) prompt
        cases ha : (t.advance w.input).1.takeAnswer? with
        | none =>
          rw [World.pollRead_none ht ha] at h
          cases h
        | some taken =>
          obtain ⟨e, t'⟩ := taken
          have hanswer : l.answer? console w (.event prompt) = some e :=
            (if_neg hc).trans (by rw [World.pollRead_some ht ha])
          rw [World.pollRead_some ht ha] at h hpoll
          rw [logged_asked hp (by simp) hanswer,
            List.filterMap_cons_some (heard?_of_takeAnswer? ha prompt)]
          cases h
          exact hpoll

/-- A step of a command that leaves the input alone. -/
theorem goes_of_scriptStep {script : Command.Script (Except Failure ExitCode)}
    {next : Except Failure ExitCode → Plan Next} (hp : l.phase = .command script next)
    (hinput : ∀ x ∈ l.logged console w, x.readsInput = false)
    (h : l.scriptStep console w next script = .moved l' w' interrupts) :
    w.Goes [] ((l.logged console w).filterMap Entry.heard?) w' := by
  cases script with
  | done result =>
    have hlogged : l.logged console w = [.ended result] := by simp only [logged, hp]
    rw [hlogged]
    cases h
    exact .elsewhere rfl rfl
  | ask r more =>
    cases r with
    | write channel text =>
      rw [logged_used hp rfl]
      cases h
      obtain ⟨hterminal, hinput⟩ := write_terminal w (l.outlet channel) text
      exact .elsewhere hterminal hinput
    | flush channel =>
      rw [logged_used hp rfl]
      cases h
      obtain ⟨hterminal, hinput⟩ := flush_terminal w (l.outlet channel)
      exact .elsewhere hterminal hinput
    | readLine =>
      rw [logged_used hp rfl] at hinput
      cases hinput _ List.mem_cons_self
    | isCancelled | clock | yield | calendar | setExitValue =>
      rw [logged_used hp rfl]
      cases h
      exact .elsewhere rfl rfl
    | interrupt =>
      rw [logged_used hp rfl]
      simp only [scriptStep] at h
      split at h <;> cases h <;> exact .elsewhere rfl rfl
    | wait deadline =>
      simp only [scriptStep] at h
      by_cases hc : l.state.cancelled = true
      · rw [if_pos hc] at h
        rw [logged_used hp (if_pos hc)]
        cases h
        exact .elsewhere rfl rfl
      · rw [if_neg hc] at h
        split at h
        next htime =>
          rw [logged_used hp ((if_neg hc).trans (if_pos htime))]
          cases h
          exact .elsewhere rfl rfl
        · cases h
    | nestShell args => cases h
    | nestOnce words =>
      simp only [scriptStep] at h
      cases hb : console.resolve (.words words) with
      | error e =>
        rw [hb] at h
        have hlogged : l.logged console w = [.used (.nestOnce words) none] :=
          logged_used hp (by simp only [grant?, hb])
        rw [hlogged]
        cases h
        obtain ⟨hterminal, hinput⟩ := write_terminal w l.err (Text.asLine e.describe)
        exact .elsewhere hterminal hinput
      | ok b =>
        rw [hb] at h
        cases h
    | invoke words =>
      simp only [scriptStep] at h
      cases hb : console.resolve (.words words) with
      | error e =>
        rw [hb] at h
        have hlogged : l.logged console w = [.used (.invoke words) none] :=
          logged_used hp (by simp only [grant?, hb])
        rw [hlogged]
        cases h
        obtain ⟨hterminal, hinput⟩ := write_terminal w l.err (Text.asLine e.describe)
        exact .elsewhere hterminal hinput
      | ok b =>
        rw [hb] at h
        rw [logged_unused hp (by simp only [grant?, hb])]
        cases h
        exact .elsewhere rfl rfl

/-- **One step of a session** hears what its call gets, and nothing else from the terminal. -/
theorem goes_of_step {t : PlainTerminal} (ht : w.terminal = .plain t)
    (hinput : ∀ x ∈ l.logged console w, x.readsInput = false)
    (h : l.step console w = .moved l' w' interrupts) :
    w.Goes [] ((l.logged console w).filterMap Entry.heard?) w' := by
  unfold step at h
  cases hp : l.phase with
  | own plan =>
    rw [hp] at h
    exact goes_of_planStep ht hp h
  | command script next =>
    rw [hp] at h
    exact goes_of_scriptStep hp hinput h
  | _ =>
    rw [hp] at h
    cases h

end Level

namespace Run

variable {console : Console} {w w' : World} {levels levels' : List Level} {interrupts : Bool}
  {r r' : Run} {t : PlainTerminal}

/-! ## Runs -/

/-- What a step of a chain adds to the log of the session that takes it. -/
def entriesOf (console : Console) (w : World) : List Level → List Entry
  | [] => []
  | [l] => l.logged console w
  | _ :: m :: rest =>
    match m.phase with
    | .over _ | .idle => []
    | _ => entriesOf console w (m :: rest)

/-- What a step of a run adds to the log of the session that takes it. -/
def entries (r : Run) : List Entry :=
  entriesOf r.console r.world r.levels

/-- While the second session executes, the step is its own or of one behind it. -/
theorem entriesOf_inner {l m : Level} {rest : List Level} (hm : m.executing = true) :
    entriesOf console w (l :: m :: rest) = entriesOf console w (m :: rest) := by
  rw [entriesOf]
  cases hp : m.phase with
  | own | command | nested => rfl
  | _ =>
    rw [Level.executing, hp] at hm
    cases hm

theorem goes_of_stepped (ht : w.terminal = .plain t)
    (hinput : ∀ x ∈ entriesOf console w levels, x.readsInput = false)
    (hs : Stepped console w levels levels' w' interrupts) :
    w.Goes [] ((entriesOf console w levels).filterMap Entry.heard?) w' := by
  induction hs with
  | last hstep => exact Level.goes_of_step ht hinput hstep
  | nest hstep =>
    obtain ⟨hstarts, -⟩ := Level.does_of_nests hstep
    rw [entriesOf, hstarts.silent, hstarts.world]
    exact .elsewhere rfl rfl
  | leave hm | execute hm | refuse hm =>
    rw [entriesOf, hm]
    exact .elsewhere rfl rfl
  | inner hm _ ih =>
    rw [entriesOf_inner hm] at hinput ⊢
    exact ih hinput

/-- What may happen to a run while its commands leave the input alone, with what comes to the input
and what the shells of the run hear from the terminal. -/
inductive Hears : Run → List Item → List (Except StreamFault Event) → Run → Prop
  | step {r r' : Run} (h : r.step = .ok r') (hinput : ∀ x ∈ r.entries, x.readsInput = false) :
      Hears r [] (r.entries.filterMap Entry.heard?) r'
  | interrupt (r : Run) (i : Nat) : Hears r [] [] (r.interruptAt i).2
  | execute {r r' : Run} (h : r.execute = .ok r') : Hears r [] [] r'
  /-- The prompt is shown though the shell is interrupted. -/
  | prompt {r : Run} {before : List Level} {l : Level} {text : String}
      {next : Answer (.prompt text) → Plan Next} (hl : r.levels = before ++ [l])
      (hp : l.phase = .own (.ask (.prompt text) next)) :
      Hears r [] [] { r with
        levels := before ++ [l.goto (.own (next (r.world.startRead text).1))]
        world := (r.world.startRead text).2 }
  /-- The terminal answers first, though the shell is interrupted. -/
  | first {r : Run} {before : List Level} {l : Level} {text : String}
      {next : Answer (.event text) → Plan Next} {e : Except StreamFault Event}
      (hl : r.levels = before ++ [l]) (hp : l.phase = .own (.ask (.event text) next))
      (he : (r.world.pollRead text).1.answer = some e) :
      Hears r [] [e] { r with
        levels := before ++ [l.goto (.own (next e))]
        world := (r.world.pollRead text).2 }
  /-- Something happens to the terminal, its input or the rest of the world. -/
  | world {r : Run} {w : World} {items : List Item} (h : r.world.Goes items [] w) :
      Hears r items [] { r with world := w }

/-- What has become of a run in the end, with all that has come to its input and all that its shells
have heard, in order. -/
inductive Heard (r₀ : Run) : List Item → List (Except StreamFault Event) → Run → Prop
  | refl : Heard r₀ [] [] r₀
  | tail {arrived items : List Item} {heard more : List (Except StreamFault Event)} {r r' : Run}
      (h : Heard r₀ arrived heard r) (hs : r.Hears items more r') :
      Heard r₀ (arrived ++ items) (heard ++ more) r'

theorem goes_of_step (ht : r.world.terminal = .plain t)
    (hinput : ∀ x ∈ r.entries, x.readsInput = false) (hs : r.step = .ok r') :
    r.world.Goes [] (r.entries.filterMap Entry.heard?) r'.world := by
  obtain ⟨levels, w, interrupts, hstepped, rfl⟩ := stepped_of_step hs
  have hgoes := goes_of_stepped ht hinput hstepped
  cases interrupts <;> exact hgoes

theorem goes_of_hears {items : List Item} {heard : List (Except StreamFault Event)}
    (ht : r.world.terminal = .plain t) (h : r.Hears items heard r') :
    r.world.Goes items heard r'.world := by
  cases h with
  | step hs hinput => exact goes_of_step ht hinput hs
  | interrupt i => exact .elsewhere rfl rfl
  | execute hx =>
    obtain ⟨l, l', rest, -, -, rfl⟩ := execute_eq_ok hx
    exact .elsewhere rfl rfl
  | prompt hl hp => exact .start _
  | @first before l text next e hl hp he =>
    have hpoll := World.Goes.poll (w := r.world) text
    rwa [he] at hpoll
  | world hw => exact hw

theorem serves_of_heard {r₀ : Run} {arrived : List Item}
    {heard : List (Except StreamFault Event)} (ht : r₀.world.terminal = .plain t)
    (hp : t.pending = none) (h : Heard r₀ arrived heard r) :
    r.world.Serves (r₀.world.input.rest ++ arrived) heard := by
  induction h with
  | refl =>
    rw [List.append_nil]
    exact World.serves_start ht hp
  | tail _ hs ih =>
    obtain ⟨t, hplain⟩ := ih.plain
    have hnext := World.serves_of_goes ih (goes_of_hears hplain hs)
    rwa [List.append_assoc] at hnext

/-! ## Main statement -/

/-- **Reads that are given up lose no input.** Of the calls on a terminal on streams and its clones,
with nobody else reading the input, those that have started their read and finish get the answers of
the input in order, one each: its lines and its failures, and then its end for ever. The call whose
turn it is waits only while the input is open and all that is left of it is an unfinished line. So
what the shells of a run hear from such a terminal, however often and whenever they are interrupted,
are the answers of its input in order, and the lines among them are the lines of the input in
order. -/
theorem reads_of_plain {w : World} (ht : w.terminal = .plain t) (hp : t.pending = none) :
    (∀ arrived finished d, Desk.Calls ⟨w, none⟩ arrived finished d →
      (∀ i call e, finished[i]? = some (call, e) →
        e = (answerAt (w.input.rest ++ arrived) i).map Event.ofLine?) ∧
      (∀ call text, d.reader = some call → (d.world.pollRead text).1.answer = none →
        d.world.input.closed = false ∧ (∀ x ∈ d.world.input.rest, x.ends = false) ∧
          (answersOf (w.input.rest ++ arrived)).drop finished.length =
            answersOf d.world.input.rest)) ∧
    (∀ r₀ arrived heard r, r₀.world = w → Heard r₀ arrived heard r →
      (∀ i e, heard[i]? = some e →
        e = (answerAt (w.input.rest ++ arrived) i).map Event.ofLine?) ∧
      heard.filterMap gotLine? <+: linesOf (w.input.rest ++ arrived)) := by
  constructor
  · intro arrived finished d h
    exact Desk.answers_of_calls ht hp rfl h
  · rintro r₀ arrived heard r rfl h
    have hserves := serves_of_heard ht hp h
    exact ⟨fun i e hi => World.answer_of_serves hserves hi, World.lines_of_serves hserves⟩

/-! ### Lines that come after the first read was given up -/

/-- Lets a run take steps, for a number of steps at most, while its commands leave the input alone;
what its shells hear. -/
def listen : Nat → Run → List (Except StreamFault Event) × Run
  | 0, r => ([], r)
  | n + 1, r =>
    if r.entries.any Entry.readsInput then ([], r)
    else
      match r.step with
      | .ok r' =>
        let (heard, last) := listen n r'
        (r.entries.filterMap Entry.heard? ++ heard, last)
      | .error _ => ([], r)

theorem Heard.listen {r₀ : Run} {arrived : List Item} {heard : List (Except StreamFault Event)}
    (h : Heard r₀ arrived heard r) (n : Nat) :
    Heard r₀ arrived (heard ++ (listen n r).1) (listen n r).2 := by
  induction n generalizing heard r with
  | zero => simpa [Run.listen] using h
  | succ n ih =>
    unfold Run.listen
    split
    · simpa using h
    next hinput =>
      cases hs : r.step with
      | error deadline => simpa using h
      | ok r' =>
        have hnone : ∀ x ∈ r.entries, x.readsInput = false := by simpa using hinput
        have hnext := h.tail (.step hs hnone)
        rw [List.append_nil] at hnext
        have hrest := ih hnext
        rwa [List.append_assoc] at hrest

/-- A terminal on an input to which nothing has come yet. -/
def quietWorld : World where
  input := ⟨[], false⟩
  terminal := .plain {}

/-- The lines `a` and `b`. -/
def twoLines : List Item :=
  [.byte 97, .byte 10, .byte 98, .byte 10]

/-- A shell on that terminal. -/
def quietRun : Run where
  console := { settings := { greeting := "" } }
  world := quietWorld
  levels := [{ Level.shell { greeting := "" } [] {} with
    state := { executed := true, running := true }
    phase := .own (orClose (greet { greeting := "" })) }]

/-- The desk when a call has shown an empty prompt and come to its turn. -/
def asked (d : Desk) (call : Nat) : Desk :=
  ⟨(d.world.startRead "").2, some call⟩

/-- The desk when that call has looked for its line. -/
def looked (d : Desk) : Desk :=
  ⟨(d.world.pollRead "").2, none⟩

theorem step_asked {d : Desk} (hfree : d.reader = none)
    (h : (d.world.startRead "").1 = .ok ()) (call : Nat) : d.Step [] [] (asked d call) := by
  have hshown : d.world.startRead "" = (.ok (), (d.world.startRead "").2) := Prod.ext h rfl
  exact .begin hfree hshown call

theorem step_looked {d : Desk} {call : Nat} {e : Except StreamFault Event}
    (hturn : d.reader = some call) (h : (d.world.pollRead "").1.answer = some e) :
    d.Step [] [(call, e)] (looked d) :=
  .finish hturn h

/-- The desk when the first call was given up and the lines have come. -/
def fedDesk : Desk :=
  ⟨{ (asked ⟨quietWorld, none⟩ 0).world with
    input := (asked ⟨quietWorld, none⟩ 0).world.input.feed twoLines }, none⟩

/-- The first call is given up before the lines come, and two more calls get them. -/
theorem calls_twoLines : ∃ d, Desk.Calls ⟨quietWorld, none⟩ twoLines
    [(1, .ok (.line "a")), (2, .ok (.line "b"))] d := by
  have hasked : Desk.Calls ⟨quietWorld, none⟩ [] [] (asked ⟨quietWorld, none⟩ 0) :=
    .tail .refl (step_asked rfl rfl 0)
  have hfed : Desk.Calls ⟨quietWorld, none⟩ twoLines [] fedDesk :=
    (hasked.tail (.giveUp rfl)).tail (.stir (.receive rfl twoLines))
  have hfirst : ((asked fedDesk 1).world.pollRead "").1.answer = some (.ok (.line "a")) := by
    decide +kernel
  have hone := (hfed.tail (step_asked rfl rfl 1)).tail (step_looked rfl hfirst)
  have hsecond : ((asked (looked (asked fedDesk 1)) 2).world.pollRead "").1.answer =
      some (.ok (.line "b")) := by decide +kernel
  have htwo := (hone.tail (step_asked rfl rfl 2)).tail (step_looked rfl hsecond)
  exact ⟨_, htwo⟩

/-- The shell when it waits at its prompt. -/
def waitingQuietly : Run :=
  (listen 100 quietRun).2

/-- The shell when it was interrupted there and the lines have come. -/
def fedRun : Run :=
  let r := (waitingQuietly.interruptAt 0).2
  { r with world := { r.world with input := r.world.input.feed twoLines } }

theorem heard_fedRun : Heard quietRun twoLines (listen 100 fedRun).1 (listen 100 fedRun).2 := by
  have hwaiting : Heard quietRun [] (listen 100 quietRun).1 waitingQuietly := Heard.refl.listen 100
  have hsilent : (listen 100 quietRun).1 = [] := by decide +kernel
  rw [hsilent] at hwaiting
  have hopen : ((waitingQuietly.interruptAt 0).2).world.input.closed = false := by decide +kernel
  have hinterrupted := hwaiting.tail (.interrupt waitingQuietly 0)
  have hfed : Heard quietRun twoLines [] fedRun :=
    hinterrupted.tail (.world (.stir (.receive hopen twoLines)))
  have hrest := hfed.listen 100
  rwa [List.nil_append] at hrest

/-- The second line goes to the second call that finishes, and the shell hears both lines, though
the first call was given up and the first prompt interrupted. -/
theorem reads_twoLines :
    (∃ d, Desk.Calls ⟨quietWorld, none⟩ twoLines
      [(1, .ok (.line "a")), (2, .ok (.line "b"))] d) ∧
    (answerAt twoLines 1).map Event.ofLine? = .ok (.line "b") ∧
    (listen 100 fedRun).1.filterMap gotLine? = ["a", "b"] ∧ ["a", "b"] <+: linesOf twoLines := by
  obtain ⟨hcalls, hruns⟩ := reads_of_plain (w := quietWorld) (t := {}) rfl rfl
  obtain ⟨d, hd⟩ := calls_twoLines
  obtain ⟨hanswers, -⟩ := hcalls twoLines _ d hd
  obtain ⟨-, hlines⟩ := hruns quietRun twoLines _ _ rfl heard_fedRun
  have hheard : (listen 100 fedRun).1.filterMap gotLine? = ["a", "b"] := by decide +kernel
  refine ⟨⟨d, hd⟩, (hanswers 1 2 _ rfl).symm, hheard, ?_⟩
  rwa [hheard] at hlines

end Run

end CommandConsole
