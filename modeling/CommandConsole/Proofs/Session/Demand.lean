import CommandConsole.Session.Run

/-!
# What sessions ask of their world

A step of a chain of sessions is partly their own doing and partly that of the world they share. A
`Demand` is their part: what they ask the world for, and where each answer takes them.
`Demand.carryOut` is the part of the world.

All sessions under a shell write to the sink of its terminal, in the way its settings say.
`Level.under` is a session there. Since only the world knows how a text is written, what sessions
ask for does not depend on it: a chain under a shell with carriage returns and one without make the
same demands.

Results: `stepLevels_single` (a session alone), `stepLevels_under` (a step of a chain is its demand,
carried out).
-/

namespace CommandConsole

open Session

/-- The console with settings that ask for carriage returns, or do not. -/
def Console.withReturns (console : Console) (returns : Bool) : Console :=
  { console with settings := { console.settings with crlf := returns } }

/-- Where a shell writes. -/
def Outlet.ofShell (returns : Bool) : Outlet :=
  ⟨.first, ⟨returns⟩⟩

/-- The session as it is under a shell: both its outputs are where the shell writes. -/
def Level.under (returns : Bool) (l : Level) : Level :=
  { l with out := .ofShell returns, err := .ofShell returns }

/-- What a chain of sessions asks of its world for one step. -/
inductive Demand where
  /-- It asks for nothing. -/
  | alone (levels : List Level)
  | say (text : String) (next : Except StreamFault Unit → List Level)
  | flush (next : Except StreamFault Unit → List Level)
  | readLine (next : Except StreamFault (Option String) → List Level)
  | clock (next : Nat → List Level)
  | calendar (next : Nat → List Level)
  /-- Go on once the clock shows a time. -/
  | wait (deadline : Option Nat) (levels : List Level)
  | prompt (text : String) (next : Except StreamFault Unit → List Level)
  /-- Look whether the line has come. -/
  | event (text : String) (waiting : List Level)
      (next : Except StreamFault Terminal.Event → List Level)
  /-- It cannot go on by itself. -/
  | stands

namespace Demand

/-- What a demand comes to in a world, under a shell. -/
def carryOut (returns : Bool) (w : World) : Demand → Run.Progress
  | alone levels => .moved (levels.map (Level.under returns)) w false
  | say text next =>
    let (a, w) := w.write (.ofShell returns) text
    .moved ((next a).map (Level.under returns)) w false
  | flush next =>
    let (a, w) := w.flush (.ofShell returns)
    .moved ((next a).map (Level.under returns)) w false
  | readLine next =>
    let (a, w) := w.readLine
    .moved ((next a).map (Level.under returns)) w false
  | clock next => .moved ((next w.clock).map (Level.under returns)) w false
  | calendar next => .moved ((next w.calendar).map (Level.under returns)) w false
  | wait deadline levels =>
    if deadline.any (· ≤ w.clock) then .moved (levels.map (Level.under returns)) w false
    else .blocked deadline
  | prompt text next =>
    let (a, w) := w.startRead text
    .moved ((next a).map (Level.under returns)) w false
  | event text waiting next =>
    let (reply, w) := w.pollRead text
    match reply.answer with
    | some e => .moved ((next e).map (Level.under returns)) w reply.interrupts
    | none =>
      if reply.interrupts then .moved (waiting.map (Level.under returns)) w true
      else .blocked none
  | stands => .blocked none

/-- The demand as one of a session further out, in which the others are nested. -/
def behind (l : Level) : Demand → Demand
  | alone levels => alone (l :: levels)
  | say text next => say text fun a => l :: next a
  | flush next => flush fun a => l :: next a
  | readLine next => readLine fun a => l :: next a
  | clock next => clock fun a => l :: next a
  | calendar next => calendar fun a => l :: next a
  | wait deadline levels => wait deadline (l :: levels)
  | prompt text next => prompt text fun a => l :: next a
  | event text waiting next => event text (l :: waiting) fun a => l :: next a
  | stands => stands

end Demand

namespace Level

/-- What a session asks for in its own plan. -/
def planDemand (console : Console) (l : Level) : Plan Next → Demand
  | .done (.again buffer) => .alone [l.goto (.own (orClose (turn console buffer)))]
  | .done (.ended result) => .alone [l.finish result]
  | .ask (.write text) next => .say text fun a => [l.goto (.own (next a))]
  | .ask .flush next => .flush fun a => [l.goto (.own (next a))]
  | .ask .isCancelled next => .alone [l.goto (.own (next l.state.cancelled))]
  | .ask .renew next =>
    .alone [({ l with state := l.state.renew } : Level).goto (.own (next ()))]
  | .ask .exitValue next => .alone [l.goto (.own (next l.exitValue))]
  | .ask (.prompt text) next =>
    if l.state.cancelled then .alone [l.goto (.own (next (.ok ())))]
    else .prompt text fun a => [l.goto (.own (next a))]
  | .ask (.event prompt) next =>
    if l.state.cancelled then .alone [l.goto (.own (next (.ok .interrupted)))]
    else .event prompt [l] fun e => [l.goto (.own (next e))]
  | .ask (.resolve words) next => .alone [l.goto (.own (next (console.resolve (.words words))))]
  | .ask (.run b) next => .alone [l.goto (.command (l.scriptOf console b) next)]

/-- What a command of the session asks for. -/
def scriptDemand (console : Console) (l : Level) (next : Except Failure ExitCode → Plan Next) :
    Command.Script (Except Failure ExitCode) → Demand
  | .done result => .alone [l.goto (.own (next result))]
  | .ask (.write _ text) more => .say text fun a => [l.goto (.command (more a) next)]
  | .ask (.flush _) more => .flush fun a => [l.goto (.command (more a) next)]
  | .ask .readLine more => .readLine fun a => [l.goto (.command (more a) next)]
  | .ask .isCancelled more => .alone [l.goto (.command (more l.state.cancelled) next)]
  | .ask .clock more => .clock fun a => [l.goto (.command (more a) next)]
  | .ask (.wait deadline) more =>
    if l.state.cancelled then .alone [l.goto (.command (more .cancelled) next)]
    else .wait deadline [l.goto (.command (more .elapsed) next)]
  | .ask .yield more => .alone [l.goto (.command (more ()) next)]
  | .ask .calendar more => .calendar fun a => [l.goto (.command (more a) next)]
  | .ask (.setExitValue value) more =>
    .alone [(l.setExitValue value).goto (.command (more ()) next)]
  | .ask .interrupt more =>
    match l.shellArgs?, ExecutionState.interrupt [l.state] with
    | some _, (had, [state]) =>
      .alone [({ l with state := state } : Level).goto (.command (more had) next)]
    | _, _ => .alone [l.goto (.command (more false) next)]
  | .ask (.nestShell args) more =>
    .alone [l.enter (.nested more next), Level.shell console.settings args l.env]
  | .ask (.nestOnce words) more =>
    match console.resolve (.words words) with
    | .error e => .say (Text.asLine e.describe) fun _ => [l.goto (.command (more none) next)]
    | .ok b =>
      .alone [l.enter (.nested (fun result => more (some result)) next),
        Level.once b l.out l.err l.env]
  | .ask (.invoke words) more =>
    match console.resolve (.words words) with
    | .error e => .say (Text.asLine e.describe) fun _ => [l.goto (.command (more none) next)]
    | .ok b =>
      .alone [l.goto (.command ((l.scriptOf console b).bind fun result => more (some result)) next)]

/-- What a session asks for that has no nested one. -/
def demand (console : Console) (l : Level) : Demand :=
  match l.phase with
  | .own plan => l.planDemand console plan
  | .command script next => l.scriptDemand console next script
  | .idle | .nested .. | .over _ => .stands

end Level

/-- What a chain of sessions asks for. -/
def demandOf (console : Console) : List Level → Demand
  | [] => .stands
  | [l] => l.demand console
  | l :: m :: rest =>
    match m.phase with
    | .over result => .alone [l.leave result]
    | .idle =>
      match m.execute console with
      | .ok m => .alone (l :: m :: rest)
      | .error e => .alone [l.leave (.error e)]
    | _ => (demandOf console (m :: rest)).behind l

/-! ## A step is a demand, carried out -/

namespace Run

variable {console : Console} {returns : Bool} {w : World} {l : Level} {levels : List Level}

/-- What a step of a session that has no nested one is for the chain. -/
def Progress.ofLevel : Level.Progress → Progress
  | .moved l w interrupts => .moved [l] w interrupts
  | .nests l child w => .moved [l, child] w false
  | .blocked deadline => .blocked deadline

@[simp] theorem phase_under (returns : Bool) (l : Level) : (l.under returns).phase = l.phase := rfl

@[simp] theorem state_under (returns : Bool) (l : Level) : (l.under returns).state = l.state := rfl

@[simp] theorem shellArgs?_under (returns : Bool) (l : Level) :
    (l.under returns).shellArgs? = l.shellArgs? := rfl

@[simp] theorem resolve_withReturns (console : Console) (returns : Bool) :
    (console.withReturns returns).resolve = console.resolve := rfl

theorem planStep_under (console : Console) (returns : Bool) (w : World) (l : Level)
    (plan : Plan Next) :
    Progress.ofLevel ((l.under returns).planStep (console.withReturns returns) w plan) =
      (l.planDemand console plan).carryOut returns w := by
  cases plan with
  | done x => cases x <;> rfl
  | ask r next =>
    cases r with
    | prompt text =>
      by_cases hc : l.state.cancelled = true
      · have hu : (l.under returns).state.cancelled = true := hc
        simp only [Level.planStep, Level.planDemand, if_pos hc, if_pos hu]
        rfl
      · have hu : ¬ (l.under returns).state.cancelled = true := hc
        simp only [Level.planStep, Level.planDemand, if_neg hc, if_neg hu]
        rfl
    | event prompt =>
      by_cases hc : l.state.cancelled = true
      · have hu : (l.under returns).state.cancelled = true := hc
        simp only [Level.planStep, Level.planDemand, if_pos hc, if_pos hu]
        rfl
      · have hu : ¬ (l.under returns).state.cancelled = true := hc
        simp only [Level.planStep, Level.planDemand, if_neg hc, if_neg hu, Demand.carryOut]
        cases (w.pollRead prompt).1.answer with
        | some e => rfl
        | none => cases (w.pollRead prompt).1.interrupts <;> rfl
    | write | flush | isCancelled | renew | exitValue | resolve | run => rfl

theorem setExitValue_under (returns : Bool) (l : Level) (value : ExitCode) :
    (l.under returns).setExitValue value = (l.setExitValue value).under returns := by
  obtain ⟨state, role, out, err, env, phase⟩ := l
  cases role <;> rfl

theorem scriptStep_under (console : Console) (returns : Bool) (w : World) (l : Level)
    (next : Except Failure ExitCode → Plan Next)
    (script : Command.Script (Except Failure ExitCode)) :
    Progress.ofLevel ((l.under returns).scriptStep (console.withReturns returns) w next script) =
      (l.scriptDemand console next script).carryOut returns w := by
  cases script with
  | done result => rfl
  | ask r more =>
    cases r with
    | readLine | isCancelled | clock | yield | calendar | nestShell => rfl
    | write channel | flush channel => cases channel <;> rfl
    | setExitValue value =>
      simp only [Level.scriptStep, setExitValue_under]
      rfl
    | wait deadline =>
      by_cases hc : l.state.cancelled = true
      · have hu : (l.under returns).state.cancelled = true := hc
        simp only [Level.scriptStep, Level.scriptDemand, if_pos hc, if_pos hu]
        rfl
      · have hu : ¬ (l.under returns).state.cancelled = true := hc
        simp only [Level.scriptStep, Level.scriptDemand, if_neg hc, if_neg hu, Demand.carryOut]
        split <;> rfl
    | interrupt =>
      simp only [Level.scriptStep, Level.scriptDemand, state_under, shellArgs?_under]
      rcases l.shellArgs? with _ | args
      · rfl
      · rcases ExecutionState.interrupt [l.state] with ⟨had, _ | ⟨state, _ | _⟩⟩ <;> rfl
    | nestOnce words | invoke words =>
      simp only [Level.scriptStep, Level.scriptDemand, resolve_withReturns]
      cases console.resolve (.words words) <;> rfl

/-- **A session alone** carries out its demand. -/
theorem stepLevels_single (console : Console) (returns : Bool) (w : World) (l : Level) :
    stepLevels (console.withReturns returns) w [l.under returns] =
      (l.demand console).carryOut returns w := by
  have hsingle : stepLevels (console.withReturns returns) w [l.under returns] =
      Progress.ofLevel ((l.under returns).step (console.withReturns returns) w) := by
    rw [stepLevels]
    cases (l.under returns).step (console.withReturns returns) w <;> rfl
  rw [hsingle, Level.step, Level.demand, phase_under]
  cases l.phase with
  | own plan => exact planStep_under console returns w l plan
  | command script next => exact scriptStep_under console returns w l next script
  | _ => rfl

theorem leave_under (returns : Bool) (l : Level) (result : Except Failure ExitCode) :
    (l.under returns).leave result = (l.leave result).under returns := by
  obtain ⟨state, role, out, err, env, phase⟩ := l
  cases phase <;> rfl

theorem execute_under (console : Console) (returns : Bool) (l : Level) :
    (l.under returns).execute (console.withReturns returns) =
      (l.execute console).map (Level.under returns) := by
  have hopening : (l.under returns).opening (console.withReturns returns) = l.opening console := by
    obtain ⟨state, role, out, err, env, phase⟩ := l
    cases role <;> rfl
  rw [Level.execute, Level.execute, hopening, state_under]
  cases l.state.begin <;> rfl

/-- The part of the world in a step does not depend on the sessions further out. -/
theorem carryOut_behind (l : Level) (d : Demand) : (d.behind l).carryOut returns w =
    match d.carryOut returns w with
    | .moved levels w interrupts => .moved (l.under returns :: levels) w interrupts
    | .blocked deadline => .blocked deadline := by
  cases d with
  | wait deadline levels =>
    simp only [Demand.behind, Demand.carryOut]
    split <;> rfl
  | event text waiting next =>
    simp only [Demand.behind, Demand.carryOut]
    cases (w.pollRead text).1.answer with
    | some e => rfl
    | none =>
      simp only
      split <;> rfl
  | _ => rfl

/-- **A step of a chain** under a shell is the demand of its sessions, carried out. -/
theorem stepLevels_under (console : Console) (returns : Bool) (w : World) (levels : List Level) :
    stepLevels (console.withReturns returns) w (levels.map (Level.under returns)) =
      (demandOf console levels).carryOut returns w := by
  induction levels with
  | nil => rfl
  | cons l rest ih =>
    cases rest with
    | nil => exact stepLevels_single console returns w l
    | cons m rest =>
      rw [List.map_cons, List.map_cons, stepLevels, demandOf, phase_under]
      cases m.phase with
      | idle =>
        simp only [execute_under]
        cases m.execute console with
        | ok m' => rfl
        | error e =>
          simp only [Except.map, leave_under]
          rfl
      | own | command | nested =>
        simp only
        rw [carryOut_behind, ← ih]
        rfl
      | _ =>
        simp only [leave_under]
        rfl

end Run

end CommandConsole
