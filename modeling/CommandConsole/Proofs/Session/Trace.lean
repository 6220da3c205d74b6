import CommandConsole.Session.Run

/-!
# What a session leaves in its log

The log of a session has what the session asked for and was answered, and what its commands did.
`Level.logged` is what a step adds to it, and `Entry.onState` and `Entry.onRole` are what an entry
changes in the session. `Level.Does` tells the steps apart by where the session stood: whatever is
proved of runs goes through it, so that nobody else opens `Level.step`.

Results: `does_of_step` and `does_of_nests` (each step is one of the cases), `spawns_of_nests` (the
session that a step starts).
-/

namespace CommandConsole

namespace Session

/-- An entry in the log of a session. -/
inductive Entry where
  /-- The session asked for something and was answered. -/
  | asked (r : Request) (answer : Answer r)
  /-- A command begins. -/
  | began (binding : Binding)
  /-- A command asked for something and was answered. -/
  | used (r : Command.Request) (answer : Command.Answer r)
  /-- A command has ended. -/
  | ended (result : Except Failure ExitCode)

/-- The fault of a stream that an entry tells of. -/
def Entry.fault? : Entry → Option StreamFault
  | .asked (.write _) (.error fault) => some fault
  | .asked .flush (.error fault) => some fault
  | .asked (.prompt _) (.error fault) => some fault
  | .asked (.event _) (.error fault) => some fault
  | .used (.write ..) (.error fault) => some fault
  | .used (.flush _) (.error fault) => some fault
  | .used .readLine (.error fault) => some fault
  | _ => none

/-- The exit value that a command has set. -/
def Entry.exitSet? : Entry → Option ExitCode
  | .used (.setExitValue value) _ => some value
  | _ => none

/-- What the terminal reported. -/
def Entry.event? : Entry → Option Terminal.Event
  | .asked (.event _) (.ok e) => some e
  | _ => none

/-- The words that were handed on to be run as a command. -/
def Entry.dispatched? : Entry → Option (List String)
  | .asked (.resolve words) _ => some words
  | _ => none

/-- What an entry does to the state of the session: it renews itself, or its command interrupts it. -/
def Entry.onState (c : ExecutionState) : Entry → ExecutionState
  | .asked .renew _ => c.renew
  | .used .interrupt had => { c with cancelled := c.cancelled || had }
  | _ => c

/-- What an entry does to the role of the session: its command sets the exit value of a shell. -/
def Entry.onRole (role : Role) : Entry → Role
  | .used (.setExitValue value) _ =>
    match role with
    | .shell args _ => .shell args (some value)
    | .once b => .once b
  | _ => role

@[simp] theorem onState_executed (c : ExecutionState) (x : Entry) :
    (x.onState c).executed = c.executed := by
  unfold Entry.onState
  split <;> rfl

@[simp] theorem onState_running (c : ExecutionState) (x : Entry) :
    (x.onState c).running = c.running := by
  unfold Entry.onState
  split <;> rfl

@[simp] theorem onState_linked (c : ExecutionState) (x : Entry) :
    (x.onState c).linked = c.linked := by
  unfold Entry.onState
  split <;> rfl

theorem onRole_of_exitSet? {role : Role} {x : Entry} (h : x.exitSet? = none) :
    x.onRole role = role := by
  unfold Entry.onRole
  split
  · cases h
  · rfl

/-- What the terminal reported to a session, in order. -/
def events (log : List Entry) : List Terminal.Event :=
  log.filterMap Entry.event?

/-- The words that a session handed on to be run as commands, in order. -/
def dispatched (log : List Entry) : List (List String) :=
  log.filterMap Entry.dispatched?

theorem events_append (log more : List Entry) :
    events (log ++ more) = events log ++ events more :=
  List.filterMap_append

theorem dispatched_append (log more : List Entry) :
    dispatched (log ++ more) = dispatched log ++ dispatched more :=
  List.filterMap_append

end Session

open Session

namespace Level

/-- The answer to a request of the session's own plan, if there is one at once. -/
def answer? (console : Console) (w : World) (l : Level) : (r : Request) → Option (Answer r)
  | .write text => some (w.write l.out text).1
  | .flush => some (w.flush l.out).1
  | .isCancelled => some l.state.cancelled
  | .renew => some ()
  | .exitValue => some l.exitValue
  | .prompt text => some (if l.state.cancelled then .ok () else (w.startRead text).1)
  | .event prompt =>
    if l.state.cancelled then some (.ok .interrupted) else (w.pollRead prompt).1.answer
  | .resolve words => some (console.resolve (.words words))
  | .run _ => none

/-- The answer to a request of a command, if there is one at once. -/
def grant? (console : Console) (w : World) (l : Level) :
    (r : Command.Request) → Option (Command.Answer r)
  | .write channel text => some (w.write (l.outlet channel) text).1
  | .flush channel => some (w.flush (l.outlet channel)).1
  | .readLine => some w.readLine.1
  | .isCancelled => some l.state.cancelled
  | .clock => some w.clock
  | .wait deadline =>
    if l.state.cancelled then some .cancelled
    else if deadline.any (· ≤ w.clock) then some .elapsed
    else none
  | .yield => some ()
  | .calendar => some w.calendar
  | .setExitValue _ => some ()
  | .interrupt => some (l.shellArgs?.isSome && (ExecutionState.interrupt [l.state]).1)
  | .nestShell _ => none
  | .nestOnce words | .invoke words =>
    match console.resolve (.words words) with
    | .error _ => some none
    | .ok _ => none

/-- What a step of the session adds to its log. -/
def logged (console : Console) (w : World) (l : Level) : List Entry :=
  match l.phase with
  | .own (.ask (.run b) _) => [.began b]
  | .own (.ask r _) => ((l.answer? console w r).map (Entry.asked r)).toList
  | .command (.ask r _) _ => ((l.grant? console w r).map (Entry.used r)).toList
  | .command (.done result) _ => [.ended result]
  | _ => []

/-- How a command goes on with the result of the nested session it asked for. -/
def resumption {α : Type} : (r : Command.Request) → (Command.Answer r → α) →
    Option (Except Failure ExitCode → α)
  | .nestShell _, more => some more
  | .nestOnce _, more => some fun result => more (some result)
  | _, _ => none

/-- A session as it is made: a shell, or the run of one command. -/
inductive New (console : Console) : Level → Prop
  | shell (args : List String) (env : Environment) :
      New console (Level.shell console.settings args env)
  | once (b : Binding) (out err : Outlet) (env : Environment) :
      New console (Level.once b out err env)

/-- A session starts a new one and waits for it, and does nothing else. -/
structure Starts (console : Console) (w w' : World) (l l' child : Level) : Prop where
  new : New console child
  waits : ∃ resume next, l'.phase = .nested resume next
  silent : l.logged console w = []
  world : w' = w

/-- What a step of a session does, by where the session stands. -/
inductive Does (console : Console) (w : World) (l : Level) : List Entry → Level → Prop
  | again {buffer : String} (hp : l.phase = .own (.done (.again buffer))) :
      Does console w l [] (l.goto (.own (orClose (turn console buffer))))
  | ended {result : Except Failure ExitCode} (hp : l.phase = .own (.done (.ended result))) :
      Does console w l [] (l.finish result)
  | asked {r : Request} {next : Answer r → Plan Next} {a : Answer r}
      (hp : l.phase = .own (.ask r next)) (hr : ∀ b, r ≠ .run b)
      (ha : l.answer? console w r = some a) :
      Does console w l [.asked r a]
        { l with state := (Entry.asked r a).onState l.state, phase := .own (next a) }
  | waited : Does console w l [] l
  | began {b : Binding} {next : Except Failure ExitCode → Plan Next}
      (hp : l.phase = .own (.ask (.run b) next)) :
      Does console w l [.began b] (l.goto (.command (l.scriptOf console b) next))
  | returned {result : Except Failure ExitCode} {next : Except Failure ExitCode → Plan Next}
      (hp : l.phase = .command (.done result) next) :
      Does console w l [.ended result] (l.goto (.own (next result)))
  | used {r : Command.Request} {more : Command.Answer r → Command.Script (Except Failure ExitCode)}
      {next : Except Failure ExitCode → Plan Next} {a : Command.Answer r}
      (hp : l.phase = .command (.ask r more) next) (ha : l.grant? console w r = some a) :
      Does console w l [.used r a]
        { l with
          state := (Entry.used r a).onState l.state
          role := (Entry.used r a).onRole l.role
          phase := .command (more a) next }
  | invoked {words : List String} {b : Binding}
      {more : Option (Except Failure ExitCode) → Command.Script (Except Failure ExitCode)}
      {next : Except Failure ExitCode → Plan Next}
      (hp : l.phase = .command (.ask (.invoke words) more) next) :
      Does console w l []
        (l.goto (.command ((l.scriptOf console b).bind fun result => more (some result)) next))
  | nested {r : Command.Request}
      {more : Command.Answer r → Command.Script (Except Failure ExitCode)}
      {resume : Except Failure ExitCode → Command.Script (Except Failure ExitCode)}
      {next : Except Failure ExitCode → Plan Next}
      (hp : l.phase = .command (.ask r more) next) (hr : resumption r more = some resume) :
      Does console w l [] (l.enter (.nested resume next))

variable {console : Console} {w w' : World} {l l' child : Level} {interrupts : Bool}

theorem logged_asked {r : Request} {next : Answer r → Plan Next} {a : Answer r}
    (hp : l.phase = .own (.ask r next)) (hr : ∀ b, r ≠ .run b)
    (ha : l.answer? console w r = some a) : l.logged console w = [.asked r a] := by
  cases r with
  | run b => exact absurd rfl (hr b)
  | _ => simp only [logged, hp, ha, Option.map_some, Option.toList_some]

theorem logged_unasked {r : Request} {next : Answer r → Plan Next}
    (hp : l.phase = .own (.ask r next)) (hr : ∀ b, r ≠ .run b)
    (ha : l.answer? console w r = none) : l.logged console w = [] := by
  cases r with
  | run b => exact absurd rfl (hr b)
  | _ => simp only [logged, hp, ha, Option.map_none, Option.toList_none]

theorem logged_used {r : Command.Request}
    {more : Command.Answer r → Command.Script (Except Failure ExitCode)}
    {next : Except Failure ExitCode → Plan Next} {a : Command.Answer r}
    (hp : l.phase = .command (.ask r more) next) (ha : l.grant? console w r = some a) :
    l.logged console w = [.used r a] := by
  simp only [logged, hp, ha, Option.map_some, Option.toList_some]

theorem logged_unused {r : Command.Request}
    {more : Command.Answer r → Command.Script (Except Failure ExitCode)}
    {next : Except Failure ExitCode → Plan Next}
    (hp : l.phase = .command (.ask r more) next) (ha : l.grant? console w r = none) :
    l.logged console w = [] := by
  simp only [logged, hp, ha, Option.map_none, Option.toList_none]

/-- A request of the session's own plan that is answered at once. -/
theorem does_asked {r : Request} {next : Answer r → Plan Next} (a : Answer r)
    (hp : l.phase = .own (.ask r next)) (hr : ∀ b, r ≠ .run b)
    (ha : l.answer? console w r = some a)
    (hl : l' = { l with state := (Entry.asked r a).onState l.state, phase := .own (next a) }) :
    Does console w l (l.logged console w) l' := by
  rw [logged_asked hp hr ha, hl]
  exact .asked hp hr ha

/-- A step of the session's own plan. -/
theorem does_of_planStep {plan : Plan Next} (hp : l.phase = .own plan)
    (h : l.planStep console w plan = .moved l' w' interrupts) :
    Does console w l (l.logged console w) l' := by
  cases plan with
  | done x =>
    have hlogged : l.logged console w = [] := by simp only [logged, hp]
    rw [hlogged]
    cases x with
    | again buffer =>
      cases h
      exact .again hp
    | ended result =>
      cases h
      exact .ended hp
  | ask r next =>
    cases r with
    | run b =>
      have hlogged : l.logged console w = [.began b] := by simp only [logged, hp]
      cases h
      rw [hlogged]
      exact .began hp
    | event prompt =>
      simp only [planStep] at h
      by_cases hc : l.state.cancelled = true
      · rw [if_pos hc] at h
        cases h
        exact does_asked _ hp nofun (if_pos hc) rfl
      · rw [if_neg hc] at h
        cases ha : (w.pollRead prompt).1.answer with
        | some event =>
          rw [ha] at h
          cases h
          exact does_asked _ hp nofun ((if_neg hc).trans ha) rfl
        | none =>
          have hlogged : l.logged console w = [] := logged_unasked hp nofun ((if_neg hc).trans ha)
          rw [ha] at h
          simp only at h
          split at h
          · cases h
            rw [hlogged]
            exact .waited
          · cases h
    | prompt text =>
      simp only [planStep] at h
      by_cases hc : l.state.cancelled = true
      · rw [if_pos hc] at h
        cases h
        exact does_asked _ hp nofun (congrArg some (if_pos hc)) rfl
      · rw [if_neg hc] at h
        cases h
        exact does_asked _ hp nofun (congrArg some (if_neg hc)) rfl
    | write | flush | isCancelled | renew | exitValue | resolve =>
      cases h
      exact does_asked _ hp nofun rfl rfl

/-- An interrupt of a session that has none nested in it cancels it, or does nothing. -/
theorem interrupt_single (c : ExecutionState) :
    ExecutionState.interrupt [c] = ((ExecutionState.interrupt [c]).1,
      [{ c with cancelled := c.cancelled || (ExecutionState.interrupt [c]).1 }]) := by
  unfold ExecutionState.interrupt
  split
  · split
    · simp only [ExecutionState.interrupt, Bool.or_false]
    · simp only [Bool.or_true]
  · simp only [Bool.or_false]

theorem setExitValue_goto {value : ExitCode} {a : Command.Answer (.setExitValue value)}
    (phase : Phase) : (l.setExitValue value).goto phase =
      { l with
        role := (Entry.used (.setExitValue value) a).onRole l.role
        phase := phase } := by
  obtain ⟨state, role, out, err, env, old⟩ := l
  cases role <;> rfl

/-- A request of a command that is answered at once. -/
theorem does_used {r : Command.Request}
    {more : Command.Answer r → Command.Script (Except Failure ExitCode)}
    {next : Except Failure ExitCode → Plan Next} (a : Command.Answer r)
    (hp : l.phase = .command (.ask r more) next) (ha : l.grant? console w r = some a)
    (hl : l' = { l with
      state := (Entry.used r a).onState l.state
      role := (Entry.used r a).onRole l.role
      phase := .command (more a) next }) :
    Does console w l (l.logged console w) l' := by
  rw [logged_used hp ha, hl]
  exact .used hp ha

/-- A step of a command. -/
theorem does_of_scriptStep {script : Command.Script (Except Failure ExitCode)}
    {next : Except Failure ExitCode → Plan Next} (hp : l.phase = .command script next)
    (h : l.scriptStep console w next script = .moved l' w' interrupts) :
    Does console w l (l.logged console w) l' := by
  cases script with
  | done result =>
    have hlogged : l.logged console w = [.ended result] := by simp only [logged, hp]
    cases h
    rw [hlogged]
    exact .returned hp
  | ask r more =>
    cases r with
    | write | flush | readLine | isCancelled | clock | yield | calendar =>
      cases h
      exact does_used _ hp rfl rfl
    | wait deadline =>
      simp only [scriptStep] at h
      by_cases hc : l.state.cancelled = true
      · rw [if_pos hc] at h
        cases h
        exact does_used _ hp (if_pos hc) rfl
      · rw [if_neg hc] at h
        split at h
        next ht =>
          cases h
          exact does_used _ hp ((if_neg hc).trans (if_pos ht)) rfl
        · cases h
    | setExitValue value =>
      cases h
      exact does_used (r := .setExitValue value) () hp rfl (setExitValue_goto _)
    | interrupt =>
      simp only [scriptStep] at h
      cases hargs : l.shellArgs? with
      | none =>
        rw [hargs] at h
        cases h
        refine does_used (r := .interrupt) false hp (by rw [grant?, hargs]; rfl) ?_
        simp only [goto, Entry.onState, Entry.onRole, Bool.or_false]
      | some args =>
        rw [hargs, interrupt_single l.state] at h
        cases h
        exact does_used _ hp (by rw [grant?, hargs]; rfl) rfl
    | nestShell args => cases h
    | nestOnce words =>
      simp only [scriptStep] at h
      cases hb : console.resolve (.words words) with
      | error e =>
        rw [hb] at h
        cases h
        exact does_used _ hp (by simp only [grant?, hb]) rfl
      | ok b =>
        rw [hb] at h
        cases h
    | invoke words =>
      simp only [scriptStep] at h
      cases hb : console.resolve (.words words) with
      | error e =>
        rw [hb] at h
        cases h
        exact does_used _ hp (by simp only [grant?, hb]) rfl
      | ok b =>
        rw [hb] at h
        cases h
        rw [logged_unused hp (by simp only [grant?, hb])]
        exact .invoked hp

/-- **Each step is one of the cases.** -/
theorem does_of_step (h : l.step console w = .moved l' w' interrupts) :
    Does console w l (l.logged console w) l' := by
  unfold step at h
  cases hp : l.phase with
  | own plan =>
    rw [hp] at h
    exact does_of_planStep hp h
  | command script next =>
    rw [hp] at h
    exact does_of_scriptStep hp h
  | _ =>
    rw [hp] at h
    cases h

/-- A step of the session's own plan starts no other session. -/
theorem planStep_ne_nests {plan : Plan Next} :
    l.planStep console w plan ≠ .nests l' child w' := by
  cases plan with
  | done x => cases x <;> nofun
  | ask r next =>
    cases r with
    | event prompt =>
      simp only [planStep]
      split
      · nofun
      · split
        · nofun
        · split <;> nofun
    | prompt text =>
      simp only [planStep]
      split <;> nofun
    | write | flush | isCancelled | renew | exitValue | resolve | run => nofun

/-- A session as another one makes it: a shell on its terminal, or a command on its streams. -/
inductive Spawns (console : Console) (l : Level) : Level → Prop
  | shell (args : List String) : Spawns console l (Level.shell console.settings args l.env)
  | once (b : Binding) : Spawns console l (Level.once b l.out l.err l.env)

theorem Spawns.new (h : Spawns console l child) : New console child := by
  cases h with
  | shell args => exact .shell args l.env
  | once b => exact .once b l.out l.err l.env

/-- What a step that starts a nested session comes from. -/
theorem spawns_of_nests (h : l.step console w = .nests l' child w') :
    Spawns console l child ∧ w' = w ∧
      ∃ (r : Command.Request) (more : Command.Answer r → Command.Script (Except Failure ExitCode))
        (next : Except Failure ExitCode → Plan Next)
        (resume : Except Failure ExitCode → Command.Script (Except Failure ExitCode)),
        l.phase = .command (.ask r more) next ∧ l.grant? console w r = none ∧
          resumption r more = some resume ∧ l' = l.enter (.nested resume next) := by
  unfold step at h
  cases hp : l.phase with
  | own plan =>
    rw [hp] at h
    exact absurd h planStep_ne_nests
  | command script next =>
    rw [hp] at h
    cases script with
    | done result => cases h
    | ask r more =>
      cases r with
      | nestShell args =>
        cases h
        exact ⟨.shell args, rfl, _, _, _, _, rfl, rfl, rfl, rfl⟩
      | nestOnce words =>
        simp only [scriptStep] at h
        cases hb : console.resolve (.words words) with
        | error e =>
          rw [hb] at h
          cases h
        | ok b =>
          rw [hb] at h
          cases h
          exact ⟨.once b, rfl, _, _, _, _, rfl, by simp only [grant?, hb], rfl, rfl⟩
      | invoke words =>
        simp only [scriptStep] at h
        cases hb : console.resolve (.words words) <;> rw [hb] at h <;> cases h
      | wait deadline =>
        simp only [scriptStep] at h
        split at h
        · cases h
        · split at h <;> cases h
      | interrupt =>
        simp only [scriptStep] at h
        split at h <;> cases h
      | write | flush | readLine | isCancelled | clock | yield | calendar | setExitValue => cases h
  | _ =>
    rw [hp] at h
    cases h

/-- **A step that starts a nested session** is one of the cases. -/
theorem does_of_nests (h : l.step console w = .nests l' child w') :
    Starts console w w' l l' child ∧ Does console w l (l.logged console w) l' := by
  obtain ⟨hspawns, hworld, r, more, next, resume, hp, hgrant, hresume, rfl⟩ := spawns_of_nests h
  have hlogged : l.logged console w = [] := logged_unused hp hgrant
  rw [hlogged]
  exact ⟨⟨hspawns.new, ⟨_, _, rfl⟩, hlogged, hworld⟩, .nested hp hresume⟩

end Level

end CommandConsole
