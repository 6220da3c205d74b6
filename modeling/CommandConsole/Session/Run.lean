import CommandConsole.Session.Level

/-!
# Sessions nested in one another

A `Run` is a console, a world, and a chain of sessions: the outermost one first, each nested in the
one before it. One step of a run is one step of its innermost session, or starts or ends a nested
one. Interrupts may come between any two steps; they are given to the outermost session and passed
on along the chain.

`settle` lets a run go on until it has ended or must wait. It takes a number of steps to do at
most, because commands may run one another for ever.

Results: `settle_of_over` (a run that has ended stays as it is), `length_interruptLevels`
(an interrupt starts and ends no session).
-/

namespace CommandConsole

/-- A console, a world and a chain of sessions in it. -/
structure Run where
  console : Console
  world : World
  levels : List Level

namespace Run

/-- What one step comes to. -/
inductive Progress where
  | moved (levels : List Level) (world : World) (interrupts : Bool)
  | blocked (deadline : Option Nat)

/-- One step of a chain of sessions. -/
def stepLevels (console : Console) (w : World) : List Level → Progress
  | [] => .blocked none
  | [l] =>
    match l.step console w with
    | .moved l w interrupts => .moved [l] w interrupts
    | .nests l child w => .moved [l, child] w false
    | .blocked deadline => .blocked deadline
  | l :: m :: rest =>
    match m.phase with
    | .over result => .moved [l.leave result] w false
    | .idle =>
      match m.execute console with
      | .ok m => .moved (l :: m :: rest) w false
      | .error e => .moved [l.leave (.error e)] w false
    | _ =>
      match stepLevels console w (m :: rest) with
      | .moved levels w interrupts => .moved (l :: levels) w interrupts
      | .blocked deadline => .blocked deadline

/-- Interrupts the first session of a chain. -/
def interruptLevels (levels : List Level) : Bool × List Level :=
  let (had, states) := ExecutionState.interrupt (levels.map (·.state))
  (had, List.zipWith (fun l state => { l with state := state }) levels states)

/-- Interrupts the outermost session. -/
def interrupt (r : Run) : Bool × Run :=
  let (had, levels) := interruptLevels r.levels
  (had, { r with levels := levels })

/-- One step; none if the run must wait, then until which time. -/
def step (r : Run) : Except (Option Nat) Run :=
  match stepLevels r.console r.world r.levels with
  | .moved levels w interrupts =>
    let r := { r with levels := levels, world := w }
    .ok (if interrupts then r.interrupt.2 else r)
  | .blocked deadline => .error deadline

/-- The result of the outermost session, once it has ended. -/
def result? (r : Run) : Option (Except Failure ExitCode) :=
  match r.levels with
  | l :: _ =>
    match l.phase with
    | .over result => some result
    | _ => none
  | [] => none

/-- Why a run does not go on. -/
inductive Standing where
  | over (result : Except Failure ExitCode)
  /-- It waits, maybe only until the clock shows a time. -/
  | waiting (deadline : Option Nat)

/-- Lets a run go on until it has ended or must wait, for a number of steps at most. -/
def settle : Nat → Run → Standing × Run
  | 0, r => (.waiting none, r)
  | n + 1, r =>
    match r.result? with
    | some result => (.over result, r)
    | none =>
      match r.step with
      | .ok r => settle n r
      | .error deadline => (.waiting deadline, r)

/-- The steps that a run is given at a time. -/
def patience : Nat :=
  1000000000

/-- Begins to execute the outermost session, once. -/
def execute (r : Run) : Except Failure Run :=
  match r.levels with
  | l :: rest => (l.execute r.console).map fun l => { r with levels := l :: rest }
  | [] => .error (.invalidState "no session")

/-- The run with its clock at a later time. -/
def passTo (r : Run) (time : Nat) : Run :=
  { r with world := { r.world with clock := max r.world.clock time } }

/-- Gives up every session of a run that has not ended. -/
def abandon (r : Run) : Run :=
  { r with
    levels := (r.levels.take 1).map fun l => l.finish (.error .interrupted) }

/-- A run that has not begun, of one session. -/
def ofLevel (console : Console) (world : World) (level : Level) : Run :=
  ⟨console, world, [level]⟩

/-- The exit value of the outermost session, if it is a shell and has one. -/
def exitValue (r : Run) : Option ExitCode :=
  r.levels.head?.bind Level.exitValue

theorem settle_of_over {n : Nat} {r : Run} {result : Except Failure ExitCode}
    (h : r.result? = some result) : r.settle (n + 1) = (.over result, r) := by
  simp [settle, h]

@[simp] theorem length_interruptLevels (levels : List Level) :
    (interruptLevels levels).2.length = levels.length := by
  simp [interruptLevels]

end Run

end CommandConsole
