import CommandConsole.Failure

/-!
# Activities

An activity runs a body at most once and moves forward through four stages: `initial`, `started`,
`completed`, `closed`. Callers start, interrupt and close it; the worker enters the body and reports
how it ended. Each of these is one step below, taken as a whole, in any order.

Completion handles are shown each stage as it is come to (`setStage`), and whoever waits on one reads
the ending apart from that.

Closing releases the activity's resources, once, whoever closes it. An activity that was cancelled
before its body was entered skips the body and completes; one that was closed before never reports.

Results: `interrupt_eq_false` and `close_of_closed` (a refused interrupt and a second close change
nothing).
-/

namespace CommandConsole

/-- Where the body of an activity runs: in a place of its own, which ends with the activity, or in
one that others manage. -/
inductive Worker where
  | owned
  | shared
  deriving DecidableEq, Repr

/-- The worker that the caller runs on, if it runs on one. -/
def Worker.current (running : Bool) : Except Failure Worker :=
  if running then .ok .shared else .error (.invalidState "no async runtime is running")

namespace Activity

/-- How far an activity has come. -/
inductive Stage where
  | initial
  | started
  | completed
  | closed
  deriving DecidableEq, Repr, Inhabited

/-- The place of a stage in their order. -/
def Stage.rank : Stage → Nat
  | initial => 0
  | started => 1
  | completed => 2
  | closed => 3

/-- What the end of an activity's body is known as. -/
inductive Ending where
  | finished
  | interrupted
  | failed (text : String)
  deriving DecidableEq, Repr

/-- How a body ended that returned. -/
def Ending.ofResult : Except Failure Unit → Ending
  | .ok () => finished
  | .error e => if e.isInterrupted then interrupted else failed e.message

/-- What those learn who wait for an activity. -/
inductive Outcome where
  | reported (ending : Ending)
  /-- The activity was closed and its body has not reported. -/
  | abandoned
  deriving DecidableEq, Repr

/-- What the worker finds when it comes to the body. -/
inductive Entry where
  | perform
  | skip
  deriving DecidableEq, Repr

end Activity

/-- An activity. -/
structure Activity where
  stage : Activity.Stage := .initial
  /-- The stage that is shown to the completion handles. -/
  watched : Activity.Stage := stage
  worker : Option Worker := some .shared
  cancelled : Bool := false
  ending : Option Activity.Ending := none
  released : Bool := false
  /-- The body was entered. -/
  entered : Bool := false
  /-- How long to wait for the worker when closing, in milliseconds. -/
  shutdownWait : Nat := 1000
  deriving DecidableEq, Repr

namespace Activity

/-- Whether the body has reported or will not, as far as the completion handles are shown. -/
def isDone (a : Activity) : Bool :=
  Stage.completed.rank ≤ a.watched.rank

/-- Whether the activity has not completed. -/
def isActive (a : Activity) : Bool :=
  a.stage.rank < Stage.completed.rank

/-- Whether the activity was closed. -/
def isClosed (a : Activity) : Bool :=
  a.stage = .closed

/-- Comes to a stage and shows it to the completion handles. -/
def setStage (a : Activity) (stage : Stage) : Activity :=
  { a with stage := stage, watched := stage }

/-- Has the body run, once. -/
def start (a : Activity) : Except Failure Activity :=
  match a.stage with
  | .initial =>
    if a.worker.isSome then .ok (a.setStage .started)
    else .error (.invalidState "activity has no worker")
  | .closed => .error (.invalidState "activity is closed")
  | _ => .error (.invalidState "already started")

/-- Cancels the body of a started activity, once; the answer says whether this call did. -/
def interrupt (a : Activity) : Bool × Activity :=
  if a.stage = .started ∧ ¬a.cancelled then (true, { a with cancelled := true }) else (false, a)

/-- Closes the activity; the answer says whether this call has to release its resources. -/
def close (a : Activity) : Bool × Activity :=
  if a.stage = .closed then (false, a)
  else
    (!a.released, { a.setStage .closed with cancelled := true, released := true, worker := none })

/-- Comes to the body. -/
def enter (a : Activity) : Entry × Activity :=
  if a.stage = .closed then (.skip, a)
  else if a.cancelled then (.skip, { a with ending := some .interrupted }.setStage .completed)
  else (.perform, { a with entered := true })

/-- Reports how the body ended. -/
def report (a : Activity) (result : Except Failure Unit) : Activity :=
  let a := { a with ending := some (.ofResult result) }
  if a.stage.rank < Stage.completed.rank then a.setStage .completed else a

/-- The failure that a body's end hands to the activity's error hook. -/
def hookedFailure? : Except Failure Unit → Option Failure
  | .ok () => none
  | .error e => if e.isInterrupted then none else some e

/-- What is read by one who has waited for the activity. -/
def answer (a : Activity) : Outcome :=
  a.ending.elim .abandoned .reported

/-- What those learn now who wait for the activity; nothing before it has completed. -/
def outcome? (a : Activity) : Option Outcome :=
  if a.isDone then some a.answer else none

theorem interrupt_eq_false {a : Activity} (h : a.interrupt.1 = false) : a.interrupt.2 = a := by
  unfold interrupt at h ⊢
  split
  next hc => rw [if_pos hc] at h; cases h
  · rfl

theorem close_of_closed {a : Activity} (h : a.stage = .closed) : a.close = (false, a) := by
  simp [close, h]

end Activity

end CommandConsole
