import CommandConsole.Failure

/-!
# The state of an execution

Every session executes at most once, and can be interrupted while it does. An interrupt cancels the
operation in progress; the session renews itself before the next operation, so that this one starts
uncancelled. While a session runs another one in its place it is linked to it, and an interrupt is
passed on.

Results: `begin_eq_ok_iff` (a session begins once), `interrupt_eq_false` (an interrupt without
effect changes nothing).
-/

namespace CommandConsole

/-- How far an execution has come. -/
structure ExecutionState where
  executed : Bool := false
  running : Bool := false
  /-- The operation in progress was interrupted. -/
  cancelled : Bool := false
  /-- Interrupts go to a nested session. -/
  linked : Bool := false
  deriving DecidableEq, Repr, Inhabited

namespace ExecutionState

/-- Begins the execution, once. -/
def begin (c : ExecutionState) : Except Failure ExecutionState :=
  if c.executed then .error (.invalidState "already executed")
  else .ok { c with executed := true, running := true }

/-- Ends the execution. -/
def finish (c : ExecutionState) : ExecutionState :=
  { c with running := false, linked := false }

/-- Makes ready for the next operation. -/
def renew (c : ExecutionState) : ExecutionState :=
  { c with cancelled := false }

/-- Routes interrupts to a nested session. -/
def link (c : ExecutionState) : ExecutionState :=
  { c with linked := true }

/-- Routes interrupts to this session again. -/
def unlink (c : ExecutionState) : ExecutionState :=
  { c with linked := false }

/-- Interrupts the first session of a chain, each of which was nested in the one before it. The
answer says whether some session was cancelled. -/
def interrupt : List ExecutionState → Bool × List ExecutionState
  | [] => (false, [])
  | c :: rest =>
    if c.running then
      if c.linked then ((interrupt rest).1, c :: (interrupt rest).2)
      else (true, { c with cancelled := true } :: rest)
    else (false, c :: rest)

theorem begin_eq_ok_iff {c d : ExecutionState} :
    c.begin = .ok d ↔ c.executed = false ∧ d = { c with executed := true, running := true } := by
  unfold begin
  cases c.executed <;> simp [eq_comm]

@[simp] theorem length_interrupt (cs : List ExecutionState) :
    (interrupt cs).2.length = cs.length := by
  induction cs with
  | nil => rfl
  | cons c rest ih =>
    unfold interrupt
    split
    · split <;> simp [ih]
    · rfl

theorem interrupt_eq_false {cs : List ExecutionState} (h : (interrupt cs).1 = false) :
    (interrupt cs).2 = cs := by
  induction cs with
  | nil => rfl
  | cons c rest ih =>
    unfold interrupt at h ⊢
    split
    next hr =>
      rw [if_pos hr] at h
      split
      next hl => rw [if_pos hl] at h; simp [ih h]
      next hl => rw [if_neg hl] at h; cases h
    · rfl

end ExecutionState

end CommandConsole
