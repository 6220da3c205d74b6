import CommandConsole.Activity.Basic

/-!
# Waiting for an activity

Activities run beside those who wait for them, all by one clock. A `Host` is whatever lets the body
of an activity go on: until it gives way, until it must wait, maybe only until a time, or until
nothing is left to do. While everyone waits for a time the clock is set to the earliest such time.

One who waits looks first, and is the first to go on when a time has come: a wait that ends at the
same time as a sleep of the body does not see what the body does then.

Results: `waitMillis_of_outcome` (who waits for an activity that has an outcome learns it at once).
-/

namespace CommandConsole.Activity

/-- Why the body of an activity does not go on. -/
inductive Suspension where
  /-- It gave way to others. -/
  | gaveWay
  /-- It waits, maybe only until the clock shows a time. -/
  | waiting (deadline : Option Nat)
  deriving DecidableEq, Repr

/-- What activities run in. -/
class Host (σ : Type) where
  activity : σ → Activity
  clock : σ → Nat
  setClock : Nat → σ → σ
  /-- Lets the body go on until it is suspended. -/
  advance : σ → Suspension × σ

namespace Host

variable {σ : Type} [Host σ]

/-- How often a body is let go on at a time. -/
def patience : Nat :=
  1000000000

/-- Takes steps until one is followed by a suspension, for a number of steps at most. -/
def runSteps {τ : Type} (step : τ → Option Suspension × τ) : Nat → τ → Suspension × τ
  | 0, s => (.waiting none, s)
  | n + 1, s =>
    match step s with
    | (none, s) => runSteps step n s
    | (some why, s) => (why, s)

/-- Lets the body go on until it must wait. -/
def settleFor : Nat → σ → Option Nat × σ
  | 0, s => (none, s)
  | n + 1, s =>
    match advance s with
    | (.gaveWay, s) => settleFor n s
    | (.waiting deadline, s) => (deadline, s)

/-- Lets the body go on until it must wait. -/
def settle (s : σ) : σ :=
  (settleFor patience s).2

/-- Waits for the activity until the clock shows `limit`, if there is one. -/
def waitFor : Nat → Option Nat → σ → Option Outcome × σ
  | 0, _, s => (none, s)
  | n + 1, limit, s =>
    match (activity s).outcome? with
    | some outcome => (some outcome, s)
    | none =>
      if limit.any (· ≤ clock s) then (none, s)
      else
        match advance s with
        | (.gaveWay, s) => waitFor n limit s
        | (.waiting deadline, s) =>
          if (activity s).isDone then ((activity s).outcome?, s)
          else
            match deadline, limit with
            | none, none => (none, s)
            | some d, none => waitFor n limit (setClock d s)
            | none, some t => (none, setClock t s)
            | some d, some t => waitFor n limit (setClock (min d t) s)

/-- Waits for the activity until the clock shows `limit`, if there is one. -/
def waitUntil (limit : Option Nat) (s : σ) : Option Outcome × σ :=
  waitFor patience limit s

/-- Waits for the activity for some milliseconds at most. -/
def waitMillis (millis : Nat) (s : σ) : Option Outcome × σ :=
  waitUntil (some (clock s + millis)) s

/-- **Who waits for an activity that has an outcome** learns it, and nothing goes on meanwhile. -/
theorem waitMillis_of_outcome {outcome : Outcome} {s : σ} (h : (activity s).outcome? = some outcome)
    (millis : Nat) : waitMillis millis s = (some outcome, s) := by
  have hpatience : patience = 999999999 + 1 := rfl
  rw [waitMillis, waitUntil, hpatience, waitFor, h]

/-- Lets time pass until the clock shows `time`. -/
def passFor : Nat → Nat → σ → σ
  | 0, _, s => s
  | n + 1, time, s =>
    match settleFor patience s with
    | (some d, s) => if d < time then passFor n time (setClock d s) else settle (setClock time s)
    | (none, s) => settle (setClock time s)

/-- Lets some milliseconds pass. -/
def passMillis (millis : Nat) (s : σ) : σ :=
  passFor patience (clock s + millis) s

/-- An hour, in milliseconds. -/
def hour : Nat :=
  3600000

end Host

end CommandConsole.Activity
