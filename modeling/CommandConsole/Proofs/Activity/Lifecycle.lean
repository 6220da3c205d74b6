import CommandConsole.Activity.Basic
import Mathlib.Logic.Relation

/-!
# The life of an activity

An activity is used by any number of callers and by the runs that its starts have scheduled, each
taking one whole step at a time, in any order. A `Life` is an activity with the runs under way and a
record of what has happened to it; `Step` is one step of anybody.

A caller may start, interrupt or close at any time, the body of the activity included. A run comes
to the body, reports how the body ended, and closes the activity after it; a body may also end
without a result, and a run may be dropped before it comes to the body.

Results: `Valid` is kept by every step (`valid_of_step`) and so holds of every reachable life
(`valid_of_reachable`); no step goes back (`rank_le_of_step`), and a life that is barred stays so
(`barred_of_step`). Main statement: `safe_of_reachable`.
-/

namespace CommandConsole.Activity

/-- An activity, the runs under way, and what has happened to it so far. -/
structure Life where
  activity : Activity
  /-- Runs that have not come to the body. -/
  scheduled : Nat := 0
  /-- Bodies that were entered and have not ended. -/
  performing : Nat := 0
  /-- Bodies that have ended and whose close is still to come. -/
  closing : Nat := 0
  /-- Starts that succeeded. -/
  starts : Nat := 0
  /-- Interrupts that were answered with true. -/
  interrupts : Nat := 0
  /-- How often the body was entered. -/
  entries : Nat := 0
  /-- How often a run came to the body and skipped it. -/
  skips : Nat := 0
  /-- How often the release of the resources was claimed. -/
  releases : Nat := 0
  /-- What bodies returned, the last result first. -/
  results : List (Except Failure Unit) := []
  /-- What the error hook was run with, the last failure first. -/
  hooked : List Failure := []

namespace Life

/-- The life of a new activity. -/
def new (worker : Worker) (shutdownWait : Nat) : Life where
  activity := { worker := some worker, shutdownWait := shutdownWait }

/-- A caller starts the activity; a start that succeeds schedules a run. -/
def start (l : Life) : Life :=
  match l.activity.start with
  | .ok a => { l with activity := a, scheduled := l.scheduled + 1, starts := l.starts + 1 }
  | .error _ => l

/-- A caller interrupts the activity, itself or by a completion handle. -/
def interrupt (l : Life) : Life :=
  let (had, a) := l.activity.interrupt
  { l with activity := a, interrupts := l.interrupts + had.toNat }

/-- Somebody closes the activity. -/
def close (l : Life) : Life :=
  let (releases, a) := l.activity.close
  { l with activity := a, releases := l.releases + releases.toNat }

/-- A run comes to the body. -/
def enter (l : Life) : Life :=
  match l.activity.enter with
  | (.perform, a) =>
    { l with
      activity := a
      scheduled := l.scheduled - 1
      performing := l.performing + 1
      entries := l.entries + 1 }
  | (.skip, a) =>
    { l with
      activity := a
      scheduled := l.scheduled - 1
      skips := l.skips + 1 }

/-- A body returns: its failure goes to the error hook, and its result is reported. -/
def report (l : Life) (result : Except Failure Unit) : Life :=
  { l with
    activity := l.activity.report result
    performing := l.performing - 1
    closing := l.closing + 1
    results := result :: l.results
    hooked := (hookedFailure? result).toList ++ l.hooked }

/-- A body ends without a result. -/
def die (l : Life) : Life :=
  { l with performing := l.performing - 1, closing := l.closing + 1 }

/-- A run closes the activity after its body. -/
def closeAfter (l : Life) : Life :=
  { l.close with closing := l.closing - 1 }

/-- A run is dropped before it comes to the body. -/
def drop (l : Life) : Life :=
  { l with scheduled := l.scheduled - 1 }

/-- **One step** of a caller or of a run. -/
inductive Step : Life → Life → Prop
  | start (l : Life) : Step l l.start
  | interrupt (l : Life) : Step l l.interrupt
  | close (l : Life) : Step l l.close
  | enter {l : Life} (h : 0 < l.scheduled) : Step l l.enter
  | report {l : Life} (h : 0 < l.performing) (result : Except Failure Unit) :
      Step l (l.report result)
  | die {l : Life} (h : 0 < l.performing) : Step l l.die
  | closeAfter {l : Life} (h : 0 < l.closing) : Step l l.closeAfter
  | drop {l : Life} (h : 0 < l.scheduled) : Step l l.drop

/-- A life that some order of steps leads to from another. -/
def Leads : Life → Life → Prop :=
  Relation.ReflTransGen Step

/-- A life that some order of steps leads to from a new activity. -/
def Reachable (worker : Worker) (shutdownWait : Nat) : Life → Prop :=
  Leads (new worker shutdownWait)

end Life

/-! ## What each operation does -/

theorem start_eq_ok_iff {a b : Activity} : a.start = .ok b ↔ a.stage = .initial ∧
    a.worker.isSome ∧ b = { a with stage := .started, watched := .started } := by
  unfold start setStage
  cases a.stage <;> cases a.worker <;> simp [eq_comm]

theorem interrupt_eq (a : Activity) :
    (a.stage = .started ∧ a.cancelled = false ∧
      a.interrupt = (true, { a with cancelled := true })) ∨
    (¬(a.stage = .started ∧ a.cancelled = false) ∧ a.interrupt = (false, a)) := by
  unfold interrupt
  by_cases h : a.stage = .started ∧ ¬a.cancelled
  · exact .inl ⟨h.1, by simpa using h.2, if_pos h⟩
  · exact .inr ⟨by simpa using h, if_neg h⟩

theorem close_eq (a : Activity) :
    (a.stage = .closed ∧ a.close = (false, a)) ∨
    (a.stage ≠ .closed ∧ a.close = (!a.released, { a with
      stage := .closed, watched := .closed, cancelled := true, released := true,
      worker := none })) := by
  by_cases h : a.stage = .closed
  · exact .inl ⟨h, close_of_closed h⟩
  · exact .inr ⟨h, if_neg h⟩

theorem enter_eq (a : Activity) :
    (a.stage = .closed ∧ a.enter = (.skip, a)) ∨
    (a.stage ≠ .closed ∧ a.cancelled = true ∧ a.enter = (.skip, { a with
      ending := some .interrupted, stage := .completed, watched := .completed })) ∨
    (a.stage ≠ .closed ∧ a.cancelled = false ∧
      a.enter = (.perform, { a with entered := true })) := by
  unfold enter
  by_cases h : a.stage = .closed
  · exact .inl ⟨h, if_pos h⟩
  · rw [if_neg h]
    cases hc : a.cancelled with
    | true => exact .inr (.inl ⟨h, rfl, rfl⟩)
    | false => exact .inr (.inr ⟨h, rfl, rfl⟩)

theorem report_eq (a : Activity) (result : Except Failure Unit) : a.report result = { a with
    ending := some (.ofResult result)
    stage := if a.stage.rank < Stage.completed.rank then .completed else a.stage
    watched := if a.stage.rank < Stage.completed.rank then .completed else a.watched } := by
  by_cases h : a.stage.rank < Stage.completed.rank
  · simp [report, setStage, h]
  · simp [report, h]

theorem report_stage_eq_closed_iff {a : Activity} {result : Except Failure Unit} :
    (a.report result).stage = .closed ↔ a.stage = .closed := by
  rw [report_eq]
  cases a.stage <;> simp [Stage.rank]

theorem report_stage_ne_initial (a : Activity) (result : Except Failure Unit) :
    (a.report result).stage ≠ .initial := by
  rw [report_eq]
  cases a.stage <;> simp [Stage.rank]

theorem hookedFailure?_eq_some_iff {result : Except Failure Unit} {e : Failure} :
    hookedFailure? result = some e ↔ result = .error e ∧ e ≠ .interrupted := by
  cases result with
  | ok => simp [hookedFailure?]
  | error f => cases f <;> simp [hookedFailure?, Failure.isInterrupted] <;> grind

section OfResult

variable {result : Except Failure Unit}

theorem ofResult_eq_finished_iff : Ending.ofResult result = .finished ↔ result = .ok () := by
  cases result with
  | ok => simp [Ending.ofResult]
  | error e => cases e <;> simp [Ending.ofResult, Failure.isInterrupted]

theorem ofResult_eq_interrupted_iff :
    Ending.ofResult result = .interrupted ↔ result = .error .interrupted := by
  cases result with
  | ok => simp [Ending.ofResult]
  | error e => cases e <;> simp [Ending.ofResult, Failure.isInterrupted]

theorem ofResult_eq_failed_iff {text : String} : Ending.ofResult result = .failed text ↔
    ∃ e, result = .error e ∧ e ≠ .interrupted ∧ text = e.message := by
  cases result with
  | ok => simp [Ending.ofResult]
  | error e => cases e <;> simp [Ending.ofResult, Failure.isInterrupted, eq_comm]

end OfResult

namespace Life

variable {l l' : Life} {worker : Worker} {shutdownWait : Nat}

theorem start_of_ok {a : Activity} (h : l.activity.start = .ok a) : l.start =
    { l with activity := a, scheduled := l.scheduled + 1, starts := l.starts + 1 } := by
  simp only [start, h]

/-- A refused start changes nothing. -/
theorem start_of_error {e : Failure} (h : l.activity.start = .error e) : l.start = l := by
  simp only [start, h]

/-- A second close changes nothing. -/
theorem close_of_closed (h : l.activity.stage = .closed) : l.close = l := by
  simp [close, Activity.close_of_closed h]

/-! ## The invariant -/

/-- What holds of a life at any time. -/
structure Valid (l : Life) : Prop where
  worker : l.activity.worker.isSome ↔ l.activity.stage ≠ .closed
  released : l.activity.released = true ↔ l.activity.stage = .closed
  releases : l.releases = if l.activity.stage = .closed then 1 else 0
  initial : l.activity.stage = .initial → l.starts = 0
  starts : l.starts ≤ 1
  interrupts : l.interrupts ≤ l.activity.cancelled.toNat
  /-- Each start has scheduled one run, and a run comes to the body once. -/
  runs : l.scheduled + l.entries + l.skips ≤ l.starts
  /-- Each body that was entered returns once. -/
  bodies : l.performing + l.results.length ≤ l.entries
  hooked : l.hooked = l.results.filterMap hookedFailure?

theorem valid_new : Valid (new worker shutdownWait) := by
  constructor <;> simp [new]

namespace Valid

theorem start (h : Valid l) : Valid l.start := by
  cases hs : l.activity.start with
  | error e => rwa [start_of_error hs]
  | ok a =>
    obtain ⟨hstage, hworker, rfl⟩ := start_eq_ok_iff.mp hs
    have hnone := h.initial hstage
    have hruns := h.runs
    rw [start_of_ok hs]
    exact {
      worker := by simpa using hworker
      released := by simpa [hstage] using h.released
      releases := by simpa [hstage] using h.releases
      initial := nofun
      starts := by simp only; omega
      interrupts := h.interrupts
      runs := by simp only; omega
      bodies := h.bodies
      hooked := h.hooked }

theorem interrupt (h : Valid l) : Valid l.interrupt := by
  rcases interrupt_eq l.activity with ⟨hs, hc, he⟩ | ⟨-, he⟩
  · have hinterrupts := h.interrupts
    rw [hc] at hinterrupts
    simp only [Life.interrupt, he]
    exact { h with interrupts := by simpa using hinterrupts }
  · simp only [Life.interrupt, he]
    exact { h with }

theorem close (h : Valid l) : Valid l.close := by
  rcases close_eq l.activity with ⟨hs, -⟩ | ⟨hs, he⟩
  · rwa [close_of_closed hs]
  · have hreleased : l.activity.released = false := by
      rw [← Bool.not_eq_true, h.released]
      exact hs
    have hreleases : l.releases = 0 := by rw [h.releases, if_neg hs]
    have hinterrupts : l.interrupts ≤ 1 := Nat.le_trans h.interrupts (Bool.toNat_le _)
    simp only [Life.close, he]
    exact { h with
      worker := by simp
      released := by simp
      releases := by simp [hreleased, hreleases]
      initial := nofun
      interrupts := hinterrupts }

theorem enter (h : Valid l) (hpos : 0 < l.scheduled) : Valid l.enter := by
  have hruns := h.runs
  have hbodies := h.bodies
  rcases enter_eq l.activity with ⟨hs, he⟩ | ⟨hs, hc, he⟩ | ⟨hs, hc, he⟩
  · simp only [Life.enter, he]
    exact { h with runs := by simp only; omega }
  · have hreleases := h.releases
    rw [if_neg hs] at hreleases
    simp only [Life.enter, he]
    exact { h with
      worker := by simpa [hs] using h.worker
      released := by simpa [hs] using h.released
      releases := by simpa using hreleases
      initial := nofun
      runs := by simp only; omega }
  · simp only [Life.enter, he]
    exact { h with runs := by simp only; omega, bodies := by simp only; omega }

theorem report (h : Valid l) (hpos : 0 < l.performing) (result : Except Failure Unit) :
    Valid (l.report result) := by
  have hbodies := h.bodies
  have hclosed : (l.report result).activity.stage = .closed ↔ l.activity.stage = .closed :=
    report_stage_eq_closed_iff
  refine { h with
    worker := ?_, released := ?_, releases := ?_, initial := ?_, interrupts := ?_, bodies := ?_,
    hooked := ?_ }
  · rw [ne_eq, hclosed, Life.report, report_eq]
    exact h.worker
  · rw [hclosed, Life.report, report_eq]
    exact h.released
  · simp only [hclosed]
    exact h.releases
  · exact fun hi => absurd hi (report_stage_ne_initial l.activity result)
  · rw [Life.report, report_eq]
    exact h.interrupts
  · simp only [Life.report, List.length_cons]
    omega
  · simp only [Life.report, h.hooked, List.filterMap_cons]
    cases hookedFailure? result <;> rfl

theorem die (h : Valid l) : Valid l.die := by
  have hbodies := h.bodies
  exact { h with bodies := by simp only [Life.die]; omega }

theorem closeAfter (h : Valid l) : Valid l.closeAfter :=
  { h.close with }

theorem drop (h : Valid l) : Valid l.drop := by
  have hruns := h.runs
  exact { h with runs := by simp only [Life.drop]; omega }

end Valid

/-- **Every step keeps the invariant.** -/
theorem valid_of_step (h : Valid l) (hs : Step l l') : Valid l' := by
  cases hs with
  | start => exact h.start
  | interrupt => exact h.interrupt
  | close => exact h.close
  | enter hpos => exact h.enter hpos
  | report hpos result => exact h.report hpos result
  | die => exact h.die
  | closeAfter => exact h.closeAfter
  | drop => exact h.drop

theorem valid_of_reachable (h : Reachable worker shutdownWait l) : Valid l := by
  induction h with
  | refl => exact valid_new
  | tail _ hs ih => exact valid_of_step ih hs

/-! ## No step back -/

theorem rank_le_closed (s : Stage) : s.rank ≤ Stage.closed.rank := by
  cases s <;> decide

theorem rank_le_close (l : Life) : l.activity.stage.rank ≤ l.close.activity.stage.rank := by
  rcases close_eq l.activity with ⟨-, he⟩ | ⟨-, he⟩
  · simp [close, he]
  · simp [close, he, rank_le_closed]

theorem rank_le_enter (l : Life) : l.activity.stage.rank ≤ l.enter.activity.stage.rank := by
  rcases enter_eq l.activity with ⟨-, he⟩ | ⟨hs, -, he⟩ | ⟨-, -, he⟩
  · simp [enter, he]
  · simp only [enter, he]
    cases h : l.activity.stage <;> simp_all [Stage.rank]
  · simp [enter, he]

/-- **The stages are passed in order.** -/
theorem rank_le_of_step (hs : Step l l') : l.activity.stage.rank ≤ l'.activity.stage.rank := by
  cases hs with
  | start =>
    cases h : l.activity.start with
    | error e => exact Nat.le_of_eq (by rw [start_of_error h])
    | ok a =>
      obtain ⟨hstage, -, rfl⟩ := start_eq_ok_iff.mp h
      rw [start_of_ok h, hstage]
      exact Nat.zero_le _
  | interrupt => rcases interrupt_eq l.activity with ⟨-, -, he⟩ | ⟨-, he⟩ <;> simp [interrupt, he]
  | close => exact rank_le_close l
  | enter => exact rank_le_enter l
  | report hpos result =>
    simp only [report, report_eq]
    cases l.activity.stage <;> simp [Stage.rank]
  | die => exact Nat.le_refl _
  | closeAfter => exact rank_le_close l
  | drop => exact Nat.le_refl _

/-- An activity whose body is not to be entered any more: it was cancelled or closed. -/
def Barred (l : Life) : Prop :=
  l.activity.cancelled = true ∨ l.activity.stage = .closed

theorem barred_close (l : Life) : l.close.Barred := by
  rcases close_eq l.activity with ⟨hs, he⟩ | ⟨-, he⟩
  · exact .inr (by simp [close, he, hs])
  · exact .inr (by simp [close, he])

theorem barred_of_step (h : l.Barred) (hs : Step l l') : l'.Barred := by
  cases hs with
  | start =>
    cases ha : l.activity.start with
    | error e => rwa [start_of_error ha]
    | ok a =>
      obtain ⟨hstage, -, rfl⟩ := start_eq_ok_iff.mp ha
      rw [start_of_ok ha]
      exact .inl (h.resolve_right (by simp [hstage]))
  | interrupt =>
    rcases interrupt_eq l.activity with ⟨-, -, he⟩ | ⟨-, he⟩
    · exact .inl (by simp [interrupt, he])
    · simpa [Barred, interrupt, he] using h
  | close => exact barred_close l
  | enter =>
    rcases enter_eq l.activity with ⟨hs, he⟩ | ⟨-, hc, he⟩ | ⟨hs, hc, -⟩
    · exact .inr (by simp [enter, he, hs])
    · exact .inl (by simp [enter, he, hc])
    · exact absurd h (by simp [Barred, hs, hc])
  | report hpos result =>
    refine h.imp (fun hc => ?_) report_stage_eq_closed_iff.mpr
    rw [report, report_eq]
    exact hc
  | die => exact h
  | closeAfter => exact barred_close l
  | drop => exact h

/-- A run that comes to a barred activity skips the body. -/
theorem entries_of_step (h : l.Barred) (hs : Step l l') : l'.entries = l.entries := by
  cases hs with
  | start =>
    cases ha : l.activity.start with
    | error e => rw [start_of_error ha]
    | ok a => rw [start_of_ok ha]
  | enter =>
    rcases enter_eq l.activity with ⟨-, he⟩ | ⟨-, -, he⟩ | ⟨hs, hc, -⟩
    · simp [enter, he]
    · simp [enter, he]
    · exact absurd h (by simp [Barred, hs, hc])
  | interrupt | close | report | die | closeAfter | drop => rfl

theorem barred_of_leads (h : l.Barred) (hl : Leads l l') : l'.Barred := by
  induction hl with
  | refl => exact h
  | tail _ hs ih => exact barred_of_step ih hs

/-- **A body that was not entered in time is never entered.** -/
theorem entries_of_leads (h : l.Barred) (hl : Leads l l') : l'.entries = l.entries := by
  induction hl with
  | refl => rfl
  | tail hl hs ih => exact (entries_of_step (barred_of_leads h hl) hs).trans ih

/-! ## Safety -/

/-- There is a worker to start with as long as there may be a start. -/
theorem start_ne_workerless (h : Valid l) :
    l.activity.start ≠ .error (.invalidState "activity has no worker") := by
  have hworker := h.worker
  unfold Activity.start
  cases hs : l.activity.stage with
  | initial => simp [hworker.mpr (by simp [hs])]
  | started => simp
  | completed => simp
  | closed => simp

/-- **Lifecycle safety.** Whatever callers and runs do, in any order: no step goes back in the order
of the stages; one start succeeds at most, and a refused one changes nothing; the body is entered
once at most, after a start that succeeded, and not at all once the activity was cancelled or closed
before; the release is claimed once if the activity is closed and else never, and a further close
changes nothing; there is a worker exactly while the activity is not closed, so no start fails for
want of one; and the error hook was run exactly with the failures that bodies returned, but for
interruptions. -/
theorem safe_of_reachable (h : Reachable worker shutdownWait l) :
    (∀ l', Step l l' → l.activity.stage.rank ≤ l'.activity.stage.rank) ∧
    (l.starts ≤ 1 ∧ ∀ e, l.activity.start = .error e → l.start = l) ∧
    (l.entries ≤ 1 ∧ l.entries ≤ l.starts ∧
      (l.activity.cancelled = true ∨ l.activity.stage = .closed →
        ∀ l', Leads l l' → l'.entries = l.entries)) ∧
    (l.releases ≤ 1 ∧ (l.activity.stage = .closed ↔ l.releases = 1) ∧
      (l.activity.stage = .closed → l.close = l ∧ l.closeAfter.activity = l.activity ∧
        l.closeAfter.releases = l.releases)) ∧
    ((l.activity.worker.isSome ↔ l.activity.stage ≠ .closed) ∧
      l.activity.start ≠ .error (.invalidState "activity has no worker")) ∧
    (l.results.length ≤ l.entries ∧ l.hooked.length ≤ l.results.length ∧
      ∀ e, e ∈ l.hooked ↔ .error e ∈ l.results ∧ e ≠ .interrupted) := by
  have hv := valid_of_reachable h
  have hruns := hv.runs
  have hstarts := hv.starts
  have hbodies := hv.bodies
  refine ⟨fun _ => rank_le_of_step, ⟨hstarts, fun _ => start_of_error⟩,
    ⟨by omega, by omega, fun hb _ => entries_of_leads hb⟩,
    ⟨?_, ?_, fun hs => ⟨close_of_closed hs, ?_, ?_⟩⟩, ⟨hv.worker, start_ne_workerless hv⟩,
    ⟨by omega, ?_, fun e => ?_⟩⟩
  · rw [hv.releases]
    split <;> omega
  · rw [hv.releases]
    split <;> simp [*]
  · rw [closeAfter, close_of_closed hs]
  · rw [closeAfter, close_of_closed hs]
  · rw [hv.hooked]
    exact List.length_filterMap_le _ _
  · rw [hv.hooked, List.mem_filterMap]
    constructor
    · rintro ⟨result, hm, hr⟩
      obtain ⟨rfl, hne⟩ := hookedFailure?_eq_some_iff.mp hr
      exact ⟨hm, hne⟩
    · rintro ⟨hm, hne⟩
      exact ⟨_, hm, hookedFailure?_eq_some_iff.mpr ⟨rfl, hne⟩⟩

/-- A life in which the body fails after a second start and an interrupt. -/
def failing (worker : Worker) (shutdownWait : Nat) (e : Failure) : Life :=
  ((new worker shutdownWait).start.enter.start.interrupt.report (.error e)).closeAfter

theorem reachable_failing (worker : Worker) (shutdownWait : Nat) (e : Failure) :
    Reachable worker shutdownWait (failing worker shutdownWait e) := by
  have hstart : Reachable worker shutdownWait (new worker shutdownWait).start :=
    .single (.start _)
  have henter := hstart.tail (.enter (by decide : 0 < 1))
  have hagain := henter.tail (.start _)
  have hinterrupt := hagain.tail (.interrupt _)
  have hreport := hinterrupt.tail (.report (by decide : 0 < 1) (.error e))
  exact hreport.tail (.closeAfter (by decide : 0 < 1))

/-- The failing body was entered once, its failure was hooked, and its end released the resources;
nothing of that happens again. -/
theorem safe_failing :
    Reachable .owned 1000 (failing .owned 1000 (.execution "no")) ∧
    (failing .owned 1000 (.execution "no")).hooked = [.execution "no"] ∧
    (failing .owned 1000 (.execution "no")).releases = 1 ∧
    (failing .owned 1000 (.execution "no")).close = failing .owned 1000 (.execution "no") ∧
    ∀ l', Leads (failing .owned 1000 (.execution "no")) l' → l'.entries = 1 := by
  have hr := reachable_failing .owned 1000 (.execution "no")
  obtain ⟨-, -, ⟨-, -, hentries⟩, ⟨-, hreleases, hclose⟩, -, -⟩ := safe_of_reachable hr
  exact ⟨hr, rfl, hreleases.mp rfl, (hclose rfl).1, hentries (.inr rfl)⟩

end Life

end CommandConsole.Activity
