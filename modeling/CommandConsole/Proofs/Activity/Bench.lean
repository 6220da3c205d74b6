import CommandConsole.Activity.Bench
import CommandConsole.Proofs.Activity.Lifecycle

/-!
# The life of an activity with its body

A `Bench` runs a body beside its caller. Whatever the body does and the caller asks for, the activity
on the bench goes through a `Life`, and the hooks of the bench log what that life has of failures
and releases. So what is safe in a life is safe on a bench.

Results: `follows_step` (a step of the body is some steps of the life), `follows_of_proceeds` (a
bench always shows a life). Main statement: `log_of_proceeds`.
-/

namespace CommandConsole.Activity

/-- The failure that an entry of the log is about. -/
def LogEntry.failure? : LogEntry → Option Failure
  | .failed e => some e
  | _ => none

namespace Bench

/-- What the hooks of a bench have logged is what happened in a life. -/
def Logs (b : Bench) (l : Life) : Prop :=
  b.log.filterMap LogEntry.failure? = l.hooked ∧ b.log.count .released = l.releases

/-- A bench shows a life. -/
structure Follows (b : Bench) (l : Life) : Prop where
  activity : l.activity = b.activity
  scheduled : b.task = .scheduled → 0 < l.scheduled
  performing : ∀ work, b.task = .running work → 0 < l.performing
  logs : b.hooked = true → b.Logs l

variable {b b' : Bench} {l : Life} {worker : Worker}

theorem follows_new (worker : Worker) (hooked : Bool) (body : Work Work.Exit) :
    (new worker hooked body).Follows (Life.new worker 1000) :=
  ⟨rfl, nofun, nofun, fun _ => ⟨rfl, rfl⟩⟩

@[simp] theorem writeHook_activity (b : Bench) (entry : LogEntry) :
    (b.writeHook entry).activity = b.activity := by
  unfold writeHook
  split <;> rfl

@[simp] theorem writeHook_task (b : Bench) (entry : LogEntry) :
    (b.writeHook entry).task = b.task := by
  unfold writeHook
  split <;> rfl

@[simp] theorem writeHook_hooked (b : Bench) (entry : LogEntry) :
    (b.writeHook entry).hooked = b.hooked := by
  unfold writeHook
  split <;> rfl

theorem writeHook_log (h : b.hooked = true) (entry : LogEntry) :
    (b.writeHook entry).log = entry :: b.log := by
  unfold writeHook
  rw [if_pos h]
  rfl

/-! ## What the caller does -/

theorem follows_start (h : b.Follows l) (hs : b.start = .ok b') : b'.Follows l.start := by
  unfold start at hs
  cases ha : b.activity.start with
  | error e =>
    rw [ha] at hs
    cases hs
  | ok a =>
    rw [ha] at hs
    cases hs
    have hl : l.activity.start = .ok a := by rw [h.activity, ha]
    rw [Life.start_of_ok hl]
    exact ⟨rfl, fun _ => Nat.succ_pos _, nofun, h.logs⟩

theorem follows_interrupt (h : b.Follows l) : b.interrupt.2.Follows l.interrupt := by
  have hl : l.interrupt.activity = b.interrupt.2.activity := by
    simp only [Life.interrupt, interrupt, h.activity]
  exact ⟨hl, h.scheduled, h.performing, h.logs⟩

theorem follows_close (h : b.Follows l) : b.close.Follows l.close := by
  rcases hc : b.activity.close with ⟨releases, a⟩
  have hl : l.close =
      { l with activity := a, releases := l.releases + releases.toNat } := by
    simp only [Life.close, h.activity, hc]
  rw [hl]
  simp only [close, hc]
  cases releases with
  | false => exact ⟨rfl, h.scheduled, h.performing, h.logs⟩
  | true =>
    simp only [if_true]
    refine ⟨by simp, by simpa using h.scheduled, by simpa using h.performing, fun hh => ?_⟩
    rw [writeHook_hooked] at hh
    obtain ⟨hfailed, hreleased⟩ := h.logs hh
    refine ⟨?_, ?_⟩
    · rw [writeHook_log hh]
      exact hfailed
    · rw [writeHook_log hh, List.count_cons_self]
      exact congrArg (· + 1) hreleased

/-! ## What the body does -/

theorem follows_over (h : b.Follows l) : ({ b with task := .over } : Bench).Follows l :=
  ⟨h.activity, nofun, nofun, h.logs⟩

theorem follows_closeAfter (h : b.Follows l) : b.close.Follows l.closeAfter :=
  have hc := follows_close h
  ⟨hc.activity, hc.scheduled, hc.performing, hc.logs⟩

theorem follows_goOn (h : b.Follows l) (hp : 0 < l.performing) (work : Work Work.Exit) :
    (b.goOn work).2.Follows l :=
  ⟨h.activity, nofun, fun _ _ => hp, h.logs⟩

theorem follows_suspend (h : b.Follows l) (s : Suspension) : (b.suspend s).2.Follows l := by
  unfold suspend
  split
  · exact follows_over h
  · exact h

/-- The bench after the error hook was run for a result. -/
def handle (b : Bench) (result : Except Failure Unit) : Bench :=
  (hookedFailure? result).elim b fun e => b.writeHook (.failed e)

theorem handle_activity (b : Bench) (result : Except Failure Unit) :
    (b.handle result).activity = b.activity := by
  unfold handle
  cases hookedFailure? result <;> simp

theorem handle_task (b : Bench) (result : Except Failure Unit) :
    (b.handle result).task = b.task := by
  unfold handle
  cases hookedFailure? result <;> simp

theorem handle_hooked (b : Bench) (result : Except Failure Unit) :
    (b.handle result).hooked = b.hooked := by
  unfold handle
  cases hookedFailure? result <;> simp

theorem handle_logs (h : b.Logs l) (hh : b.hooked = true) (result : Except Failure Unit) :
    (b.handle result).Logs (l.report result) := by
  obtain ⟨hfailed, hreleased⟩ := h
  unfold handle Logs Life.report
  cases hookedFailure? result with
  | none => exact ⟨hfailed, hreleased⟩
  | some e =>
    rw [Option.elim_some, writeHook_log hh, List.count_cons_of_ne (by simp)]
    exact ⟨congrArg (e :: ·) hfailed, hreleased⟩

theorem exit_returned (b : Bench) (result : Except Failure Unit) :
    b.exit (.returned result) =
      ({ ({ b with task := .over } : Bench).handle result with
        activity := (({ b with task := .over } : Bench).handle result).activity.report result } :
        Bench).close := rfl

/-- The end of a body is reported, or not, and then the activity is closed. -/
theorem follows_exit (h : b.Follows l) (hp : 0 < l.performing) (e : Work.Exit) :
    ∃ l', Life.Leads l l' ∧ (b.exit e).Follows l' := by
  have hover := follows_over h
  cases e with
  | died =>
    have hdie : ({ b with task := .over } : Bench).Follows l.die :=
      ⟨hover.activity, nofun, nofun, hover.logs⟩
    refine ⟨l.die.closeAfter, ?_, follows_closeAfter hdie⟩
    exact .tail (.single (.die hp)) (.closeAfter (Nat.succ_pos _))
  | returned result =>
    refine ⟨(l.report result).closeAfter, ?_, ?_⟩
    · exact .tail (.single (.report hp result)) (.closeAfter (Nat.succ_pos _))
    · rw [exit_returned]
      refine follows_closeAfter ⟨?_, ?_, ?_, fun hh => ?_⟩
      · rw [handle_activity, Life.report, h.activity]
      · rw [handle_task]
        exact nofun
      · rw [handle_task]
        exact nofun
      · rw [handle_hooked] at hh
        exact handle_logs (hover.logs hh) hh result

theorem follows_note (h : b.Follows l) (text : String) : (b.write (.note text)).Follows l := by
  refine ⟨h.activity, h.scheduled, h.performing, fun hh => ?_⟩
  obtain ⟨hfailed, hreleased⟩ := h.logs hh
  refine ⟨hfailed, ?_⟩
  rw [write, List.count_cons_of_ne (by simp)]
  exact hreleased

/-- What is asked for while the body goes on leaves the bench with the same life, or closes,
interrupts or starts the activity. -/
theorem follows_workStep (h : b.Follows l) (hp : 0 < l.performing) (work : Work Work.Exit) :
    ∃ l', Life.Leads l l' ∧ (b.workStep work).2.Follows l' := by
  cases work with
  | done e => exact follows_exit h hp e
  | ask r next =>
    cases r with
    | isCancelled | clock | stage => exact ⟨l, .refl, follows_goOn h hp _⟩
    | note text => exact ⟨l, .refl, follows_goOn (follows_note h text) hp _⟩
    | sleepUntil time =>
      refine ⟨l, .refl, ?_⟩
      simp only [workStep]
      split
      · exact follows_goOn h hp _
      · exact follows_suspend h _
    | waitCancelled =>
      refine ⟨l, .refl, ?_⟩
      simp only [workStep]
      split
      · exact follows_goOn h hp _
      · exact follows_suspend h _
    | takePermit =>
      refine ⟨l, .refl, ?_⟩
      simp only [workStep]
      split
      · exact ⟨h.activity, nofun, fun _ _ => hp, h.logs⟩
      · exact follows_suspend h _
    | yield =>
      have hnext : ({ b with task := .running (next ()) } : Bench).Follows l :=
        follows_goOn h hp (next ())
      exact ⟨l, .refl, follows_suspend hnext _⟩
    | close => exact ⟨l.close, .single (.close l), follows_goOn (follows_close h) hp _⟩
    | interrupt =>
      exact ⟨l.interrupt, .single (.interrupt l), follows_goOn (follows_interrupt h) hp _⟩
    | start =>
      simp only [workStep]
      cases ha : b.activity.start with
      | error e => exact ⟨l, .refl, follows_goOn h hp _⟩
      | ok a =>
        have hl : l.activity.start = .ok a := by rw [h.activity, ha]
        refine ⟨l.start, .single (.start l), ?_⟩
        rw [Life.start_of_ok hl]
        exact ⟨rfl, nofun, fun _ _ => hp, h.logs⟩

/-- **A step of the body** is some steps of the life. -/
theorem follows_step (h : b.Follows l) : ∃ l', Life.Leads l l' ∧ b.step.2.Follows l' := by
  unfold step
  cases ht : b.task with
  | running work => exact follows_workStep h (h.performing work ht) work
  | scheduled =>
    refine ⟨l.enter, .single (.enter (h.scheduled ht)), ?_⟩
    rcases he : b.activity.enter with ⟨entry, a⟩
    unfold Life.enter
    rw [h.activity, he]
    cases entry with
    | skip => exact ⟨rfl, nofun, nofun, h.logs⟩
    | perform => exact ⟨rfl, nofun, fun _ _ => Nat.succ_pos _, h.logs⟩
  | _ => exact ⟨l, .refl, h⟩

/-! ## Any order of steps -/

/-- What may happen to a bench: the caller starts, interrupts or closes the activity, gives a permit
or lets time pass, or the body takes a step. -/
inductive Proceeds : Bench → Bench → Prop
  | start {b b' : Bench} (h : b.start = .ok b') : Proceeds b b'
  | interrupt (b : Bench) : Proceeds b b.interrupt.2
  | close (b : Bench) : Proceeds b b.close
  | permit (b : Bench) : Proceeds b b.permit
  | pass (b : Bench) (time : Nat) : Proceeds b { b with clock := time }
  | step (b : Bench) : Proceeds b b.step.2

theorem follows_of_step (h : b.Follows l) (hp : Proceeds b b') :
    ∃ l', Life.Leads l l' ∧ b'.Follows l' := by
  cases hp with
  | start hs => exact ⟨l.start, .single (.start l), follows_start h hs⟩
  | interrupt => exact ⟨l.interrupt, .single (.interrupt l), follows_interrupt h⟩
  | close => exact ⟨l.close, .single (.close l), follows_close h⟩
  | permit => exact ⟨l, .refl, h.activity, h.scheduled, h.performing, h.logs⟩
  | pass time => exact ⟨l, .refl, h.activity, h.scheduled, h.performing, h.logs⟩
  | step => exact follows_step h

/-- **A bench always shows a life** that its activity can have. -/
theorem follows_of_proceeds {worker : Worker} {hooked : Bool} {body : Work Work.Exit}
    (h : Relation.ReflTransGen Proceeds (new worker hooked body) b) :
    ∃ l, Life.Reachable worker 1000 l ∧ b.Follows l := by
  induction h with
  | refl => exact ⟨_, .refl, follows_new worker hooked body⟩
  | tail _ hp ih =>
    obtain ⟨l, hr, hf⟩ := ih
    obtain ⟨l', hl, hf'⟩ := follows_of_step hf hp
    exact ⟨l', hr.trans hl, hf'⟩

/-- **What a bench logs.** The release of the resources is in the log once if the activity is closed
and else not at all, and there is one failure at most, which is not an interruption. -/
theorem log_of_proceeds {worker : Worker} {hooked : Bool} {body : Work Work.Exit}
    (h : Relation.ReflTransGen Proceeds (new worker hooked body) b) (hh : b.hooked = true) :
    b.log.count .released = (if b.activity.stage = .closed then 1 else 0) ∧
    (b.log.filterMap LogEntry.failure?).length ≤ 1 ∧ .failed .interrupted ∉ b.log := by
  obtain ⟨l, hr, hf⟩ := follows_of_proceeds h
  have hv := Life.valid_of_reachable hr
  obtain ⟨hfailed, hreleased⟩ := hf.logs hh
  have hruns := hv.runs
  have hstarts := hv.starts
  have hbodies := hv.bodies
  refine ⟨?_, ?_, fun hmem => ?_⟩
  · rw [hreleased, hv.releases, hf.activity]
  · have hlength := List.length_filterMap_le hookedFailure? l.results
    rw [hfailed, hv.hooked]
    omega
  · have hinterrupted : .interrupted ∈ l.hooked := by
      rw [← hfailed]
      exact List.mem_filterMap.mpr ⟨_, hmem, rfl⟩
    rw [hv.hooked, List.mem_filterMap] at hinterrupted
    obtain ⟨result, -, hresult⟩ := hinterrupted
    exact (hookedFailure?_eq_some_iff.mp hresult).2 rfl

end Bench

end CommandConsole.Activity
