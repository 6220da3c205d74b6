import CommandConsole.Proofs.Activity.Lifecycle
import CommandConsole.Proofs.Session.Chain
import CommandConsole.Session.Hosted

/-!
# The stay of a session in an activity

The task of an activity executes a session, records the exit value, reports how the body ended and
closes the activity. Others read the value and the outcome meanwhile, and may close the activity at
any moment. A `Stay` is an activity with its session and a record of what has happened, and `Step`
one step of anybody, small enough that a reader may come between any two writes of the task. The
session itself may do anything between two steps, so that what is proved here holds of sessions that
never end, that fail, and that do not listen to an interrupt.

`Station.account` gives what is known at each station of the task. As the value is recorded before
the outcome is reported, nobody sees the outcome of a session that returned without its value.

Results: `valid_of_step` (one step), `valid_of_leads` (any number), `exitValue_of_leads` (a recorded
value stays), `reported_of_ending` (an outcome comes with its value), `report_of_none` (who learns
no value). Main statement: `honest_of_valid`.
-/

namespace CommandConsole

open Activity

namespace HostedSession

/-- What is known of a hosted session. -/
structure Account where
  /-- The body was entered. -/
  entered : Bool
  /-- How often the activity called the session to execute. -/
  calls : Nat
  /-- What the call returned. -/
  returned : Option (Except Failure ExitCode)
  exitValue : Option ExitCode
  ending : Option Ending

/-- Where the task of an activity stands that executes a session. -/
inductive Station where
  | absent
  | scheduled
  /-- The body was entered, and the session is still to be called. -/
  | entered
  | executing (forwarded : Bool)
  /-- The session has returned, and its value is not recorded yet. -/
  | returned (result : Except Failure ExitCode)
  /-- The value is recorded, and the outcome is not reported yet. -/
  | recorded (result : Except Failure ExitCode)
  /-- The outcome is reported; the task has closed the activity or still is to. -/
  | reported (result : Except Failure ExitCode) (closed : Bool)
  /-- The task has died in the body, before or after it called the session. -/
  | died (calls : Nat) (closed : Bool)
  /-- The body was not entered, which is reported if the activity was cancelled. -/
  | skipped (told : Bool)

namespace Station

/-- What is known at a station. -/
def account : Station → Account
  | absent | scheduled => ⟨false, 0, none, none, none⟩
  | entered => ⟨true, 0, none, none, none⟩
  | executing _ => ⟨true, 1, none, none, none⟩
  | returned result => ⟨true, 1, some result, none, none⟩
  | recorded result => ⟨true, 1, some result, some (valueOf result), none⟩
  | reported result _ =>
    ⟨true, 1, some result, some (valueOf result), some (.ofResult (result.map fun _ => ()))⟩
  | died calls _ => ⟨true, calls, none, none, none⟩
  | skipped told => ⟨false, 0, none, none, if told then some .interrupted else none⟩

/-- How often the cancellation can have been forwarded at a station. -/
def quota : Station → Nat
  | absent | scheduled | entered | executing false | skipped _ => 0
  | _ => 1

/-- The station as far as a hosted session tells it. -/
def task : Station → Task
  | absent => .absent
  | scheduled => .scheduled
  | entered => .executing false
  | executing forwarded => .executing forwarded
  | returned _ | recorded _ | reported .. | died .. | skipped _ => .over

end Station

/-- An activity, the session it hosts, and what has happened to both so far. -/
structure Stay where
  activity : Activity
  station : Station := .absent
  run : Run
  /-- How often the activity called the session to execute. -/
  calls : Nat := 0
  /-- What the call returned. -/
  returned : Option (Except Failure ExitCode) := none
  exitValue : Option ExitCode := none
  /-- How often the activity passed its cancellation on to the session. -/
  forwards : Nat := 0

namespace Stay

variable {s s' : Stay} {worker : Worker} {shutdownWait : Nat} {run : Run}

/-- A stay that has not begun. -/
def new (worker : Worker) (shutdownWait : Nat) (run : Run) : Stay where
  activity := { worker := some worker, shutdownWait := shutdownWait }
  run := run

/-- What is known. -/
def account (s : Stay) : Account :=
  ⟨s.activity.entered, s.calls, s.returned, s.exitValue, s.activity.ending⟩

/-- The hosted session as its users have it. -/
def hosted (s : Stay) : HostedSession :=
  ⟨s.activity, s.station.task, s.run, s.exitValue⟩

/-- **One step** of a user, of the session, or of the task. -/
inductive Step : Stay → Stay → Prop
  | start {s : Stay} {a : Activity} (h : s.activity.start = .ok a) :
      Step s { s with activity := a, station := .scheduled }
  /-- The session is interrupted. -/
  | interrupt (s : Stay) : Step s { s with run := s.run.interrupt.2 }
  /-- The activity is interrupted. -/
  | cancel (s : Stay) : Step s { s with activity := s.activity.interrupt.2 }
  | close (s : Stay) : Step s { s with activity := s.activity.close.2 }
  /-- The session goes on, or somebody else does something with it. -/
  | progress (s : Stay) (run : Run) : Step s { s with run := run }
  | enter {s : Stay} {a : Activity} (hs : s.station = .scheduled)
      (h : s.activity.enter = (.perform, a)) : Step s { s with activity := a, station := .entered }
  | skip {s : Stay} {a : Activity} (hs : s.station = .scheduled)
      (h : s.activity.enter = (.skip, a)) :
      Step s { s with activity := a, station := .skipped a.ending.isSome }
  /-- The task is dropped before it comes to the body. -/
  | drop {s : Stay} (hs : s.station = .scheduled) : Step s { s with station := .skipped false }
  | execute {s : Stay} {run : Run} (hs : s.station = .entered) (h : s.run.execute = .ok run) :
      Step s { s with run := run, station := .executing false, calls := s.calls + 1 }
  /-- The session refuses to execute. -/
  | refuse {s : Stay} {e : Failure} (hs : s.station = .entered) (h : s.run.execute = .error e) :
      Step s { s with
        station := .returned (.error e)
        calls := s.calls + 1
        returned := some (.error e) }
  /-- The cancellation is passed on to the session. -/
  | forward {s : Stay} (hs : s.station = .executing false) (hc : s.activity.cancelled = true)
      (h : s.run.result? = none) :
      Step s { s with
        run := s.run.interrupt.2
        station := .executing true
        forwards := s.forwards + 1 }
  | finish {s : Stay} {forwarded : Bool} {result : Except Failure ExitCode}
      (hs : s.station = .executing forwarded) (h : s.run.result? = some result) :
      Step s { s with station := .returned result, returned := some result }
  | record {s : Stay} {result : Except Failure ExitCode} (hs : s.station = .returned result) :
      Step s { s with station := .recorded result, exitValue := some (valueOf result) }
  | report {s : Stay} {result : Except Failure ExitCode} (hs : s.station = .recorded result) :
      Step s { s with
        activity := s.activity.report (result.map fun _ => ())
        station := .reported result false }
  | leave {s : Stay} {result : Except Failure ExitCode} (hs : s.station = .reported result false) :
      Step s { s with activity := s.activity.close.2, station := .reported result true }
  /-- The task is dropped in the body, or the session dies. -/
  | die {s : Stay} (hs : s.station = .entered ∨ ∃ forwarded, s.station = .executing forwarded) :
      Step s { s with station := .died s.calls false }
  | bury {s : Stay} {calls : Nat} (hs : s.station = .died calls false) :
      Step s { s with activity := s.activity.close.2, station := .died calls true }

/-- A stay that some order of steps leads to from another. -/
def Leads : Stay → Stay → Prop :=
  Relation.ReflTransGen Step

/-- A stay that some order of steps leads to from one that has not begun. -/
def Reachable (worker : Worker) (shutdownWait : Nat) (run : Run) : Stay → Prop :=
  Leads (new worker shutdownWait run)

/-! ## The invariant -/

/-- What holds of a stay at any time. -/
structure Valid (s : Stay) : Prop where
  account : s.account = s.station.account
  watched : s.activity.watched = s.activity.stage
  initial : s.activity.stage = .initial → s.station = .absent
  done : s.activity.ending.isSome = true → s.activity.isDone = true
  forwards : s.forwards ≤ s.station.quota

theorem valid_new : Valid (new worker shutdownWait run) :=
  ⟨rfl, rfl, fun _ => rfl, nofun, Nat.le_refl _⟩

/-- A change of the activity that leaves its body and its ending alone. -/
structure Spares (a b : Activity) : Prop where
  entered : b.entered = a.entered
  ending : b.ending = a.ending
  watched : a.watched = a.stage → b.watched = b.stage
  initial : b.stage = .initial → a.stage = .initial
  done : a.isDone = true → b.isDone = true

theorem spares_interrupt (a : Activity) : Spares a a.interrupt.2 := by
  rcases interrupt_eq a with ⟨-, -, he⟩ | ⟨-, he⟩
  · rw [he]
    exact ⟨rfl, rfl, id, id, id⟩
  · rw [he]
    exact ⟨rfl, rfl, id, id, id⟩

theorem spares_close (a : Activity) : Spares a a.close.2 := by
  rcases close_eq a with ⟨-, he⟩ | ⟨-, he⟩
  · rw [he]
    exact ⟨rfl, rfl, id, id, id⟩
  · rw [he]
    exact ⟨rfl, rfl, fun _ => rfl, nofun, fun _ => rfl⟩

/-- The activity may change so at any station. -/
theorem Valid.spare {a : Activity} (h : Valid s) (ha : Spares s.activity a) :
    Valid { s with activity := a } where
  account := by
    rw [← h.account]
    simp only [Stay.account, ha.entered, ha.ending]
  watched := ha.watched h.watched
  initial hi := h.initial (ha.initial hi)
  done he := ha.done (h.done (by rwa [ha.ending] at he))
  forwards := h.forwards

/-- The task comes to another station, and the activity is left alone. -/
theorem Valid.goOn (h : Valid s) (hs : s.station ≠ .absent) (hactivity : s'.activity = s.activity)
    (haccount : s'.account = s'.station.account) (hquota : s'.forwards ≤ s'.station.quota) :
    Valid s' where
  account := haccount
  watched := by
    rw [hactivity]
    exact h.watched
  initial hi := absurd (h.initial (hactivity ▸ hi)) hs
  done he := by
    rw [hactivity] at he ⊢
    exact h.done he
  forwards := hquota

theorem Valid.enter {a : Activity} (h : Valid s) (hs : s.station = .scheduled)
    (ha : s.activity.enter = (.perform, a)) :
    Valid { s with activity := a, station := .entered } := by
  have haccount := h.account
  have hforwards := h.forwards
  rw [hs] at haccount hforwards
  rcases enter_eq s.activity with ⟨-, he⟩ | ⟨-, -, he⟩ | ⟨-, -, he⟩
  · cases he.symm.trans ha
  · cases he.symm.trans ha
  · obtain ⟨-, rfl⟩ := Prod.mk.inj (he.symm.trans ha)
    refine ⟨?_, h.watched, fun hi => ?_, h.done, hforwards⟩
    · exact congrArg (fun known : Account => { known with entered := true }) haccount
    · cases hs.symm.trans (h.initial hi)

theorem Valid.skip {a : Activity} (h : Valid s) (hs : s.station = .scheduled)
    (ha : s.activity.enter = (.skip, a)) :
    Valid { s with activity := a, station := .skipped a.ending.isSome } := by
  have haccount := h.account
  have hforwards := h.forwards
  rw [hs] at haccount hforwards
  rcases enter_eq s.activity with ⟨-, he⟩ | ⟨-, -, he⟩ | ⟨-, -, he⟩
  · obtain ⟨-, rfl⟩ := Prod.mk.inj (he.symm.trans ha)
    have hending : s.activity.ending = none := congrArg Account.ending haccount
    refine h.goOn (by simp [hs]) rfl ?_ hforwards
    rw [hending]
    exact haccount
  · obtain ⟨-, rfl⟩ := Prod.mk.inj (he.symm.trans ha)
    refine ⟨?_, rfl, nofun, fun _ => rfl, hforwards⟩
    exact congrArg (fun known : Account => { known with ending := some .interrupted }) haccount
  · cases he.symm.trans ha

/-- The task closes the activity on its way to another station. -/
theorem Valid.closes {station : Station} (h : Valid s) (hs : s.station ≠ .absent)
    (haccount : station.account = s.station.account) (hquota : station.quota = s.station.quota) :
    Valid { s with activity := s.activity.close.2, station := station } := by
  have hclosed := h.spare (spares_close s.activity)
  refine hclosed.goOn hs rfl (hclosed.account.trans haccount.symm) ?_
  rw [hquota]
  exact h.forwards

theorem Valid.die (h : Valid s)
    (hs : s.station = .entered ∨ ∃ forwarded, s.station = .executing forwarded) :
    Valid { s with station := .died s.calls false } := by
  have haccount := h.account
  have hknown : s.account = ⟨true, s.calls, none, none, none⟩ := by
    rcases hs with hst | ⟨forwarded, hst⟩
    · rw [hst] at haccount
      rw [show s.calls = 0 from congrArg Account.calls haccount]
      exact haccount
    · rw [hst] at haccount
      rw [show s.calls = 1 from congrArg Account.calls haccount]
      exact haccount
  have hbegun : s.station ≠ .absent := by
    rcases hs with hst | ⟨forwarded, hst⟩ <;> simp [hst]
  have hquota : s.station.quota ≤ 1 := by
    unfold Station.quota
    split <;> omega
  exact h.goOn hbegun rfl hknown (Nat.le_trans h.forwards hquota)

/-- **Every step keeps the invariant.** -/
theorem valid_of_step (h : Valid s) (hs : Step s s') : Valid s' := by
  have haccount := h.account
  have hforwards := h.forwards
  cases hs with
  | start ha =>
    obtain ⟨hstage, -, rfl⟩ := start_eq_ok_iff.mp ha
    rw [h.initial hstage] at haccount hforwards
    have hidle : s.activity.isDone = false := by simp [isDone, h.watched, hstage, Stage.rank]
    refine ⟨haccount, rfl, by simp, fun he => ?_, hforwards⟩
    cases hidle.symm.trans (h.done he)
  | interrupt => exact ⟨h.account, h.watched, h.initial, h.done, h.forwards⟩
  | cancel => exact h.spare (spares_interrupt _)
  | close => exact h.spare (spares_close _)
  | progress run => exact ⟨h.account, h.watched, h.initial, h.done, h.forwards⟩
  | enter hst ha => exact h.enter hst ha
  | skip hst ha => exact h.skip hst ha
  | drop hst =>
    rw [hst] at haccount hforwards
    exact h.goOn (by simp [hst]) rfl haccount hforwards
  | execute hst hx =>
    rw [hst] at haccount hforwards
    exact h.goOn (by simp [hst]) rfl
      (congrArg (fun known : Account => { known with calls := known.calls + 1 }) haccount) hforwards
  | @refuse e hst hx =>
    rw [hst] at haccount hforwards
    exact h.goOn (by simp [hst]) rfl
      (congrArg (fun known : Account =>
        { known with calls := known.calls + 1, returned := some (.error e) }) haccount)
      (Nat.le_succ_of_le hforwards)
  | forward hst hc hr =>
    rw [hst] at haccount hforwards
    exact h.goOn (by simp [hst]) rfl haccount (Nat.succ_le_succ hforwards)
  | @finish forwarded result hst hr =>
    rw [hst] at haccount hforwards
    refine h.goOn (by simp [hst]) rfl
      (congrArg (fun known : Account => { known with returned := some result }) haccount)
      (Nat.le_trans hforwards ?_)
    cases forwarded with
    | false => exact Nat.zero_le _
    | true => exact Nat.le_refl _
  | @record result hst =>
    rw [hst] at haccount hforwards
    exact h.goOn (by simp [hst]) rfl
      (congrArg (fun known : Account => { known with exitValue := some (valueOf result) }) haccount)
      hforwards
  | @report result hst =>
    rw [hst] at haccount hforwards
    refine ⟨?_, ?_, fun hi => absurd hi (report_stage_ne_initial _ _), fun _ => ?_, hforwards⟩
    · rw [report_eq]
      exact congrArg (fun known : Account =>
        { known with ending := some (.ofResult (result.map fun _ => ())) }) haccount
    · simp only [report_eq, h.watched]
    · simp only [isDone, report_eq, h.watched]
      split
      · simp
      · simp
        omega
  | leave hst => exact h.closes (by simp [hst]) (by rw [hst]; rfl) (by rw [hst]; rfl)
  | die hst => exact h.die hst
  | bury hst => exact h.closes (by simp [hst]) (by rw [hst]; rfl) (by rw [hst]; rfl)

theorem valid_of_leads (h : Valid s) (hl : Leads s s') : Valid s' := by
  induction hl with
  | refl => exact h
  | tail _ hs ih => exact valid_of_step ih hs

theorem valid_of_reachable (h : Reachable worker shutdownWait run s) : Valid s :=
  valid_of_leads valid_new h

/-! ## What stays recorded -/

theorem exitValue_of_step {value : ExitCode} (h : Valid s) (hs : Step s s')
    (hvalue : s.exitValue = some value) : s'.exitValue = some value := by
  cases hs with
  | record hst =>
    have hnone : s.exitValue = none := by
      have haccount := h.account
      rw [hst] at haccount
      exact congrArg Account.exitValue haccount
    cases hnone.symm.trans hvalue
  | _ => exact hvalue

/-- **A recorded value stays.** -/
theorem exitValue_of_leads {value : ExitCode} (h : Valid s) (hl : Leads s s')
    (hvalue : s.exitValue = some value) : s'.exitValue = some value := by
  induction hl with
  | refl => exact hvalue
  | tail hl hs ih => exact exitValue_of_step (valid_of_leads h hl) hs ih

/-- A value is recorded only of a session that has returned. -/
theorem Valid.returned_of_exitValue {value : ExitCode} (h : Valid s)
    (hvalue : s.exitValue = some value) :
    ∃ result, s.returned = some result ∧ valueOf result = value := by
  have haccount := h.account
  have hknown : s.station.account.exitValue = some value := by
    rw [← haccount]
    exact hvalue
  cases hst : s.station with
  | recorded result | reported result =>
    rw [hst] at haccount hknown
    exact ⟨result, congrArg Account.returned haccount, Option.some.inj hknown⟩
  | _ =>
    rw [hst] at hknown
    cases hknown

/-- An outcome is reported with the value that goes with it, but for a body that was skipped. -/
theorem reported_of_ending {ending : Ending} (h : Valid s) (he : s.activity.ending = some ending) :
    (ending = .interrupted ∧ s.activity.entered = false ∧ s.exitValue = none ∧ s.calls = 0) ∨
    ∃ result, s.activity.entered = true ∧ s.returned = some result ∧
      s.exitValue = some (valueOf result) ∧ ending = .ofResult (result.map fun _ => ()) := by
  have haccount := h.account
  have hending : s.station.account.ending = some ending := by
    rw [← haccount]
    exact he
  cases hst : s.station with
  | reported result closed =>
    rw [hst] at haccount hending
    exact .inr ⟨result, congrArg Account.entered haccount, congrArg Account.returned haccount,
      congrArg Account.exitValue haccount, (Option.some.inj hending).symm⟩
  | skipped told =>
    rw [hst] at haccount hending
    have hinterrupted : ending = .interrupted := by
      cases told with
      | true => exact (Option.some.inj hending).symm
      | false => cases hending
    exact .inl ⟨hinterrupted, congrArg Account.entered haccount,
      congrArg Account.exitValue haccount, congrArg Account.calls haccount⟩
  | _ =>
    rw [hst] at hending
    cases hending

theorem report_of_some {value : ExitCode} (h : s.exitValue = some value) (outcome : Outcome) :
    s.hosted.report outcome = value := by
  simp only [HostedSession.report, hosted, h, Option.getD_some]

theorem completes_of_valid {ending : Ending} (h : Valid s)
    (he : s.activity.ending = some ending) : s.activity.outcome? = some (.reported ending) := by
  have hdone := h.done (by rw [he]; rfl)
  rw [outcome?, if_pos hdone, answer, he]
  rfl

/-- **No value is recorded** only if no outcome of the session is seen either. -/
theorem report_of_none {outcome : Outcome} (h : Valid s)
    (ho : s.activity.outcome? = some outcome) (hl : Leads s s') (hnone : s'.exitValue = none) :
    s'.hosted.report outcome = 130 ∧
      (outcome = .reported .interrupted ∨ outcome = .abandoned) := by
  have hlost : ∀ value, s.exitValue ≠ some value := by
    intro value hvalue
    cases hnone.symm.trans (exitValue_of_leads h hl hvalue)
  have houtcome : outcome = .reported .interrupted ∨ outcome = .abandoned := by
    unfold outcome? answer at ho
    split at ho
    · cases he : s.activity.ending with
      | none =>
        rw [he] at ho
        exact .inr (Option.some.inj ho).symm
      | some ending =>
        rw [he] at ho
        rcases reported_of_ending h he with ⟨rfl, -⟩ | ⟨result, -, -, hvalue, -⟩
        · exact .inl (Option.some.inj ho).symm
        · exact absurd hvalue (hlost _)
    · cases ho
  refine ⟨?_, houtcome⟩
  simp only [HostedSession.report, hosted, hnone, Option.getD_none]
  rcases houtcome with rfl | rfl <;> rfl

end Stay

end HostedSession

end CommandConsole
