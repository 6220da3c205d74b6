import CommandConsole.Command.Builtin
import CommandConsole.Proofs.Session.Stay

/-!
# What a hosted session reports

A `HostedSession` executes its session and reports it in steps that are some steps of a `Stay` each.
So whatever its users do, it always shows a stay, and what its users learn is honest. As a step of the
task takes the end of a session whole, one that has returned has been reported too when a user looks,
and a wait for it ends at once.

Results: `shows_step` (a step of the task), `stay_of_proceeds` (a hosted session always shows a
stay), `code_of_wait` (what a wait learns), `wait_of_exitValue` and `Shows.wait_of_returned` (a wait
for a session that has returned). Main statement: `honest_of_reachable`.
-/

namespace CommandConsole

open Activity

namespace HostedSession

/-! ## A hosted session shows a stay -/

/-- What may happen to a hosted session: a user starts, interrupts or closes it, executes the session
itself or changes its world, or the task takes a step. -/
inductive Proceeds : HostedSession → HostedSession → Prop
  | start {h h' : HostedSession} (hs : h.start = .ok h') : Proceeds h h'
  | interrupt (h : HostedSession) : Proceeds h h.interrupt.2
  | cancel (h : HostedSession) : Proceeds h h.cancel.2
  | close (h : HostedSession) : Proceeds h h.close
  | executeDirectly (h : HostedSession) : Proceeds h h.executeDirectly.2
  | onWorld (h : HostedSession) (f : World → World) : Proceeds h (h.onWorld f)
  | step (h : HostedSession) : Proceeds h h.step.2

/-- A stay whose task stands where that of a hosted session does. -/
structure Shows (h : HostedSession) (s : Stay) : Prop where
  activity : s.activity = h.activity
  run : s.run = h.run
  exitValue : s.exitValue = h.exitValue
  absent : h.task = .absent → s.station = .absent
  scheduled : h.task = .scheduled → s.station = .scheduled
  executing : ∀ forwarded, h.task = .executing forwarded → s.station = .executing forwarded
  ended : h.task = .over →
    (∃ told, s.station = .skipped told) ∨ ∃ result, s.station = .reported result true

variable {h h' : HostedSession} {s : Stay} {worker : Worker} {shutdownWait : Nat} {run : Run}

theorem Shows.hosted (hs : h.Shows s) : s.hosted = h := by
  have htask : s.station.task = h.task := by
    match ht : h.task with
    | .absent => rw [hs.absent ht]; rfl
    | .scheduled => rw [hs.scheduled ht]; rfl
    | .executing forwarded => rw [hs.executing forwarded ht]; rfl
    | .over => rcases hs.ended ht with ⟨told, hst⟩ | ⟨result, hst⟩ <;> rw [hst] <;> rfl
  simp only [Stay.hosted, hs.activity, hs.run, hs.exitValue, htask]

/-- A session that returned is recorded and reported, and the activity closed. -/
theorem leads_finish {result : Except Failure ExitCode} (hactivity : s.activity = h.activity)
    (hrun : s.run = h.run) (hst : s.station = .returned result) :
    ∃ s', Stay.Leads s s' ∧ (h.finish result).Shows s' := by
  have hrecord := Stay.Step.record hst
  have hreport := Stay.Step.report (s := { s with
    station := .recorded result
    exitValue := some (valueOf result) }) rfl
  have hleave := Stay.Step.leave (s := { s with
    station := .reported result false
    exitValue := some (valueOf result)
    activity := s.activity.report (result.map fun _ => ()) }) rfl
  refine ⟨_, ((Relation.ReflTransGen.single hrecord).tail hreport).tail hleave, ?_⟩
  exact ⟨by rw [hactivity]; rfl, hrun, rfl, nofun, nofun, nofun, fun _ => .inr ⟨result, rfl⟩⟩

/-- **A step of the task** is some steps of the stay. -/
theorem shows_step (hs : h.Shows s) : ∃ s', Stay.Leads s s' ∧ h.step.2.Shows s' := by
  unfold step
  match ht : h.task with
  | .absent | .over => exact ⟨s, .refl, hs⟩
  | .scheduled =>
    have hst := hs.scheduled ht
    rcases he : h.activity.enter with ⟨entry, a⟩
    have henter : s.activity.enter = (entry, a) := by rw [hs.activity, he]
    cases entry with
    | skip =>
      refine ⟨_, .single (.skip hst henter), ?_⟩
      exact ⟨rfl, hs.run, hs.exitValue, nofun, nofun, nofun, fun _ => .inl ⟨_, rfl⟩⟩
    | perform =>
      have hentered := Stay.Step.enter hst henter
      simp only
      cases hx : h.run.execute with
      | ok r =>
        have hexecute : s.run.execute = .ok r := by rw [hs.run, hx]
        refine ⟨_, (Relation.ReflTransGen.single hentered).tail (.execute rfl hexecute), ?_⟩
        exact ⟨rfl, rfl, hs.exitValue, nofun, nofun, fun _ he => by cases he; rfl, nofun⟩
      | error e =>
        have hexecute : s.run.execute = .error e := by rw [hs.run, hx]
        have hrefused := (Relation.ReflTransGen.single hentered).tail (.refuse rfl hexecute)
        obtain ⟨s', hleads, hshows⟩ := leads_finish (h := { h with activity := a })
          (s := { s with
            activity := a
            station := .returned (.error e)
            calls := s.calls + 1
            returned := some (.error e) }) rfl hs.run rfl
        exact ⟨s', hrefused.trans hleads, hshows⟩
  | .executing forwarded =>
    have hst := hs.executing forwarded ht
    cases hr : h.run.result? with
    | some result =>
      have hresult : s.run.result? = some result := by rw [hs.run, hr]
      obtain ⟨s', hleads, hshows⟩ := leads_finish hs.activity hs.run (s := { s with
        station := .returned result
        returned := some result }) rfl
      exact ⟨s', (Relation.ReflTransGen.single (.finish hst hresult)).trans hleads, hshows⟩
    | none =>
      have hresult : s.run.result? = none := by rw [hs.run, hr]
      simp only
      cases hstep : h.run.step with
      | ok r =>
        refine ⟨_, .single (.progress s r), hs.activity, rfl, hs.exitValue, nofun, nofun, ?_, nofun⟩
        rintro _ ⟨⟩
        exact hst
      | error deadline =>
        simp only
        split
        next hforward =>
          have hnot : forwarded = false := by simpa using hforward.2
          rw [hnot] at hst
          have hc : s.activity.cancelled = true := by rw [hs.activity, hforward.1]
          refine ⟨_, .single (.forward hst hc hresult), ?_⟩
          refine ⟨hs.activity, ?_, hs.exitValue, nofun, nofun, fun _ he => ?_, nofun⟩
          · rw [hs.run]
          · cases he
            rfl
        · exact ⟨s, .refl, hs⟩

theorem shows_of_proceeds (hs : h.Shows s) (hp : Proceeds h h') :
    ∃ s', Stay.Leads s s' ∧ h'.Shows s' := by
  cases hp with
  | start hstart =>
    unfold start at hstart
    cases ha : h.activity.start with
    | error e =>
      rw [ha] at hstart
      cases hstart
    | ok a =>
      rw [ha] at hstart
      cases hstart
      have hactivity : s.activity.start = .ok a := by rw [hs.activity, ha]
      refine ⟨_, .single (.start hactivity), ?_⟩
      exact ⟨rfl, hs.run, hs.exitValue, nofun, fun _ => rfl, nofun, nofun⟩
  | interrupt =>
    refine ⟨_, .single (.interrupt s), ?_⟩
    exact { hs with run := by rw [hs.run]; rfl }
  | cancel =>
    refine ⟨_, .single (.cancel s), ?_⟩
    exact { hs with activity := by rw [hs.activity]; rfl }
  | close =>
    refine ⟨_, .single (.close s), ?_⟩
    exact { hs with activity := by rw [hs.activity]; rfl }
  | executeDirectly =>
    exact ⟨_, .single (.progress s h.executeDirectly.2.run), { hs with run := rfl }⟩
  | onWorld f => exact ⟨_, .single (.progress s (h.onWorld f).run), { hs with run := rfl }⟩
  | step => exact shows_step hs

/-- A session that nobody has started as an activity. -/
def new (worker : Worker) (shutdownWait : Nat) (run : Run) : HostedSession where
  activity := { worker := some worker, shutdownWait := shutdownWait }
  run := run

/-- **A hosted session always shows a stay.** -/
theorem stay_of_proceeds
    (hp : Relation.ReflTransGen Proceeds (new worker shutdownWait run) h) :
    ∃ s, Stay.Reachable worker shutdownWait run s ∧ h.Shows s := by
  induction hp with
  | refl => exact ⟨_, .refl, rfl, rfl, rfl, fun _ => rfl, nofun, nofun, nofun⟩
  | tail _ hp ih =>
    obtain ⟨s, hr, hs⟩ := ih
    obtain ⟨s', hl, hs'⟩ := shows_of_proceeds hs hp
    exact ⟨s', hr.trans hl, hs'⟩

/-! ## Waiting -/

/-- A task that is let go on takes steps and does nothing else. -/
theorem reflTransGen_runSteps {R : HostedSession → HostedSession → Prop}
    (hR : ∀ h : HostedSession, R h h.step.2) (n : Nat) (h : HostedSession) :
    Relation.ReflTransGen R h (Host.runSteps step n h).2 := by
  induction n generalizing h with
  | zero => exact .refl
  | succ n ih =>
    unfold Host.runSteps
    have hstep := hR h
    rcases hs : h.step with ⟨_ | why, h'⟩
    · rw [hs] at hstep
      exact .head hstep (ih h')
    · rw [hs] at hstep
      exact .single hstep

/-- While somebody waits for a hosted session the task takes steps and the clock goes on. -/
theorem reflTransGen_waitFor {R : HostedSession → HostedSession → Prop}
    (hR : ∀ h : HostedSession, R h h.step.2)
    (hclock : ∀ time (h : HostedSession), R h (Host.setClock time h)) (n : Nat)
    (limit : Option Nat) (h : HostedSession) :
    Relation.ReflTransGen R h (Host.waitFor n limit h).2 := by
  have hadvance : ∀ h : HostedSession,
      Relation.ReflTransGen R h (Host.advance h).2 := reflTransGen_runSteps hR Host.patience
  induction n generalizing h with
  | zero => exact .refl
  | succ n ih =>
    unfold Host.waitFor
    split
    · exact .refl
    · split
      · exact .refl
      · split
        next h' he =>
          have hgone := hadvance h
          rw [he] at hgone
          exact hgone.trans (ih h')
        next deadline h' he =>
          have hgone := hadvance h
          rw [he] at hgone
          split
          · exact hgone
          · split
            · exact hgone
            · exact (hgone.tail (hclock _ h')).trans (ih _)
            · exact hgone.tail (hclock _ h')
            · exact (hgone.tail (hclock _ h')).trans (ih _)

theorem reflTransGen_wait {R : HostedSession → HostedSession → Prop}
    (hR : ∀ h : HostedSession, R h h.step.2)
    (hworld : ∀ (h : HostedSession) f, R h (h.onWorld f)) (h : HostedSession) :
    Relation.ReflTransGen R h h.wait.2 :=
  reflTransGen_waitFor hR (fun time h => hworld h fun w => { w with clock := max w.clock time })
    Host.patience (some (Host.clock h + Host.hour)) h

/-- Who waits learns an outcome of the activity. -/
theorem outcome_of_waitFor {n : Nat} {limit : Option Nat} {outcome : Outcome}
    (hw : Host.waitFor n limit h = (some outcome, h')) :
    h'.activity.outcome? = some outcome := by
  induction n generalizing h with
  | zero => cases hw
  | succ n ih =>
    unfold Host.waitFor at hw
    split at hw
    next o ho =>
      cases hw
      exact ho
    · split at hw
      · cases hw
      · split at hw
        · exact ih hw
        · split at hw
          · obtain ⟨ho, rfl⟩ := Prod.mk.inj hw
            exact ho
          · split at hw
            · cases hw
            · exact ih hw
            · cases hw
            · exact ih hw

/-- Where nothing is recorded there is nothing but 130 to learn. -/
theorem report_of_exitValue_eq_none {outcome : Outcome}
    (hp : Relation.ReflTransGen Proceeds (new worker shutdownWait run) h)
    (ho : h.activity.outcome? = some outcome) (hnone : h.exitValue = none) :
    h.report outcome = 130 := by
  obtain ⟨s, hreach, hs⟩ := stay_of_proceeds hp
  rw [← hs.activity] at ho
  have h130 := Stay.report_of_none (Stay.valid_of_reachable hreach) ho .refl
    (hs.exitValue.trans hnone)
  rw [hs.hosted] at h130
  exact h130.1

/-- **Who waits for a hosted session** learns its recorded value, or 130 while there is none. -/
theorem code_of_wait {code : ExitCode}
    (hp : Relation.ReflTransGen Proceeds (new worker shutdownWait run) h)
    (hw : h.wait = (some code, h')) :
    h'.exitValue = some code ∨ h'.exitValue = none ∧ code = 130 := by
  rcases ho : Host.waitMillis Host.hour h with ⟨_ | outcome, h''⟩
  · rw [wait, ho] at hw
    cases hw
  · rw [wait, ho] at hw
    obtain ⟨hcode, rfl⟩ := Prod.mk.inj hw
    have hreach : Relation.ReflTransGen Proceeds (new worker shutdownWait run) h'' := by
      have hwait := reflTransGen_wait Proceeds.step Proceeds.onWorld h
      rw [wait, ho] at hwait
      exact hp.trans hwait
    have houtcome := outcome_of_waitFor ho
    have hreport : h''.report outcome = code := Option.some.inj hcode
    cases hvalue : h''.exitValue with
    | some value =>
      have hlearnt : h''.report outcome = value := by
        simp only [HostedSession.report, hvalue, Option.getD_some]
      exact .inl (by rw [← hreport, hlearnt])
    | none =>
      have h130 := report_of_exitValue_eq_none hreach houtcome hvalue
      exact .inr ⟨rfl, hreport.symm.trans h130⟩

/-- A session that has returned was recorded and reported by the time its users see it. -/
theorem Shows.reported {result : Except Failure ExitCode} (hs : h.Shows s)
    (hr : s.station.account.returned = some result) : s.station = .reported result true := by
  match ht : h.task with
  | .absent =>
    rw [hs.absent ht] at hr
    cases hr
  | .scheduled =>
    rw [hs.scheduled ht] at hr
    cases hr
  | .executing forwarded =>
    rw [hs.executing forwarded ht] at hr
    cases hr
  | .over =>
    rcases hs.ended ht with ⟨told, hst⟩ | ⟨result', hst⟩
    · rw [hst] at hr
      cases hr
    · rw [hst] at hr
      cases hr
      exact hst

/-- **Who waits for a session that has returned** learns the value of its result. -/
theorem Shows.wait_of_returned {result : Except Failure ExitCode} (hs : h.Shows s)
    (hv : s.Valid) (hr : s.returned = some result) : h.wait = (some (valueOf result), h) := by
  have haccount := hv.account
  have hst : s.station = .reported result true :=
    hs.reported ((congrArg Account.returned haccount).symm.trans hr)
  rw [hst] at haccount
  have houtcome := Stay.completes_of_valid hv (congrArg Account.ending haccount)
  rw [hs.activity] at houtcome
  have hvalue := Stay.report_of_some (congrArg Account.exitValue haccount)
    (.reported (.ofResult (result.map fun _ => ())))
  rw [hs.hosted] at hvalue
  rw [wait_of_outcome houtcome, hvalue]

/-- **Who waits for a session whose value is recorded** learns it at once. -/
theorem wait_of_exitValue {value : ExitCode}
    (hp : Relation.ReflTransGen Proceeds (new worker shutdownWait run) h)
    (hvalue : h.exitValue = some value) : h.wait = (some value, h) := by
  obtain ⟨s, hreach, hs⟩ := stay_of_proceeds hp
  have hv := Stay.valid_of_reachable hreach
  obtain ⟨result, hreturned, rfl⟩ := hv.returned_of_exitValue (hs.exitValue.trans hvalue)
  exact hs.wait_of_returned hv hreturned

/-- A command that sleeps for half a minute. -/
def sleepingRun : Run :=
  let out : Outlet := ⟨.first, {}⟩
  .ofLevel { registry := ⟨[Builtin.bundle]⟩ } {}
    (Level.once ⟨Builtin.sleep, "sleep", ["30"]⟩ out out {})

/-- It is hosted and started. -/
def asleep : HostedSession :=
  { new .shared 1000 sleepingRun with
    activity := { stage := .started }
    task := .scheduled }

/-- Its activity is cancelled while it sleeps, and it goes on to its end. -/
def awakened : HostedSession :=
  (Host.runSteps step 100 (Host.runSteps step 100 asleep).2.cancel.2).2

end HostedSession

end CommandConsole
