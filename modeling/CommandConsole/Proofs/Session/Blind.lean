import CommandConsole.Proofs.Session.Bare
import CommandConsole.Proofs.Session.Hearing
import CommandConsole.Proofs.Session.History

/-!
# What does not depend on carriage returns

`Run.bare` is a run stripped of what it has written, with sessions and settings as they are without
carriage returns. Something done with runs under a shell is `Blind` if it comes to the same for a
run and for the bare one: the same is seen of it, the runs after it are the same when stripped, and
it is known from the bare run what is said on the way. Blind things can be done one after another
(`Blind.bind`), so runs under two shells that differ in their carriage returns keep step with each
other, whatever is done with them.

Results: `blind_pace` (a step), `blind_interruptAt`, `blind_callExecute`, `blind_settle`,
`blind_executeToEnd` (running a session to its end).
-/

namespace CommandConsole

open Session

/-! ## What sessions say and log -/

namespace Demand

variable {console : Console} {w : World} {l : Level}

theorem utterances_behind (l : Level) (d : Demand) :
    (d.behind l).utterances w = d.utterances w := by
  cases d <;> rfl

theorem utterances_planDemand (console : Console) (returns : Bool) (l : Level) (plan : Plan Next) :
    ((l.under returns).planDemand (console.withReturns returns) plan).utterances w =
      (l.planDemand console plan).utterances w := by
  cases plan with
  | done x => cases x <;> rfl
  | ask r next =>
    cases r with
    | prompt | event =>
      obtain ⟨⟨executed, running, cancelled, linked⟩, role, out, err, env, phase⟩ := l
      cases cancelled <;> rfl
    | _ => rfl

theorem utterances_scriptDemand (console : Console) (returns : Bool) (l : Level)
    (next : Except Failure ExitCode → Plan Next)
    (script : Command.Script (Except Failure ExitCode)) :
    ((l.under returns).scriptDemand (console.withReturns returns) next script).utterances w =
      (l.scriptDemand console next script).utterances w := by
  cases script with
  | done result => rfl
  | ask r more =>
    cases r with
    | wait deadline =>
      obtain ⟨⟨executed, running, cancelled, linked⟩, role, out, err, env, phase⟩ := l
      cases cancelled <;> rfl
    | interrupt =>
      simp only [Level.scriptDemand, Run.state_under, Run.shellArgs?_under]
      split <;> rfl
    | nestOnce words | invoke words =>
      simp only [Level.scriptDemand, Run.resolve_withReturns]
      cases console.resolve (.words words) <;> rfl
    | _ => rfl

/-- What is said does not depend on how it is written. -/
theorem utterances_under (console : Console) (returns : Bool) (w : World) (levels : List Level) :
    (demandOf (console.withReturns returns) (levels.map (Level.under returns))).utterances w =
      (demandOf console levels).utterances w := by
  induction levels with
  | nil => rfl
  | cons l rest ih =>
    cases rest with
    | nil =>
      simp only [List.map_cons, List.map_nil, demandOf, Level.demand, Run.phase_under]
      cases l.phase with
      | own plan => exact utterances_planDemand console returns l plan
      | command script next => exact utterances_scriptDemand console returns l next script
      | _ => rfl
    | cons m rest =>
      simp only [List.map_cons, demandOf, Run.phase_under, Run.execute_under] at ih ⊢
      cases m.phase with
      | idle => cases m.execute console <;> rfl
      | own | command | nested => simpa only [utterances_behind] using ih
      | _ => rfl

end Demand

namespace Level

variable {w : World}

theorem answer?_under (console : Console) (returns : Bool) (w : World) (l : Level) (r : Request) :
    (l.under returns).answer? (console.withReturns returns) w r =
      (l.under false).answer? (console.withReturns false) w.bare r := by
  cases r with
  | write text => exact congrArg some (w.agrees_write returns text).answer
  | flush => exact congrArg some (w.agrees_flush returns).answer
  | prompt text =>
    simp only [answer?, (w.agrees_startRead returns text).answer]
    rfl
  | event prompt =>
    simp only [answer?, (w.agrees_pollRead returns prompt).answer]
    rfl
  | _ => rfl

theorem grant?_under (console : Console) (returns : Bool) (w : World) (l : Level)
    (r : Command.Request) :
    (l.under returns).grant? (console.withReturns returns) w r =
      (l.under false).grant? (console.withReturns false) w.bare r := by
  cases r with
  | write channel text =>
    cases channel <;> exact congrArg some (w.agrees_write returns text).answer
  | flush channel => cases channel <;> exact congrArg some (w.agrees_flush returns).answer
  | _ => rfl

theorem logged_under (console : Console) (returns : Bool) (w : World) (l : Level) :
    (l.under returns).logged (console.withReturns returns) w =
      (l.under false).logged (console.withReturns false) w.bare := by
  unfold logged
  simp only [Run.phase_under, answer?_under console returns, grant?_under console returns]

end Level

namespace Run

variable {α β : Type} {returns : Bool} {r : Run}

/-- The run without what it has written, as it is without carriage returns. -/
def bare (r : Run) : Run :=
  ⟨r.console.withReturns false, r.world.bare, r.levels.map (Level.under false)⟩

/-- All sessions of the run are under a shell, which has carriage returns or not. -/
structure Fits (returns : Bool) (r : Run) : Prop where
  console : r.console.withReturns returns = r.console
  levels : r.levels.map (Level.under returns) = r.levels

/-- Doing something with a run under a shell comes to the same as with the bare run, and by that one
it is known what is said on the way. -/
structure Blind (f : Run → α × Run) : Prop where
  seen : ∀ returns r, Fits returns r → (f r).1 = (f r.bare).1
  bare : ∀ returns r, Fits returns r → (f r).2.bare = (f r.bare).2.bare
  fits : ∀ returns r, Fits returns r → (f r).2.Fits returns
  told : ∃ said : Run → List Utterance, ∀ returns r, Fits returns r →
    r.world.Told returns (said r.bare) (f r).2.world

@[simp] theorem bare_bare (r : Run) : r.bare.bare = r.bare := by
  simp only [bare, World.bare_bare, map_under_under]
  rfl

theorem fits_bare (r : Run) : r.bare.Fits false :=
  ⟨rfl, map_under_under false false r.levels⟩

/-! ## Blindness -/

theorem blind_pure (a : α) : Blind fun r => (a, r) where
  seen _ _ _ := rfl
  bare _ r _ := (bare_bare r).symm
  fits _ _ h := h
  told := ⟨fun _ => [], fun returns r _ => World.told_nil returns r.world⟩

/-- One thing after another, which may go by what the first has come to. -/
theorem Blind.bind {f : Run → α × Run} {g : α → Run → β × Run} (hf : Blind f)
    (hg : ∀ a, Blind (g a)) : Blind fun r => g (f r).1 (f r).2 where
  seen returns r h := calc
    (g (f r).1 (f r).2).1 = (g (f r).1 (f r).2.bare).1 := (hg _).seen _ _ (hf.fits _ _ h)
    _ = (g (f r.bare).1 (f r.bare).2.bare).1 := by rw [hf.seen _ _ h, hf.bare _ _ h]
    _ = (g (f r.bare).1 (f r.bare).2).1 := ((hg _).seen _ _ (hf.fits _ _ (fits_bare r))).symm
  bare returns r h := calc
    (g (f r).1 (f r).2).2.bare = (g (f r).1 (f r).2.bare).2.bare :=
      (hg _).bare _ _ (hf.fits _ _ h)
    _ = (g (f r.bare).1 (f r.bare).2.bare).2.bare := by rw [hf.seen _ _ h, hf.bare _ _ h]
    _ = (g (f r.bare).1 (f r.bare).2).2.bare := ((hg _).bare _ _ (hf.fits _ _ (fits_bare r))).symm
  fits returns r h := (hg _).fits _ _ (hf.fits _ _ h)
  told := by
    obtain ⟨said, hsaid⟩ := hf.told
    choose more hmore using fun a => (hg a).told
    refine ⟨fun r => said r ++ more (f r).1 (f r).2.bare, fun returns r h => ?_⟩
    simp only [← hf.seen _ _ h, ← hf.bare _ _ h]
    exact (hsaid _ _ h).trans (hmore _ _ _ (hf.fits _ _ h))

theorem Blind.map {f : Run → α × Run} (hf : Blind f) (k : α → β) :
    Blind fun r => (k (f r).1, (f r).2) :=
  hf.bind fun a => blind_pure (k a)

/-- Looking at something of a run. -/
theorem blind_look {g : Run → α} (h : ∀ returns r, Fits returns r → g r = g r.bare) :
    Blind fun r => (g r, r) :=
  { blind_pure () with seen := h }

/-- What only changes the sessions, which may go by the settings. -/
theorem blind_of_levels {F : Console → List Level → α × List Level}
    (hF : ∀ console returns levels,
      F (console.withReturns returns) (levels.map (Level.under returns)) =
        ((F console levels).1, (F console levels).2.map (Level.under returns))) :
    Blind fun r => ((F r.console r.levels).1, { r with levels := (F r.console r.levels).2 }) where
  seen _ r _ := by simp only [bare, hF]
  bare _ r _ := by
    simp only [bare, hF, World.bare_bare, map_under_under]
    rfl
  fits returns r h := by
    have hlevels := hF r.console returns r.levels
    rw [h.console, h.levels] at hlevels
    exact ⟨h.console, (congrArg Prod.snd hlevels).symm⟩
  told := ⟨fun _ => [], fun returns r _ => World.told_nil returns r.world⟩

/-- What only changes the world, and writes nothing. -/
theorem blind_of_world {f : World → World} (hbare : ∀ w, f w.bare = (f w).bare)
    (htold : ∀ returns w, World.Told returns w [] (f w)) :
    Blind fun r => ((), { r with world := f r.world }) where
  seen _ _ _ := rfl
  bare _ r _ := by
    simp only [bare, hbare, World.bare_bare, map_under_under]
    rfl
  fits _ _ h := ⟨h.console, h.levels⟩
  told := ⟨fun _ => [], fun returns r _ => htold returns r.world⟩

/-! ## Steps -/

theorem interruptLevels_under (returns : Bool) (levels : List Level) :
    interruptLevels (levels.map (Level.under returns)) =
      ((interruptLevels levels).1, (interruptLevels levels).2.map (Level.under returns)) := by
  have hstates : (levels.map (Level.under returns)).map (·.state) = levels.map (·.state) := by
    rw [List.map_map]
    rfl
  simp only [interruptLevels, hstates, List.zipWith_map_left, List.map_zipWith]
  rfl

theorem blind_interruptAt (i : Nat) : Blind (interruptAt · i) :=
  blind_of_levels (F := fun _ levels => ((interruptLevels (levels.drop i)).1,
      levels.take i ++ (interruptLevels (levels.drop i)).2)) fun _ returns levels => by
    simp only [← List.map_drop, interruptLevels_under, List.map_append, List.map_take]

/-- What is said in the next step. -/
def said (r : Run) : List Utterance :=
  (demandOf r.console r.levels).utterances r.world

theorem said_bare (r : Run) : r.bare.said = r.said := by
  simp only [said, bare, Demand.utterances_under, Demand.utterances_bare]

/-- The run after what a step has come to, and whether its outermost session is interrupted now. -/
def after (r : Run) : Progress → Except (Option Nat) Bool × Run
  | .moved levels w interrupts => (.ok interrupts, { r with levels := levels, world := w })
  | .blocked deadline => (.error deadline, r)

/-- Takes the step of its innermost session, if there is one. -/
def move (r : Run) : Except (Option Nat) Bool × Run :=
  r.after (stepLevels r.console r.world r.levels)

/-- Interrupts the outermost session if that is to be. -/
def heed : Except (Option Nat) Bool → Run → Except (Option Nat) Unit × Run
  | .ok true, r => (.ok (), r.interrupt.2)
  | .ok false, r => (.ok (), r)
  | .error deadline, r => (.error deadline, r)

/-- Takes a step, if there is one; or else until when the run must wait. -/
def pace (r : Run) : Except (Option Nat) Unit × Run :=
  match r.step with
  | .ok r' => (.ok (), r')
  | .error deadline => (.error deadline, r)

theorem pace_eq (r : Run) : r.pace = heed r.move.1 r.move.2 := by
  rw [pace, step, move]
  cases stepLevels r.console r.world r.levels with
  | blocked deadline => rfl
  | moved levels w interrupts => cases interrupts <;> rfl

theorem move_of_fits (h : r.Fits returns) :
    r.move = r.after ((demandOf r.console r.levels).carryOut returns r.world) := by
  have hstep := stepLevels_under r.console returns r.world r.levels
  rw [h.console, h.levels] at hstep
  rw [move, hstep]

theorem move_bare (r : Run) :
    r.bare.move = r.bare.after ((demandOf r.console r.levels).carryOut false r.world.bare) := by
  rw [move, bare, stepLevels_under]

theorem after_bare (r : Run) (p q : Progress) (h : p.bare = q.bare) :
    (r.after p).1 = (r.bare.after q).1 ∧ (r.after p).2.bare = (r.bare.after q).2.bare := by
  cases p with
  | blocked deadline =>
    cases q with
    | moved => cases h
    | blocked =>
      cases h
      exact ⟨rfl, (bare_bare r).symm⟩
  | moved levels w interrupts =>
    cases q with
    | blocked => cases h
    | moved levels' w' interrupts' =>
      simp only [Progress.bare, Progress.moved.injEq] at h
      obtain ⟨hlevels, hw, rfl⟩ := h
      simp only [after, bare, hlevels, hw, true_and]
      rfl

/-- What a run says when it takes a step, if there is one. -/
def pronounced (r : Run) : List Utterance :=
  match r.move.1 with
  | .ok _ => r.said
  | .error _ => []

theorem told_move (h : r.Fits returns) : r.world.Told returns r.pronounced r.move.2.world := by
  rw [pronounced, move_of_fits h]
  have hsays := says_carryOut returns r.world (demandOf r.console r.levels)
  cases hp : (demandOf r.console r.levels).carryOut returns r.world with
  | blocked deadline => exact World.told_nil returns r.world
  | moved levels w interrupts =>
    rw [hp] at hsays
    cases hsays with
    | moved _ hw => exact hw

theorem blind_move : Blind move := by
  have hboth (returns : Bool) (r : Run) (h : Fits returns r) :
      r.move.1 = r.bare.move.1 ∧ r.move.2.bare = r.bare.move.2.bare := by
    rw [move_of_fits h, move_bare]
    exact after_bare r _ _ (carryOut_bare returns r.world _)
  refine ⟨fun b r h => (hboth b r h).1, fun b r h => (hboth b r h).2, ?_, pronounced, ?_⟩
  · intro returns r h
    have hsays := says_carryOut returns r.world (demandOf r.console r.levels)
    rw [move_of_fits h]
    generalize (demandOf r.console r.levels).carryOut returns r.world = p at hsays ⊢
    cases hsays with
    | moved hlevels _ => exact ⟨h.console, hlevels⟩
    | blocked => exact h
  · intro returns r h
    rw [pronounced, ← (hboth returns r h).1, said_bare]
    exact told_move h

/-- **A step** of a run is blind. -/
theorem blind_pace : Blind pace := by
  rw [funext pace_eq]
  refine blind_move.bind fun moved => ?_
  rcases moved with deadline | _ | _
  · exact blind_pure _
  · exact blind_pure _
  · have hinterrupt := (blind_interruptAt 0).map fun _ => (Except.ok () : Except (Option Nat) Unit)
    simp only [interruptAt_zero] at hinterrupt
    exact hinterrupt

theorem told_pace (h : r.Fits returns) : r.world.Told returns r.pronounced r.pace.2.world := by
  have hworld : r.pace.2.world = r.move.2.world := by
    rw [pace_eq]
    rcases r.move.1 with deadline | _ | _ <;> rfl
  rw [hworld]
  exact told_move h

/-! ## Whole executions -/

theorem entriesOf_under (console : Console) (returns : Bool) (w : World) (levels : List Level) :
    entriesOf (console.withReturns returns) w (levels.map (Level.under returns)) =
      entriesOf (console.withReturns false) w.bare (levels.map (Level.under false)) := by
  induction levels with
  | nil => rfl
  | cons l rest ih =>
    cases rest with
    | nil => exact Level.logged_under console returns w l
    | cons m rest =>
      simp only [List.map_cons, entriesOf, phase_under] at ih ⊢
      cases m.phase with
      | own | command | nested => exact ih
      | _ => rfl

theorem blind_entries : Blind fun r => (r.entries, r) :=
  blind_look fun returns r h => by
    have hentries := entriesOf_under r.console returns r.world r.levels
    rwa [h.console, h.levels] at hentries

theorem blind_said : Blind fun r => (r.said, r) :=
  blind_look fun _ r _ => (said_bare r).symm

theorem result?_bare (r : Run) : r.bare.result? = r.result? := by
  obtain ⟨console, w, levels⟩ := r
  cases levels <;> rfl

theorem exitValue_bare (r : Run) : r.bare.exitValue = r.exitValue := by
  obtain ⟨console, w, levels⟩ := r
  cases levels <;> rfl

/-- The sessions after the outermost one was called to execute. -/
def executeLevels (console : Console) : List Level → Option Failure × List Level
  | [] => (some (.invalidState "no session"), [])
  | l :: rest =>
    match l.execute console with
    | .ok l => (none, l :: rest)
    | .error e => (some e, l :: rest)

theorem callExecute_eq (r : Run) : r.callExecute = ((executeLevels r.console r.levels).1,
    { r with levels := (executeLevels r.console r.levels).2 }) := by
  obtain ⟨console, w, levels⟩ := r
  cases levels with
  | nil => rfl
  | cons l rest =>
    simp only [callExecute, execute, executeLevels]
    cases l.execute console <;> rfl

theorem blind_callExecute : Blind callExecute := by
  rw [funext callExecute_eq]
  refine blind_of_levels fun console returns levels => ?_
  cases levels with
  | nil => rfl
  | cons l rest =>
    simp only [executeLevels, List.map_cons, execute_under]
    cases l.execute console <;> rfl

theorem blind_passTo (time : Nat) : Blind fun r => ((), r.passTo time) :=
  blind_of_world (f := fun w => { w with clock := max w.clock time }) (fun _ => rfl)
    fun _ _ => ⟨rfl, rfl⟩

theorem blind_giveUp : Blind fun r =>
    (Execution.stillRunning, r.abandon.passTo (r.world.clock + never)) := by
  have habandon : Blind fun r => ((), r.abandon) :=
    blind_of_levels
      (F := fun _ levels => ((), (levels.take 1).map (Level.finish · (.error .interrupted))))
      fun _ returns levels => by
        rw [← List.map_take, List.map_map, List.map_map]
        rfl
  have hwait : Blind fun r => ((), r.passTo (r.world.clock + never)) :=
    blind_of_world (f := fun w => { w with clock := max w.clock (w.clock + never) })
      (fun _ => rfl) fun _ _ => ⟨rfl, rfl⟩
  exact habandon.bind fun _ => hwait.map fun _ => Execution.stillRunning

/-- How a run settles after a step, or without one. -/
def settleAfter (n : Nat) : Except (Option Nat) Unit → Run → Standing × Run
  | .ok (), r => settle n r
  | .error deadline, r => (.waiting deadline, r)

/-- How a run settles that has ended or not. -/
def settleFrom (n : Nat) : Option (Except Failure ExitCode) → Run → Standing × Run
  | some result, r => (.over result, r)
  | none, r => settleAfter n r.pace.1 r.pace.2

/-- How a run that has settled is completed. -/
def completeFrom (n : Nat) : Standing → Run → Execution × Run
  | .over result, r => (.ended result, r)
  | .waiting none, r => (.stillRunning, r.abandon.passTo (r.world.clock + never))
  | .waiting (some time), r => complete n (r.passTo time)

/-- How a run goes on that was called to execute. -/
def executeFrom : Option Failure → Run → Execution × Run
  | some e, r => (.ended (.error e), r)
  | none, r => complete patience r

theorem settle_succ (n : Nat) (r : Run) : settle (n + 1) r = settleFrom n r.result? r := by
  rw [settle]
  cases r.result? with
  | some result => rfl
  | none =>
    rw [settleFrom, pace]
    cases r.step <;> rfl

theorem complete_succ (n : Nat) (r : Run) :
    complete (n + 1) r = completeFrom n (r.settle patience).1 (r.settle patience).2 := by
  rw [complete]
  generalize r.settle patience = settled
  obtain ⟨result | ⟨_ | time⟩, r⟩ := settled <;> rfl

theorem executeToEnd_eq (r : Run) :
    r.executeToEnd = executeFrom r.callExecute.1 r.callExecute.2 := by
  rw [executeToEnd, callExecute]
  cases r.execute <;> rfl

theorem blind_settle (n : Nat) : Blind (settle n) := by
  induction n with
  | zero => exact blind_pure (Standing.waiting none)
  | succ n ih =>
    rw [funext (settle_succ n)]
    have hlook : Blind fun r => (r.result?, r) := blind_look fun _ r _ => (result?_bare r).symm
    refine hlook.bind fun result? => ?_
    cases result? with
    | some result => exact blind_pure _
    | none =>
      refine blind_pace.bind (g := settleAfter n) fun paced => ?_
      cases paced with
      | ok => exact ih
      | error deadline => exact blind_pure _

theorem blind_complete (n : Nat) : Blind (complete n) := by
  induction n with
  | zero => exact blind_pure Execution.stillRunning
  | succ n ih =>
    rw [funext (complete_succ n)]
    refine (blind_settle patience).bind fun standing => ?_
    cases standing with
    | waiting deadline =>
      cases deadline with
      | none => exact blind_giveUp
      | some time => exact (blind_passTo time).bind fun _ => ih
    | _ => exact blind_pure _

/-- **Running a session to its end** is blind. -/
theorem blind_executeToEnd : Blind executeToEnd := by
  rw [funext executeToEnd_eq]
  refine blind_callExecute.bind fun refusal => ?_
  cases refusal with
  | some e => exact blind_pure _
  | none => exact blind_complete patience

end Run

end CommandConsole
