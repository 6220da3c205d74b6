import CommandConsole.Proofs.Activity.Lifecycle

/-!
# When the ending of an activity is written

The ending is written by the body when it reports, and by a run that skips the body of a cancelled
activity. Closing writes nothing, so a closed activity may have no ending yet and get one later, and
those who wait for it may learn either.

There is one run at most, and once it has written it is past the body. So nobody writes twice: as long
as a run may still write, nothing is written (`Told.unwritten`).

Results: `ending_of_step` (who writes), `told_of_step` (what each step keeps), `told_of_reachable`,
`ending_of_leads` (an ending stays), `results_of_finished` and its like (what the body returned).
-/

namespace CommandConsole.Activity.Life

variable {l l' : Life} {worker : Worker} {shutdownWait : Nat}

/-- The activity was interrupted before the run came to the body, and so the run skipped it. -/
def Skipped (l : Life) : Prop :=
  l.interrupts = 1 ∧ l.skips = 1 ∧ l.entries = 0 ∧ l.results = []

/-- What is known of the ending, the stage that is shown and the cancellation at any time. -/
structure Told (l : Life) : Prop where
  watched : l.activity.watched = l.activity.stage
  cancelled : l.activity.cancelled = true ↔ 0 < l.interrupts ∨ l.activity.stage = .closed
  completed : l.activity.stage = .completed → l.activity.ending.isSome = true
  done : l.activity.ending.isSome = true → Stage.completed.rank ≤ l.activity.stage.rank
  /-- As long as a run may still write, nothing is written. -/
  unwritten : 0 < l.scheduled + l.performing → l.activity.ending = none
  unreported : l.activity.ending = none → l.results = []
  written : ∀ ending, l.activity.ending = some ending →
    (∃ result, l.results = [result] ∧ ending = .ofResult result) ∨
      ending = .interrupted ∧ l.Skipped

/-! ## Who writes -/

/-- **The ending is written** by a body that reports, and by a run that finds a cancelled activity
not closed. -/
theorem ending_of_step (hs : Step l l') :
    l'.activity.ending = l.activity.ending ∨
    (∃ result, 0 < l.performing ∧ l' = l.report result) ∨
    (0 < l.scheduled ∧ l.activity.stage ≠ .closed ∧ l.activity.cancelled = true ∧ l' = l.enter) := by
  cases hs with
  | start =>
    refine .inl ?_
    cases ha : l.activity.start with
    | error e => rw [start_of_error ha]
    | ok a =>
      obtain ⟨-, -, rfl⟩ := start_eq_ok_iff.mp ha
      rw [start_of_ok ha]
  | interrupt =>
    refine .inl ?_
    rcases interrupt_eq l.activity with ⟨-, -, he⟩ | ⟨-, he⟩ <;> simp [interrupt, he]
  | close | closeAfter =>
    refine .inl ?_
    rcases close_eq l.activity with ⟨-, he⟩ | ⟨-, he⟩ <;> simp [closeAfter, close, he]
  | enter hpos =>
    rcases enter_eq l.activity with ⟨-, he⟩ | ⟨hs, hc, -⟩ | ⟨-, -, he⟩
    · exact .inl (by simp [enter, he])
    · exact .inr (.inr ⟨hpos, hs, hc, rfl⟩)
    · exact .inl (by simp [enter, he])
  | report hpos result => exact .inr (.inl ⟨result, hpos, rfl⟩)
  | die | drop => exact .inl rfl

/-! ## One step -/

theorem told_new : Told (new worker shutdownWait) := by
  constructor <;> simp [new]

namespace Told

/-- An activity that has not completed has no ending. -/
theorem ending_of_lt (h : Told l) (hlt : l.activity.stage.rank < Stage.completed.rank) :
    l.activity.ending = none := by
  rw [← Option.not_isSome_iff_eq_none]
  exact fun hsome => Nat.not_le.mpr hlt (h.done hsome)

theorem start (h : Told l) : Told l.start := by
  cases ha : l.activity.start with
  | error e => rwa [start_of_error ha]
  | ok a =>
    obtain ⟨hstage, -, rfl⟩ := start_eq_ok_iff.mp ha
    have hnone : l.activity.ending = none := h.ending_of_lt (by rw [hstage]; decide)
    rw [start_of_ok ha]
    exact { h with
      watched := rfl
      cancelled := by simpa [hstage] using h.cancelled
      completed := nofun
      done := by simp [hnone]
      unwritten := fun _ => hnone
      written := by simp [hnone] }

theorem interrupt (h : Told l) : Told l.interrupt := by
  rcases interrupt_eq l.activity with ⟨hs, hc, he⟩ | ⟨-, he⟩
  · have hnone : l.activity.ending = none := h.ending_of_lt (by rw [hs]; decide)
    simp only [Life.interrupt, he]
    exact { h with
      cancelled := by simp
      written := by simp [hnone] }
  · simp only [Life.interrupt, he]
    exact { h with }

theorem close (h : Told l) : Told l.close := by
  rcases close_eq l.activity with ⟨hs, -⟩ | ⟨hs, he⟩
  · rwa [close_of_closed hs]
  · simp only [Life.close, he]
    exact { h with
      watched := rfl
      cancelled := by simp
      completed := by simp
      done := fun _ => rank_le_closed .completed }

/-- A run has come to the body before any other, and nothing was written before. -/
theorem enter (h : Told l) (hv : Valid l) (hpos : 0 < l.scheduled) : Told l.enter := by
  have hnone : l.activity.ending = none := h.unwritten (by omega)
  have hruns := hv.runs
  have hstarts := hv.starts
  have hbodies := hv.bodies
  rcases enter_eq l.activity with ⟨hs, he⟩ | ⟨hs, hc, he⟩ | ⟨hs, hc, he⟩
  · simp only [Life.enter, he]
    exact { h with unwritten := fun _ => hnone, written := by simp [hnone] }
  · have hinterrupts : l.interrupts = 1 := Nat.le_antisymm
      (Nat.le_trans hv.interrupts (Bool.toNat_le _)) ((h.cancelled.mp hc).resolve_right hs)
    have hfirst : l.skips + 1 = 1 ∧ l.entries = 0 := by omega
    simp only [Life.enter, he]
    exact { h with
      watched := rfl
      cancelled := by simpa [hs] using h.cancelled
      completed := fun _ => rfl
      done := fun _ => Nat.le_refl _
      unwritten := fun hrun => by simp only at hrun; omega
      unreported := by simp
      written := by
        rintro _ ⟨⟩
        exact .inr ⟨rfl, hinterrupts, hfirst.1, hfirst.2, h.unreported hnone⟩ }
  · simp only [Life.enter, he]
    exact { h with unwritten := fun _ => hnone, written := by simp [hnone] }

theorem report (h : Told l) (hv : Valid l) (hpos : 0 < l.performing)
    (result : Except Failure Unit) : Told (l.report result) := by
  have hnone : l.activity.ending = none := h.unwritten (by omega)
  have hruns := hv.runs
  have hstarts := hv.starts
  have hbodies := hv.bodies
  have hclosed : (l.report result).activity.stage = .closed ↔ l.activity.stage = .closed :=
    report_stage_eq_closed_iff
  have hending : (l.report result).activity.ending = some (.ofResult result) := by
    rw [Life.report, report_eq]
  refine ⟨?_, ?_, ?_, ?_, ?_, ?_, ?_⟩
  · simp only [Life.report, report_eq, h.watched]
  · rw [hclosed, Life.report, report_eq]
    exact h.cancelled
  · intro _
    rw [hending]
    rfl
  · intro _
    simp only [Life.report, report_eq]
    split <;> omega
  · intro hrun
    simp only [Life.report] at hrun
    omega
  · simp [hending]
  · rw [hending]
    rintro _ ⟨⟩
    refine .inl ⟨result, ?_, rfl⟩
    rw [Life.report, h.unreported hnone]

theorem die (h : Told l) : Told l.die :=
  { h with unwritten := fun hrun => h.unwritten (by simp only [Life.die] at hrun; omega) }

theorem closeAfter (h : Told l) : Told l.closeAfter :=
  { h.close with }

theorem drop (h : Told l) : Told l.drop :=
  { h with unwritten := fun hrun => h.unwritten (by simp only [Life.drop] at hrun; omega) }

end Told

/-- **What every step keeps.** -/
theorem told_of_step (hv : Valid l) (h : Told l) (hs : Step l l') : Told l' := by
  cases hs with
  | start => exact h.start
  | interrupt => exact h.interrupt
  | close => exact h.close
  | enter hpos => exact h.enter hv hpos
  | report hpos result => exact h.report hv hpos result
  | die => exact h.die
  | closeAfter => exact h.closeAfter
  | drop => exact h.drop

theorem told_of_reachable (h : Reachable worker shutdownWait l) : Told l := by
  induction h with
  | refl => exact told_new
  | tail h hs ih => exact told_of_step (valid_of_reachable h) ih hs

/-! ## What stays -/

theorem ending_of_told {ending : Ending} (h : Told l) (hs : Step l l')
    (he : l.activity.ending = some ending) : l'.activity.ending = some ending := by
  rcases ending_of_step hs with hsame | ⟨result, hpos, rfl⟩ | ⟨hpos, -, -, rfl⟩
  · exact hsame.trans he
  · cases (h.unwritten (by omega)).symm.trans he
  · cases (h.unwritten (by omega)).symm.trans he

/-- **An ending stays.** -/
theorem ending_of_leads {ending : Ending} (h : Reachable worker shutdownWait l) (hl : Leads l l')
    (he : l.activity.ending = some ending) : l'.activity.ending = some ending := by
  induction hl with
  | refl => exact he
  | tail hl hs ih => exact ending_of_told (told_of_reachable (h.trans hl)) hs ih

/-! ## What an ending says -/

namespace Told

theorem results_of_finished (h : Told l) (he : l.activity.ending = some .finished) :
    l.results = [.ok ()] := by
  rcases h.written _ he with ⟨result, hresults, hend⟩ | ⟨hend, -⟩
  · rw [hresults, ofResult_eq_finished_iff.mp hend.symm]
  · cases hend

theorem results_of_failed {text : String} (h : Told l)
    (he : l.activity.ending = some (.failed text)) :
    ∃ e, l.results = [.error e] ∧ e ≠ .interrupted ∧ text = e.message := by
  rcases h.written _ he with ⟨result, hresults, hend⟩ | ⟨hend, -⟩
  · obtain ⟨e, rfl, hne, htext⟩ := ofResult_eq_failed_iff.mp hend.symm
    exact ⟨e, hresults, hne, htext⟩
  · cases hend

/-- An interruption is one of the body, or the body was skipped. -/
theorem results_of_interrupted (h : Told l) (he : l.activity.ending = some .interrupted) :
    l.results = [.error .interrupted] ∨ l.Skipped := by
  rcases h.written _ he with ⟨result, hresults, hend⟩ | ⟨-, hskipped⟩
  · rw [hresults, ofResult_eq_interrupted_iff.mp hend.symm]
    exact .inl rfl
  · exact .inr hskipped

end Told

end CommandConsole.Activity.Life
