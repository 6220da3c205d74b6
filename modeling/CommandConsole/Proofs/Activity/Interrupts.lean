import CommandConsole.Proofs.Activity.Endings

/-!
# At most one interrupt takes effect

An activity is interrupted by its callers and by all its completion handles, in competition with each
other, with whoever closes it, and with the run that comes to the body. Closing cancels the activity
too, so a cancelled activity was interrupted or is closed, and no further interrupt is answered with
true.

What an interrupt does depends on whether the run has come to the body. If not, the run skips the
body, and it writes the ending unless the activity was closed in the meantime.

Results: `interrupted_of_leads` (nobody interrupts again), `enter_of_interrupted` (what the run finds).
Main statement: `interrupts_of_reachable`.
-/

namespace CommandConsole.Activity.Life

variable {l l' : Life} {worker : Worker} {shutdownWait : Nat}

theorem interrupt_eq_true_iff (a : Activity) :
    a.interrupt.1 = true ↔ a.stage = .started ∧ a.cancelled = false := by
  rcases interrupt_eq a with ⟨hs, hc, he⟩ | ⟨hnot, he⟩
  · simp [he, hs, hc]
  · simp [he, hnot]

/-- A refused interrupt changes nothing. -/
theorem interrupt_of_refused (h : l.activity.interrupt.1 = false) : l.interrupt = l := by
  rcases interrupt_eq l.activity with ⟨-, -, he⟩ | ⟨-, he⟩
  · rw [he] at h
    cases h
  · simp [interrupt, he]

theorem barred_interrupt (h : l.activity.interrupt.1 = true) : l.interrupt.Barred := by
  rcases interrupt_eq l.activity with ⟨-, -, he⟩ | ⟨-, he⟩
  · exact .inl (by simp [interrupt, he])
  · rw [he] at h
    cases h

/-- An activity that is closed is cancelled as well. -/
theorem Told.cancelled_of_barred (h : Told l) (hb : l.Barred) : l.activity.cancelled = true :=
  hb.elim id fun hclosed => h.cancelled.mpr (.inr hclosed)

/-- **After an interrupt** the activity stays cancelled. -/
theorem interrupted_of_leads (hr : Reachable worker shutdownWait l)
    (h : l.activity.interrupt.1 = true) (hl : Leads l.interrupt l') :
    l'.activity.cancelled = true := by
  have hr' : Reachable worker shutdownWait l' := (hr.tail (.interrupt l)).trans hl
  exact (told_of_reachable hr').cancelled_of_barred (barred_of_leads (barred_interrupt h) hl)

/-- **A run that comes to an interrupted activity** skips the body. -/
theorem enter_of_interrupted (h : Told l) (hc : l.activity.cancelled = true)
    (hpos : 0 < l.scheduled) : l.activity.enter.1 = .skip ∧ l.enter.activity.ending =
      if l.activity.stage = .closed then none else some .interrupted := by
  rcases enter_eq l.activity with ⟨hs, he⟩ | ⟨hs, -, he⟩ | ⟨-, hc', -⟩
  · have hnone : l.activity.ending = none := h.unwritten (by omega)
    simp [enter, he, hs, hnone]
  · simp [enter, he, hs]
  · cases hc'.symm.trans hc

/-! ## Main statement -/

/-- **At most one interrupt takes effect**, over all callers and completion handles and in any order
of the steps. One is answered with true exactly if the activity is started and not cancelled, and it
is cancelled exactly if an interrupt was answered with true before or it is closed. One that is
refused changes nothing. After one that was answered with true before the run came to the body, the
body is never entered, and when the run comes to it the ending becomes `interrupted`, or stays unset
if the activity is closed by then. -/
theorem interrupts_of_reachable (h : Reachable worker shutdownWait l) :
    (l.interrupts ≤ 1 ∧ (l.activity.interrupt.1 = true → l.interrupts = 0 ∧
      ∀ l', Leads l.interrupt l' → l'.activity.interrupt.1 = false)) ∧
    ((l.activity.interrupt.1 = true ↔
        l.activity.stage = .started ∧ l.activity.cancelled = false) ∧
      (l.activity.cancelled = true ↔ l.interrupts = 1 ∨ l.activity.stage = .closed)) ∧
    (l.activity.interrupt.1 = false → l.interrupt = l) ∧
    (l.activity.interrupt.1 = true → l.entries = 0 → ∀ l', Leads l.interrupt l' →
      l'.entries = 0 ∧ (0 < l'.scheduled → l'.activity.enter.1 = .skip ∧
        l'.enter.activity.ending =
          if l'.activity.stage = .closed then none else some .interrupted)) := by
  have htold := told_of_reachable h
  have hinterrupts : l.interrupts ≤ l.activity.cancelled.toNat := (valid_of_reachable h).interrupts
  have hle : l.interrupts ≤ 1 := Nat.le_trans hinterrupts (Bool.toNat_le _)
  have hone : 0 < l.interrupts ↔ l.interrupts = 1 := by omega
  refine ⟨⟨hle, fun ht => ⟨?_, fun l' hl => ?_⟩⟩, ⟨interrupt_eq_true_iff l.activity, ?_⟩,
    interrupt_of_refused, fun ht hentries l' hl => ⟨?_, fun hpos => ?_⟩⟩
  · rw [((interrupt_eq_true_iff _).mp ht).2] at hinterrupts
    exact Nat.le_zero.mp hinterrupts
  · rw [← Bool.not_eq_true, interrupt_eq_true_iff, interrupted_of_leads h ht hl]
    simp
  · rw [htold.cancelled, hone]
  · rw [entries_of_leads (barred_interrupt ht) hl]
    exact hentries
  · have hr' : Reachable worker shutdownWait l' := (h.tail (.interrupt l)).trans hl
    exact enter_of_interrupted (told_of_reachable hr') (interrupted_of_leads h ht hl) hpos

/-- An activity that was started and whose run has not come to the body. -/
def starting : Life :=
  (new .shared 1000).start

/-- It is interrupted once; the run skips the body and writes so, unless the activity was closed. -/
theorem interrupts_starting : Reachable .shared 1000 starting ∧
    starting.activity.interrupt.1 = true ∧ starting.interrupt.activity.interrupt.1 = false ∧
    (∀ l', Leads starting.interrupt l' → l'.entries = 0) ∧
    starting.interrupt.enter.activity.ending = some .interrupted ∧
    starting.interrupt.close.enter.activity.ending = none := by
  have hr : Reachable .shared 1000 starting := .single (.start _)
  obtain ⟨⟨-, honce⟩, -, -, hskips⟩ := interrupts_of_reachable hr
  have hclosed : Leads starting.interrupt starting.interrupt.close := .single (.close _)
  exact ⟨hr, rfl, (honce rfl).2 _ .refl, fun l' hl => (hskips rfl rfl l' hl).1,
    ((hskips rfl rfl _ .refl).2 (by decide)).2, ((hskips rfl rfl _ hclosed).2 (by decide)).2⟩

end CommandConsole.Activity.Life
