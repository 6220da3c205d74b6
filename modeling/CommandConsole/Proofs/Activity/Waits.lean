import CommandConsole.Proofs.Activity.Endings

/-!
# Waiting for an activity

Completion handles can be had at any time, and any number of waits can be begun on each of them. A
wait first watches the stage that the handles are shown, and then reads the ending. These are two
steps, and the activity may go on in between: it may be closed, or its body may report. An `Audience`
is the life of an activity with the waits for it.

A wait that is done watching finds an ending unless the activity is closed, since an activity that
completes has one. So a wait learns nothing only of an activity that was closed before its body
reported, and as an ending stays, all that learn one learn the same.

Results: `outcome?_eq_some_iff` (both steps at once), `heard_of_step` (one step),
`heard_of_reachable`, `leads_answered` (a wait returns once the activity has completed),
`learnt_of_heard` (what a wait learns), `eq_of_answered` (all learn the same).
Main statement: `agrees_of_reachable`.
-/

namespace CommandConsole.Activity

/-- How far a wait has come. -/
inductive Phase where
  | watching
  /-- It has seen that the activity is done. -/
  | seen
  | answered (outcome : Outcome)
  deriving DecidableEq, Repr

/-- What a wait does next, if it does not have to wait. -/
def Phase.next? (a : Activity) : Phase → Option Phase
  | watching => if a.isDone then some seen else none
  | seen => some (answered a.answer)
  | answered _ => none

/-- Who looks and reads at once gets what a wait gets in two steps. -/
theorem outcome?_eq_some_iff {a : Activity} {outcome : Outcome} : a.outcome? = some outcome ↔
    Phase.watching.next? a = some .seen ∧ Phase.seen.next? a = some (.answered outcome) := by
  simp [outcome?, Phase.next?]

/-- A wait on one of the completion handles. -/
structure Wait where
  handle : Nat
  phase : Phase := .watching
  deriving DecidableEq, Repr

/-- A wait that has not returned. -/
def Wait.Open (w : Wait) : Prop :=
  ∀ outcome, w.phase ≠ .answered outcome

theorem answer_of_some {a : Activity} {ending : Ending} (h : a.ending = some ending) :
    a.answer = .reported ending := by
  rw [answer, h]
  rfl

theorem answer_of_none {a : Activity} (h : a.ending = none) : a.answer = .abandoned := by
  rw [answer, h]
  rfl

/-- The life of an activity and the waits for it. -/
structure Audience where
  life : Life
  /-- How many completion handles there are. -/
  handles : Nat := 0
  /-- The last wait first. -/
  waits : List Wait := []

namespace Audience

/-- **One step** of the activity, of one who uses its completion handles, or of a wait. -/
inductive Step : Audience → Audience → Prop
  | live {a : Audience} {l : Life} (h : Life.Step a.life l) : Step a { a with life := l }
  | subscribe (a : Audience) : Step a { a with handles := a.handles + 1 }
  | wait {a : Audience} {handle : Nat} (h : handle < a.handles) :
      Step a { a with waits := ⟨handle, .watching⟩ :: a.waits }
  | goOn {a : Audience} {i : Nat} {w : Wait} {p : Phase} (hw : a.waits[i]? = some w)
      (hp : w.phase.next? a.life.activity = some p) :
      Step a { a with waits := a.waits.set i { w with phase := p } }

/-- An audience that some order of steps leads to from another. -/
def Leads : Audience → Audience → Prop :=
  Relation.ReflTransGen Step

/-- An audience that some order of steps leads to from that of a new activity. -/
def Reachable (worker : Worker) (shutdownWait : Nat) : Audience → Prop :=
  Leads { life := Life.new worker shutdownWait }

variable {a a' : Audience} {worker : Worker} {shutdownWait : Nat} {w : Wait} {i : Nat}

theorem life_of_step (hs : Step a a') : Life.Leads a.life a'.life := by
  cases hs with
  | live h => exact .single h
  | subscribe | wait | goOn => exact .refl

/-- Only the activity's own steps change its life. -/
theorem life_of_leads (hl : Leads a a') : Life.Leads a.life a'.life := by
  induction hl with
  | refl => exact .refl
  | tail _ hs ih => exact ih.trans (life_of_step hs)

theorem reachable_life (h : Reachable worker shutdownWait a) :
    Life.Reachable worker shutdownWait a.life :=
  life_of_leads h

/-! ## What a wait has heard -/

theorem isDone_iff {l : Life} (h : Life.Told l) :
    l.activity.isDone = true ↔ Stage.completed.rank ≤ l.activity.stage.rank := by
  rw [isDone, h.watched, decide_eq_true_iff]

/-- What is known of the activity when a wait has come so far. -/
def Heard (l : Life) : Phase → Prop
  | .watching => True
  | .seen | .answered .abandoned => Stage.completed.rank ≤ l.activity.stage.rank
  | .answered (.reported ending) => l.activity.ending = some ending

/-- The activity does not take back what a wait has heard. -/
theorem heard_of_life {l l' : Life} {p : Phase} (h : Life.Told l) (hs : Life.Step l l')
    (hp : Heard l p) : Heard l' p := by
  match p with
  | .watching => trivial
  | .seen | .answered .abandoned => exact Nat.le_trans hp (Life.rank_le_of_step hs)
  | .answered (.reported ending) => exact Life.ending_of_told h hs hp

/-- A wait that is done watching reads the ending, or finds none. -/
theorem heard_of_next? {l : Life} {p p' : Phase} (h : Life.Told l) (hp : Heard l p)
    (hnext : p.next? l.activity = some p') : Heard l p' := by
  cases p with
  | watching =>
    simp only [Phase.next?, Option.ite_none_right_eq_some] at hnext
    obtain ⟨hdone, hseen⟩ := hnext
    cases hseen
    exact (isDone_iff h).mp hdone
  | seen =>
    cases hnext
    cases he : l.activity.ending with
    | none =>
      rw [answer_of_none he]
      exact hp
    | some ending =>
      rw [answer_of_some he]
      exact he
  | answered outcome => cases hnext

/-- **What every step keeps.** -/
theorem heard_of_step (h : Life.Told a.life) (hheard : ∀ w ∈ a.waits, Heard a.life w.phase)
    (hs : Step a a') : ∀ w ∈ a'.waits, Heard a'.life w.phase := by
  intro w hw
  cases hs with
  | live hl => exact heard_of_life h hl (hheard w hw)
  | subscribe => exact hheard w hw
  | wait =>
    rcases List.mem_cons.mp hw with rfl | hw
    · trivial
    · exact hheard w hw
  | @goOn i v p hv hp =>
    rcases List.mem_or_eq_of_mem_set hw with hw | rfl
    · exact hheard w hw
    · exact heard_of_next? h (hheard v (List.mem_of_getElem? hv)) hp

theorem heard_of_reachable (h : Reachable worker shutdownWait a) :
    ∀ w ∈ a.waits, Heard a.life w.phase := by
  induction h with
  | refl => simp
  | tail h hs ih => exact heard_of_step (Life.told_of_reachable (reachable_life h)) ih hs

/-! ## What a wait learns -/

/-- **A wait returns** once the activity has completed, whatever others do. -/
theorem leads_answered (h : Life.Told a.life) (hw : a.waits[i]? = some w) (hopen : w.Open)
    (hdone : Stage.completed.rank ≤ a.life.activity.stage.rank) :
    Leads a { a with
      waits := a.waits.set i { w with phase := .answered a.life.activity.answer } } := by
  obtain ⟨handle, p⟩ := w
  cases p with
  | watching =>
    have hseen : Phase.watching.next? a.life.activity = some .seen :=
      if_pos ((isDone_iff h).mpr hdone)
    have hlooked : Step a { a with waits := a.waits.set i ⟨handle, .seen⟩ } := .goOn hw hseen
    have hat : (a.waits.set i ⟨handle, .seen⟩)[i]? = some ⟨handle, .seen⟩ :=
      List.getElem?_set_self (List.getElem?_eq_some_iff.mp hw).1
    have hread := Step.goOn (a := { a with waits := a.waits.set i ⟨handle, .seen⟩ }) hat rfl
    rw [List.set_set] at hread
    exact (Relation.ReflTransGen.single hlooked).tail hread
  | seen => exact .single (.goOn hw rfl)
  | answered outcome => exact absurd rfl (hopen outcome)

/-- A wait on an activity that has not completed cannot go on. -/
theorem next?_of_pending (h : Life.Told a.life) (hheard : Heard a.life w.phase) (hopen : w.Open)
    (hlt : a.life.activity.stage.rank < Stage.completed.rank) :
    w.phase.next? a.life.activity = none := by
  obtain ⟨handle, p⟩ := w
  cases p with
  | watching => exact if_neg fun hdone => Nat.not_le.mpr hlt ((isDone_iff h).mp hdone)
  | seen => exact absurd hheard (Nat.not_le.mpr hlt)
  | answered outcome => exact absurd rfl (hopen outcome)

/-- What is known of the activity at the moment a wait learns an outcome. -/
def Learnt (l : Life) : Outcome → Prop
  | .reported ending => l.activity.ending = some ending
  | .abandoned => l.activity.ending = none ∧ l.activity.stage = .closed ∧ l.results = []

/-- An activity that is done has an ending, or it was closed and its body has not reported. -/
theorem learnt_answer {l : Life} (h : Life.Told l)
    (hdone : Stage.completed.rank ≤ l.activity.stage.rank) : Learnt l l.activity.answer := by
  cases he : l.activity.ending with
  | some ending =>
    rw [answer_of_some he]
    exact he
  | none =>
    rw [answer_of_none he]
    refine ⟨he, ?_, h.unreported he⟩
    cases hs : l.activity.stage with
    | closed => rfl
    | completed =>
      have hsome := h.completed hs
      rw [he] at hsome
      cases hsome
    | _ =>
      rw [hs] at hdone
      exact absurd hdone (by decide)

/-- **What a wait learns** is the ending; it learns nothing only of a closed activity whose body has
not reported. -/
theorem learnt_of_heard {l : Life} {p : Phase} {outcome : Outcome} (h : Life.Told l)
    (hheard : Heard l p) (hnext : p.next? l.activity = some (.answered outcome)) :
    Learnt l outcome := by
  cases p with
  | watching =>
    simp only [Phase.next?, Option.ite_none_right_eq_some] at hnext
    cases hnext.2
  | seen =>
    cases hnext
    exact learnt_answer h hheard
  | answered outcome => cases hnext

theorem ending_of_audience {ending : Ending} (h : Reachable worker shutdownWait a)
    (he : a.life.activity.ending = some ending) (hl : Leads a a') :
    a'.life.activity.ending = some ending :=
  Life.ending_of_leads (reachable_life h) (life_of_leads hl) he

/-- **Who learns an ending** learns the one that others have learnt. -/
theorem eq_of_answered {ending : Ending} {w' : Wait} {outcome : Outcome}
    (h : Reachable worker shutdownWait a) (hw : w ∈ a.waits)
    (hp : w.phase = .answered (.reported ending)) (hl : Leads a a') (hw' : w' ∈ a'.waits)
    (hnext : w'.phase.next? a'.life.activity = some (.answered outcome)) :
    outcome = .reported ending := by
  have hheard := heard_of_reachable h w hw
  rw [hp] at hheard
  have he : a'.life.activity.ending = some ending := ending_of_audience h hheard hl
  have hr' : Reachable worker shutdownWait a' := h.trans hl
  have hlearnt := learnt_of_heard (Life.told_of_reachable (reachable_life hr'))
    (heard_of_reachable hr' w' hw') hnext
  cases outcome with
  | reported ending' =>
    cases hlearnt.symm.trans he
    rfl
  | abandoned => cases hlearnt.1.symm.trans he

/-! ## Main statement -/

/-- What completion handles say of an activity. -/
structure Agrees (a : Audience) : Prop where
  watched : a.life.activity.watched = a.life.activity.stage
  unset : a.life.activity.stage.rank < Stage.completed.rank → a.life.activity.ending = none
  /-- The ending is written once. -/
  stays : ∀ ending a', a.life.activity.ending = some ending → Leads a a' →
    a'.life.activity.ending = some ending
  completed : a.life.activity.stage = .completed → a.life.activity.ending.isSome = true
  finished : a.life.activity.ending = some .finished → a.life.results = [.ok ()]
  failed : ∀ text, a.life.activity.ending = some (.failed text) →
    ∃ e, a.life.results = [.error e] ∧ e ≠ .interrupted ∧ text = e.message
  interrupted : a.life.activity.ending = some .interrupted →
    a.life.results = [.error .interrupted] ∨ a.life.Skipped
  /-- A wait that has not returned does not go on before the activity has completed. -/
  pending : ∀ w ∈ a.waits, w.Open → a.life.activity.stage.rank < Stage.completed.rank →
    w.phase.next? a.life.activity = none
  /-- Then it returns, and needs nobody else for that. -/
  returns : ∀ i w, a.waits[i]? = some w → w.Open →
    Stage.completed.rank ≤ a.life.activity.stage.rank → Leads a { a with
      waits := a.waits.set i { w with phase := .answered a.life.activity.answer } }
  /-- Who learns nothing does so while the activity is closed and its body has not reported. -/
  abandoned : ∀ w ∈ a.waits, w.phase.next? a.life.activity = some (.answered .abandoned) →
    a.life.activity.stage = .closed ∧ a.life.results = []
  /-- After a wait has learnt an ending, all learn that one. -/
  same : ∀ w ∈ a.waits, ∀ ending, w.phase = .answered (.reported ending) → ∀ a', Leads a a' →
    ∀ w' ∈ a'.waits, ∀ outcome, w'.phase.next? a'.life.activity = some (.answered outcome) →
      outcome = .reported ending

/-- **Completion handles agree with the activity**, whatever is done in any order. -/
theorem agrees_of_reachable (h : Reachable worker shutdownWait a) : Agrees a := by
  have htold := Life.told_of_reachable (reachable_life h)
  have hheard := heard_of_reachable h
  exact {
    watched := htold.watched
    unset := htold.ending_of_lt
    stays := fun _ _ => ending_of_audience h
    completed := htold.completed
    finished := htold.results_of_finished
    failed := fun text => htold.results_of_failed
    interrupted := htold.results_of_interrupted
    pending := fun w hw => next?_of_pending htold (hheard w hw)
    returns := fun i w => leads_answered htold
    abandoned := fun w hw hnext => (learnt_of_heard htold (hheard w hw) hnext).2
    same := fun _ hw _ hp _ hl _ hw' _ => eq_of_answered h hw hp hl hw' }

/-- An activity that was closed while its body ran, and whose body reported after that. A wait on a
handle from before the start learnt nothing in between; one on a later handle learnt the ending. -/
def overtaken : Audience where
  life := (Life.new .shared 1000).start.enter.close.report (.ok ())
  handles := 2
  waits := [⟨1, .answered (.reported .finished)⟩, ⟨0, .answered .abandoned⟩]

theorem reachable_overtaken : Reachable .shared 1000 overtaken := by
  have hwait : Reachable .shared 1000
      { life := Life.new .shared 1000, handles := 1, waits := [⟨0, .watching⟩] } :=
    (Relation.ReflTransGen.single (.subscribe _)).tail (.wait (by decide))
  have hclosed : Reachable .shared 1000
      { life := (Life.new .shared 1000).start.enter.close
        handles := 2
        waits := [⟨0, .watching⟩] } :=
    (((hwait.tail (.live (.start _))).tail (.subscribe _)).tail (.live (.enter (by decide)))).tail
      (.live (.close _))
  have hgiven : Reachable .shared 1000
      { life := (Life.new .shared 1000).start.enter.close
        handles := 2
        waits := [⟨0, .answered .abandoned⟩] } :=
    (hclosed.tail (.goOn (i := 0) (w := ⟨0, .watching⟩) (p := .seen) rfl rfl)).tail
      (.goOn (i := 0) (w := ⟨0, .seen⟩) (p := .answered .abandoned) rfl rfl)
  have hlate : Reachable .shared 1000
      { life := (Life.new .shared 1000).start.enter.close.report (.ok ())
        handles := 2
        waits := [⟨1, .watching⟩, ⟨0, .answered .abandoned⟩] } :=
    (hgiven.tail (.live (.report (by decide) (.ok ())))).tail (.wait (by decide))
  exact (hlate.tail (.goOn (i := 0) (w := ⟨1, .watching⟩) (p := .seen) rfl rfl)).tail
    (.goOn (i := 0) (w := ⟨1, .seen⟩) (p := .answered (.reported .finished)) rfl rfl)

/-- Its ending is `finished` for good, and that is what every later wait learns. -/
theorem agrees_overtaken : Reachable .shared 1000 overtaken ∧
    overtaken.life.results = [.ok ()] ∧ ∀ a', Leads overtaken a' →
      a'.life.activity.ending = some .finished ∧ ∀ w ∈ a'.waits, ∀ outcome,
        w.phase.next? a'.life.activity = some (.answered outcome) →
          outcome = .reported .finished := by
  have hr := reachable_overtaken
  have hagrees := agrees_of_reachable hr
  exact ⟨hr, hagrees.finished rfl, fun a' hl => ⟨hagrees.stays _ a' rfl hl,
    hagrees.same _ List.mem_cons_self _ rfl a' hl⟩⟩

end Audience

end CommandConsole.Activity
