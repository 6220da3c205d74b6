import CommandConsole.Proofs.Session.Past
import Mathlib.Logic.Relation

/-!
# The sessions of a run

What a step of a run, an interrupt of one of its sessions or a change of its world does to any one
session of the chain is nothing, or one of the changes of that session. So what no change takes away
holds of every session of every run, at any depth, if all new sessions have it (`Carried`) or those
that a session starts have it from that one (`Inherited`). In particular every session of a run has
a life and a past.

Results: `stepped_of_step` (what a step is), `forall_stepped` (a step), `forall_interruptLevels` (an
interrupt), `reflTransGen_settle` (a run left to itself). Main statements: `forall_of_proceeds`, `lived_of_proceeds`, `past_of_proceeds`.
-/

namespace CommandConsole

open Session

/-- Whether a session executes. -/
def Level.executing (l : Level) : Bool :=
  match l.phase with
  | .idle | .over _ => false
  | .own _ | .command .. | .nested .. => true

namespace Run

variable {console : Console} {w w' : World} {l l' m : Level} {rest levels levels' : List Level}
  {interrupts : Bool} {r r' : Run} {P : Level → Prop}

/-! ## Steps -/

/-- Only a session that executes takes steps. -/
theorem executing_of_step (h : (∃ w' interrupts, l.step console w = .moved l' w' interrupts) ∨
    ∃ child w', l.step console w = .nests l' child w') : l.executing = true := by
  unfold Level.step at h
  rw [Level.executing]
  match hp : l.phase with
  | .own _ | .command .. | .nested .. => rfl
  | .idle | .over _ => simp [hp] at h

/-- A step of a chain: a step of its last session, or that one begins or has ended. -/
inductive Stepped (console : Console) (w : World) :
    List Level → List Level → World → Bool → Prop
  | last {l l' : Level} {w' : World} {interrupts : Bool}
      (h : l.step console w = .moved l' w' interrupts) : Stepped console w [l] [l'] w' interrupts
  | nest {l l' child : Level} {w' : World} (h : l.step console w = .nests l' child w') :
      Stepped console w [l] [l', child] w' false
  | leave {l m : Level} {rest : List Level} {result : Except Failure ExitCode}
      (hm : m.phase = .over result) : Stepped console w (l :: m :: rest) [l.leave result] w false
  | execute {l m m' : Level} {rest : List Level} (hm : m.phase = .idle)
      (hx : m.execute console = .ok m') :
      Stepped console w (l :: m :: rest) (l :: m' :: rest) w false
  /-- It was executed before. -/
  | refuse {l m : Level} {rest : List Level} {e : Failure} (hm : m.phase = .idle)
      (hx : m.execute console = .error e) :
      Stepped console w (l :: m :: rest) [l.leave (.error e)] w false
  | inner {l m : Level} {rest levels : List Level} {w' : World} {interrupts : Bool}
      (hm : m.executing = true) (h : Stepped console w (m :: rest) levels w' interrupts) :
      Stepped console w (l :: m :: rest) (l :: levels) w' interrupts

theorem stepped_of_stepLevels
    (hs : stepLevels console w levels = .moved levels' w' interrupts) :
    Stepped console w levels levels' w' interrupts := by
  induction levels generalizing levels' w' interrupts with
  | nil => cases hs
  | cons l rest ih =>
    cases rest with
    | nil =>
      rw [stepLevels] at hs
      cases hstep : l.step console w with
      | moved l' w'' i =>
        rw [hstep] at hs
        cases hs
        exact .last hstep
      | nests l' child w'' =>
        rw [hstep] at hs
        cases hs
        exact .nest hstep
      | blocked deadline =>
        rw [hstep] at hs
        cases hs
    | cons m rest =>
      rw [stepLevels] at hs
      rcases hp : m.phase with _ | _ | _ | _ | result
      case idle =>
        rw [hp] at hs
        cases hx : m.execute console with
        | ok m' =>
          rw [hx] at hs
          cases hs
          exact .execute hp hx
        | error e =>
          rw [hx] at hs
          cases hs
          exact .refuse hp hx
      case own | command | nested =>
        rw [hp] at hs
        simp only at hs
        cases hrest : stepLevels console w (m :: rest) with
        | moved levels w'' i =>
          rw [hrest] at hs
          cases hs
          exact .inner (by rw [Level.executing, hp]) (ih hrest)
        | blocked deadline =>
          rw [hrest] at hs
          cases hs
      · rw [hp] at hs
        cases hs
        exact .leave hp

/-- What a step of a run is: a step of its chain, and then perhaps an interrupt. -/
theorem stepped_of_step (hs : r.step = .ok r') : ∃ levels w interrupts,
    Stepped r.console r.world r.levels levels w interrupts ∧
      r' = if interrupts then ({ r with levels := levels, world := w } : Run).interrupt.2
        else { r with levels := levels, world := w } := by
  unfold step at hs
  cases he : stepLevels r.console r.world r.levels with
  | blocked deadline =>
    rw [he] at hs
    cases hs
  | moved levels w interrupts =>
    rw [he] at hs
    exact ⟨levels, w, interrupts, stepped_of_stepLevels he, (Except.ok.inj hs).symm⟩

theorem execute_eq_ok (hx : r.execute = .ok r') : ∃ l l' rest, r.levels = l :: rest ∧
    l.execute r.console = .ok l' ∧ r' = { r with levels := l' :: rest } := by
  unfold execute at hx
  cases hl : r.levels with
  | nil =>
    rw [hl] at hx
    cases hx
  | cons l rest =>
    rw [hl] at hx
    cases he : l.execute r.console with
    | error e =>
      simp only [he] at hx
      cases hx
    | ok l' =>
      simp only [he] at hx
      exact ⟨l, l', rest, rfl, he, (Except.ok.inj hx).symm⟩

/-! ## What no change takes away -/

/-- What new sessions have and no change takes away. -/
structure Carried (console : Console) (P : Level → Prop) : Prop where
  new : ∀ l, Level.New console l → P l
  step : ∀ l l' w w' interrupts, l.step console w = .moved l' w' interrupts → P l → P l'
  nest : ∀ l l' child w w', l.step console w = .nests l' child w' → P l → P l'
  leave : ∀ l result, P l → P (l.leave result)
  execute : ∀ l l', l.execute console = .ok l' → P l → P l'
  call : ∀ l behind, P l → P (l.called behind).2

/-- What no change takes away, and a session passes on to those that it starts. -/
structure Inherited (console : Console) (P : Level → Prop) : Prop where
  step : ∀ l l' w w' interrupts, l.step console w = .moved l' w' interrupts → P l → P l'
  nest : ∀ l l' child w w', l.step console w = .nests l' child w' → P l → P l' ∧ P child
  leave : ∀ l result, P l → P (l.leave result)
  execute : ∀ l l', l.execute console = .ok l' → P l → P l'
  call : ∀ l behind, P l → P (l.called behind).2

theorem Carried.inherited (hP : Carried console P) : Inherited console P where
  step := hP.step
  nest _ _ _ _ _ hs h := ⟨hP.nest _ _ _ _ _ hs h, hP.new _ (Level.does_of_nests hs).1.new⟩
  leave := hP.leave
  execute := hP.execute
  call := hP.call

/-- **A step of a chain** is a change of each of its sessions that it does not leave alone. -/
theorem forall_stepped (hP : Inherited console P) (h : ∀ l ∈ levels, P l)
    (hs : Stepped console w levels levels' w' interrupts) : ∀ l ∈ levels', P l := by
  induction hs with
  | last hstep =>
    have hl := h _ List.mem_cons_self
    exact List.forall_mem_singleton.mpr (hP.step _ _ _ _ _ hstep hl)
  | nest hstep =>
    obtain ⟨hl, hchild⟩ := hP.nest _ _ _ _ _ hstep (h _ List.mem_cons_self)
    exact List.forall_mem_cons.mpr ⟨hl, List.forall_mem_singleton.mpr hchild⟩
  | leave | refuse =>
    exact List.forall_mem_singleton.mpr (hP.leave _ _ (h _ List.mem_cons_self))
  | execute hm hx =>
    obtain ⟨hl, hrest⟩ := List.forall_mem_cons.mp h
    obtain ⟨hm, hmore⟩ := List.forall_mem_cons.mp hrest
    exact List.forall_mem_cons.mpr ⟨hl, List.forall_mem_cons.mpr ⟨hP.execute _ _ hx hm, hmore⟩⟩
  | inner hm _ ih =>
    obtain ⟨hl, hrest⟩ := List.forall_mem_cons.mp h
    exact List.forall_mem_cons.mpr ⟨hl, ih hrest⟩

/-! ## Interrupts -/

theorem zipWith_state (levels : List Level) :
    List.zipWith (fun l state => ({ l with state := state } : Level)) levels
      (levels.map (·.state)) = levels := by
  induction levels with
  | nil => rfl
  | cons l rest ih => rw [List.map_cons, List.zipWith_cons_cons, ih]

/-- An interrupt calls the first session, and is passed on to the second if the first is linked. -/
theorem interruptLevels_cons (l : Level) (rest : List Level) :
    interruptLevels (l :: rest) = ((l.called (rest.map (·.state))).1,
      (l.called (rest.map (·.state))).2 ::
        if l.state.running && l.state.linked then (interruptLevels rest).2 else rest) := by
  simp only [interruptLevels, Level.called, List.map_cons, ExecutionState.interrupt]
  cases l.state.running with
  | false => simp [zipWith_state]
  | true => cases l.state.linked <;> simp [zipWith_state]

/-- **An interrupt** calls sessions of the chain, and does nothing else. -/
theorem forall_interruptLevels (hP : Inherited console P) (h : ∀ l ∈ levels, P l) :
    ∀ l ∈ (interruptLevels levels).2, P l := by
  induction levels with
  | nil => simp [interruptLevels]
  | cons l rest ih =>
    obtain ⟨hl, hrest⟩ := List.forall_mem_cons.mp h
    rw [interruptLevels_cons]
    refine List.forall_mem_cons.mpr ⟨hP.call l _ hl, ?_⟩
    split
    · exact ih hrest
    · exact hrest

/-- Interrupts the session at a place of the chain. -/
def interruptAt (r : Run) (i : Nat) : Bool × Run :=
  let (had, levels) := interruptLevels (r.levels.drop i)
  (had, { r with levels := r.levels.take i ++ levels })

theorem interruptAt_zero (r : Run) : r.interruptAt 0 = r.interrupt := by
  simp [interruptAt, interrupt]

/-! ## Runs -/

/-- What may happen to a run: it takes a step, one of its sessions is interrupted, it is executed,
or its world changes. -/
inductive Proceeds : Run → Run → Prop
  | step {r r' : Run} (h : r.step = .ok r') : Proceeds r r'
  | interrupt (r : Run) (i : Nat) : Proceeds r (r.interruptAt i).2
  | execute {r r' : Run} (h : r.execute = .ok r') : Proceeds r r'
  | world (r : Run) (w : World) : Proceeds r { r with world := w }

/-- A run that goes on until it must wait takes steps and does nothing else. -/
theorem reflTransGen_settle {R : Run → Run → Prop} (hR : ∀ r r' : Run, r.step = .ok r' → R r r')
    (n : Nat) (r : Run) : Relation.ReflTransGen R r (r.settle n).2 := by
  induction n generalizing r with
  | zero => exact .refl
  | succ n ih =>
    unfold settle
    cases r.result? with
    | some result => exact .refl
    | none =>
      cases hs : r.step with
      | error deadline => exact .refl
      | ok r' => exact .head (hR r r' hs) (ih r')

theorem forall_interruptAt (hP : Inherited r.console P) (h : ∀ l ∈ r.levels, P l) (i : Nat) :
    ∀ l ∈ (r.interruptAt i).2.levels, P l := by
  intro l hl
  rcases List.mem_append.mp hl with hl | hl
  · exact h l (List.mem_of_mem_take hl)
  · exact forall_interruptLevels hP (fun l hl => h l (List.mem_of_mem_drop hl)) l hl

theorem forall_step (hP : Inherited r.console P) (h : ∀ l ∈ r.levels, P l) (hs : r.step = .ok r') :
    r'.console = r.console ∧ ∀ l ∈ r'.levels, P l := by
  obtain ⟨levels, w, interrupts, hstepped, rfl⟩ := stepped_of_step hs
  have hlevels := forall_stepped hP h hstepped
  cases interrupts with
  | true => exact ⟨rfl, forall_interruptLevels hP hlevels⟩
  | false => exact ⟨rfl, hlevels⟩

theorem forall_execute (hP : Inherited r.console P) (h : ∀ l ∈ r.levels, P l)
    (hx : r.execute = .ok r') : r'.console = r.console ∧ ∀ l ∈ r'.levels, P l := by
  obtain ⟨l, l', rest, hl, he, rfl⟩ := execute_eq_ok hx
  rw [hl] at h
  obtain ⟨hfirst, hrest⟩ := List.forall_mem_cons.mp h
  exact ⟨rfl, List.forall_mem_cons.mpr ⟨hP.execute _ _ he hfirst, hrest⟩⟩

/-- **What no change takes away and sessions pass on** holds of every session of every run. -/
theorem forall_of_proceeds (hP : Inherited r.console P) (h : Relation.ReflTransGen Proceeds r r')
    (hr : ∀ l ∈ r.levels, P l) : r'.console = r.console ∧ ∀ l ∈ r'.levels, P l := by
  induction h with
  | refl => exact ⟨rfl, hr⟩
  | tail _ hp ih =>
    obtain ⟨hconsole, hlevels⟩ := ih
    rw [← hconsole] at hP ⊢
    cases hp with
    | step hs => exact forall_step hP hlevels hs
    | interrupt i => exact ⟨rfl, forall_interruptAt hP hlevels i⟩
    | execute hx => exact forall_execute hP hlevels hx
    | world w => exact ⟨rfl, hlevels⟩

/-! ## Lives and pasts -/

/-- A session that has come to where it is by moves of its own. -/
def Lived (console : Console) (l : Level) : Prop :=
  ∃ l₀ log, Level.New console l₀ ∧ Level.Lives console l₀ log l

/-- A session with a past. -/
def Remembers (console : Console) (l : Level) : Prop :=
  ∃ l₀ past, Level.New console l₀ ∧ Level.Past console l₀ past l

theorem Lived.move {entries : List Entry} (h : Lived console l)
    (hm : Level.Moves console l entries l') : Lived console l' := by
  obtain ⟨l₀, log, hnew, hlives⟩ := h
  exact ⟨l₀, log ++ entries, hnew, hlives.tail hm⟩

theorem Remembers.undergo {marks : List Mark} (h : Remembers console l)
    (hu : Level.Undergoes console l marks l') : Remembers console l' := by
  obtain ⟨l₀, past, hnew, hpast⟩ := h
  exact ⟨l₀, past ++ marks, hnew, hpast.tail hu⟩

theorem carried_lived (console : Console) : Carried console (Lived console) where
  new l h := ⟨l, [], h, .refl⟩
  step _ _ _ _ _ hs h := h.move (.step hs)
  nest _ _ _ _ _ hs h := h.move (.nest hs)
  leave l result h := h.move (.leave l result)
  execute _ _ hx h := h.move (.execute hx)
  call l behind h := by
    rcases Level.called_snd l behind with he | ⟨-, he⟩
    · rwa [he]
    · rw [he]
      exact h.move (.cancel l)

theorem carried_remembers (console : Console) : Carried console (Remembers console) where
  new l h := ⟨l, [], h, .refl⟩
  step _ _ _ _ _ hs h := h.undergo (.step hs)
  nest _ _ _ _ _ hs h := h.undergo (.nest hs)
  leave l result h := h.undergo (.leave l result)
  execute _ _ hx h := h.undergo (.execute hx)
  call l behind h := h.undergo (.call l behind)

/-- **Every session of every run lives**, whatever happens to the run. -/
theorem lived_of_proceeds (h : Relation.ReflTransGen Proceeds r r')
    (hr : ∀ l ∈ r.levels, Level.New r.console l) :
    r'.console = r.console ∧ ∀ l ∈ r'.levels, Lived r.console l :=
  forall_of_proceeds (carried_lived _).inherited h fun l hl => (carried_lived _).new l (hr l hl)

/-- **Every session of every run has a past**, whatever happens to the run. -/
theorem past_of_proceeds (h : Relation.ReflTransGen Proceeds r r')
    (hr : ∀ l ∈ r.levels, Level.New r.console l) :
    r'.console = r.console ∧ ∀ l ∈ r'.levels, Remembers r.console l :=
  forall_of_proceeds (carried_remembers _).inherited h fun l hl => (carried_remembers _).new l (hr l hl)

end Run

end CommandConsole
