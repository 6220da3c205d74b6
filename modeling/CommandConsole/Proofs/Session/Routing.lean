import CommandConsole.Proofs.Session.Chain
import CommandConsole.Command.Builtin

/-!
# Where an interrupt goes

A shell that runs another session in the place of one of its commands passes interrupts on to it;
a session that runs a single command keeps them. Which of its sessions an interrupt of a run comes
to is decided by two marks of each session, that it runs and that it is linked. `Level.Sound` says
that these marks tell where the session stands, and `WellNested` that each session but the last
waits for the next one. Both hold in every run, so that an interrupt of any session comes to the
first one, from there on, that passes it to no other (`interruptLevels_append`).

Results: `sound_of_does` (one step), `nested_stepped` (one of a chain), `sound_of_proceeds` (a run),
`step_of_over` (the end of a nested session). Main statement: `routing_of_proceeds`.
-/

namespace CommandConsole

open Session

/-- Whether a session that stands there waits for one that is nested in it. -/
def Session.Phase.nests : Phase → Bool
  | .nested .. => true
  | _ => false

namespace Level

/-- Whether a session passes interrupts on: it waits for a nested one, in the place of a command of
a shell. -/
def routes (l : Level) : Bool :=
  l.phase.nests && l.forwards

/-- The session after an interrupt that it passes to no other. -/
def hit (l : Level) : Level :=
  if l.executing then { l with state := { l.state with cancelled := true } } else l

/-- The marks of a session tell where it stands. -/
structure Sound (l : Level) : Prop where
  running : l.state.running = l.executing
  linked : l.state.linked = l.routes
  fresh : l.state.executed = false → l.phase = .idle

variable {console : Console} {w w' : World} {l l' : Level} {entries : List Entry}

@[simp] theorem enter_executed (l : Level) (phase : Phase) :
    (l.enter phase).state.executed = l.state.executed := by
  unfold enter
  split <;> rfl

@[simp] theorem enter_running (l : Level) (phase : Phase) :
    (l.enter phase).state.running = l.state.running := by
  unfold enter
  split <;> rfl

@[simp] theorem enter_linked (l : Level) (phase : Phase) :
    (l.enter phase).state.linked = (l.forwards || l.state.linked) := by
  unfold enter
  cases l.forwards <;> rfl

theorem sound_of_new (h : New console l) : l.Sound := by
  cases h <;> exact ⟨rfl, rfl, fun _ => rfl⟩

theorem Sound.executed (h : l.Sound) (hl : l.executing = true) : l.state.executed = true := by
  cases hx : l.state.executed with
  | true => rfl
  | false =>
    rw [executing, h.fresh hx] at hl
    cases hl

/-- A change of a session that goes on without a nested one. -/
theorem Sound.within (h : l.Sound) (hl : l.executing = true) (hroutes : l.routes = false)
    (hstate : l'.state.executed = l.state.executed ∧ l'.state.running = l.state.running ∧
      l'.state.linked = l.state.linked)
    (hl' : l'.executing = true) (hroutes' : l'.routes = false) : l'.Sound where
  running := by rw [hstate.2.1, h.running, hl, hl']
  linked := by rw [hstate.2.2, h.linked, hroutes, hroutes']
  fresh hx := by
    rw [hstate.1, h.executed hl] at hx
    cases hx

theorem sound_of_does (h : l.Sound) (hd : Does console w l entries l') : l'.Sound := by
  cases hd with
  | waited => exact h
  | ended hp =>
    have hexecuted := h.executed (by rw [executing, hp])
    refine ⟨rfl, rfl, fun hx => ?_⟩
    cases hexecuted.symm.trans hx
  | nested hp hr =>
    have hexecuted := h.executed (by rw [executing, hp])
    have hlinked : l.state.linked = false := by
      rw [h.linked, routes, hp]
      rfl
    have hrunning : l.state.running = true := by
      rw [h.running, executing, hp]
    refine ⟨?_, ?_, fun hx => ?_⟩
    · rw [enter_running, hrunning]
      rfl
    · rw [enter_linked, hlinked, Bool.or_false]
      rfl
    · rw [enter_executed, hexecuted] at hx
      cases hx
  | again hp | asked hp | began hp | returned hp | used hp | invoked hp =>
    refine h.within (by rw [executing, hp]) (by rw [routes, hp]; rfl) ?_ rfl rfl
    simp [goto]

theorem sound_leave (h : l.Sound) (result : Except Failure ExitCode) : (l.leave result).Sound := by
  unfold leave
  split
  next resume next hp =>
    have hexecuted := h.executed (by rw [executing, hp])
    have hrunning : l.state.running = true := by rw [h.running, executing, hp]
    cases hf : l.forwards with
    | true =>
      refine ⟨hrunning, rfl, fun hx => ?_⟩
      cases hexecuted.symm.trans hx
    | false =>
      have hlinked : l.state.linked = false := by rw [h.linked, routes, hf, Bool.and_false]
      refine ⟨hrunning, hlinked, fun hx => ?_⟩
      cases hexecuted.symm.trans hx
  · exact h

theorem sound_execute (h : l.Sound) (hx : l.execute console = .ok l') : l'.Sound := by
  obtain ⟨hfresh, rfl⟩ := execute_eq_ok_iff.mp hx
  refine ⟨rfl, ?_, nofun⟩
  have hlinked : l.state.linked = false := by
    rw [h.linked, routes, h.fresh hfresh]
    rfl
  exact hlinked

theorem sound_called (h : l.Sound) (behind : List ExecutionState) : (l.called behind).2.Sound := by
  rcases called_snd l behind with he | ⟨-, he⟩
  · rwa [he]
  · rw [he]
    exact ⟨h.running, h.linked, h.fresh⟩

/-- **The marks of every session** of every run tell where it stands. -/
theorem carried_sound (console : Console) : Run.Carried console Sound where
  new _ h := sound_of_new h
  step _ _ _ _ _ hs h := sound_of_does h (does_of_step hs)
  nest _ _ _ _ _ hs h := sound_of_does h (does_of_nests hs).2
  leave _ result h := sound_leave h result
  execute _ _ hx h := sound_execute h hx
  call _ behind h := sound_called h behind

theorem executing_of_routes (h : l.routes = true) : l.executing = true := by
  have hnests := (Bool.and_eq_true_iff.mp h).1
  unfold executing
  match hp : l.phase with
  | .nested .. => rfl
  | .own _ | .command .. => rfl
  | .idle | .over _ =>
    rw [hp] at hnests
    cases hnests

/-- A session that passes an interrupt on is called without being cancelled. -/
theorem called_of_routes (h : l.Sound) (hr : l.routes = true) (behind : List ExecutionState) :
    l.called behind = ((ExecutionState.interrupt behind).1, l) := by
  have hrunning := h.running.trans (executing_of_routes hr)
  rw [called_eq, if_pos hrunning, if_pos (h.linked.trans hr)]

/-- A session that passes no interrupt on is cancelled by it, if it executes. -/
theorem called_of_not_routes (h : l.Sound) (hr : l.routes = false)
    (behind : List ExecutionState) : l.called behind = (l.executing, l.hit) := by
  rw [called_eq, hit, h.running, h.linked, hr]
  cases l.executing <;> rfl

end Level

namespace Run

variable {console : Console} {w w' : World} {levels levels' : List Level} {interrupts : Bool}
  {r r' : Run}

/-! ## The chain -/

/-- Each session but the last waits for one that is nested in it. -/
def WellNested (levels : List Level) : Prop :=
  ∀ p ∈ (levels.map (·.phase)).dropLast, p.nests = true

theorem wellNested_singleton (l : Level) : WellNested [l] := by
  intro p hp
  cases hp

theorem wellNested_cons_cons {l m : Level} {rest : List Level} :
    WellNested (l :: m :: rest) ↔ l.phase.nests = true ∧ WellNested (m :: rest) :=
  List.forall_mem_cons

/-- A session that was not executed has no other nested in it. -/
theorem eq_nil_of_fresh {l : Level} {rest : List Level} (h : WellNested (l :: rest))
    (hl : l.Sound) (hx : l.state.executed = false) : rest = [] := by
  cases rest with
  | nil => rfl
  | cons m rest =>
    have hnests := (wellNested_cons_cons.mp h).1
    rw [hl.fresh hx] at hnests
    cases hnests

theorem nested_stepped (hsound : ∀ l ∈ levels, l.Sound) (h : WellNested levels)
    (hs : Stepped console w levels levels' w' interrupts) : WellNested levels' := by
  induction hs with
  | last | leave | refuse => exact wellNested_singleton _
  | nest hstep =>
    obtain ⟨resume, next, hp⟩ := (Level.does_of_nests hstep).1.waits
    refine wellNested_cons_cons.mpr ⟨?_, wellNested_singleton _⟩
    rw [hp]
    rfl
  | @execute l m m' rest hm hx =>
    obtain ⟨-, hsoundRest⟩ := List.forall_mem_cons.mp hsound
    obtain ⟨hl, hrest⟩ := wellNested_cons_cons.mp h
    obtain ⟨hfresh, -⟩ := Level.execute_eq_ok_iff.mp hx
    obtain rfl := eq_nil_of_fresh hrest (hsoundRest m List.mem_cons_self) hfresh
    exact wellNested_cons_cons.mpr ⟨hl, wellNested_singleton m'⟩
  | @inner l m rest levels w' interrupts hm _ ih =>
    obtain ⟨-, hsoundRest⟩ := List.forall_mem_cons.mp hsound
    obtain ⟨hl, hrest⟩ := wellNested_cons_cons.mp h
    have hlevels := ih hsoundRest hrest
    cases levels with
    | nil => exact wellNested_singleton l
    | cons n more => exact wellNested_cons_cons.mpr ⟨hl, hlevels⟩

/-- A session waits for the one behind it. -/
theorem nests_of_wellNested {before after : List Level} {l m : Level}
    (h : WellNested (before ++ l :: m :: after)) : l.phase.nests = true := by
  induction before with
  | nil => exact (wellNested_cons_cons.mp h).1
  | cons x rest ih =>
    refine ih ?_
    cases rest with
    | nil => exact (wellNested_cons_cons.mp h).2
    | cons y rest => exact (wellNested_cons_cons.mp h).2

/-- An interrupt leaves each session where it stands. -/
theorem phases_interruptLevels (levels : List Level) :
    (interruptLevels levels).2.map (·.phase) = levels.map (·.phase) := by
  induction levels with
  | nil => rfl
  | cons l rest ih =>
    rw [interruptLevels_cons, List.map_cons, List.map_cons]
    congr 1
    split
    · exact ih
    · rfl

theorem nested_interruptAt (h : WellNested r.levels) (i : Nat) :
    WellNested (r.interruptAt i).2.levels := by
  unfold WellNested interruptAt
  rw [List.map_append, phases_interruptLevels, ← List.map_append, List.take_append_drop]
  exact h

theorem nested_step (hsound : ∀ l ∈ r.levels, l.Sound) (h : WellNested r.levels)
    (hs : r.step = .ok r') : WellNested r'.levels := by
  obtain ⟨levels, w, interrupts, hstepped, rfl⟩ := stepped_of_step hs
  have hlevels := nested_stepped hsound h hstepped
  cases interrupts with
  | false => exact hlevels
  | true =>
    have hinterrupted := nested_interruptAt (r := ⟨r.console, w, levels⟩) hlevels 0
    rwa [interruptAt_zero] at hinterrupted

theorem nested_execute (hsound : ∀ l ∈ r.levels, l.Sound) (h : WellNested r.levels)
    (hx : r.execute = .ok r') : WellNested r'.levels := by
  obtain ⟨l, l', rest, hl, he, rfl⟩ := execute_eq_ok hx
  rw [hl] at h hsound
  obtain ⟨hfresh, -⟩ := Level.execute_eq_ok_iff.mp he
  obtain rfl := eq_nil_of_fresh h (hsound l List.mem_cons_self) hfresh
  exact wellNested_singleton l'

/-- **In every run** that begins with one new session, the marks of each session tell where it
stands, and each but the last waits for the next one. -/
theorem sound_of_proceeds {l₀ : Level} (hnew : Level.New console l₀)
    (h : Relation.ReflTransGen Proceeds (ofLevel console w l₀) r) :
    (∀ l ∈ r.levels, l.Sound) ∧ WellNested r.levels := by
  have hsound : ∀ {r : Run}, Relation.ReflTransGen Proceeds (ofLevel console w l₀) r →
      ∀ l ∈ r.levels, l.Sound := fun {r} h =>
    (forall_of_proceeds (Level.carried_sound _).inherited h
      (List.forall_mem_singleton.mpr (Level.sound_of_new hnew))).2
  refine ⟨hsound h, ?_⟩
  induction h with
  | refl => exact wellNested_singleton l₀
  | tail hr hp ih =>
    cases hp with
    | step hs => exact nested_step (hsound hr) ih hs
    | interrupt i => exact nested_interruptAt ih i
    | execute hx => exact nested_execute (hsound hr) ih hx
    | world w => exact ih

/-! ## Where an interrupt goes -/

/-- **An interrupt comes to the first session that passes it to no other**, and changes nothing
else. -/
theorem interruptLevels_append {outer after : List Level} {last : Level}
    (hsound : ∀ l ∈ outer ++ last :: after, l.Sound) (houter : ∀ l ∈ outer, l.routes = true)
    (hlast : last.routes = false) : interruptLevels (outer ++ last :: after) =
      (last.executing, outer ++ last.hit :: after) := by
  induction outer with
  | nil =>
    have hl := hsound last List.mem_cons_self
    have hlinked : (last.state.running && last.state.linked) = false := by
      rw [hl.linked, hlast, Bool.and_false]
    rw [List.nil_append, interruptLevels_cons, Level.called_of_not_routes hl hlast, hlinked]
    rfl
  | cons l rest ih =>
    obtain ⟨hl, hrest⟩ := List.forall_mem_cons.mp hsound
    obtain ⟨hroutes, hinner⟩ := List.forall_mem_cons.mp houter
    have hpasses : (l.state.running && l.state.linked) = true := by
      rw [hl.running, Level.executing_of_routes hroutes, hl.linked, hroutes]
      rfl
    have hnext := ih hrest hinner
    have hhad : (ExecutionState.interrupt ((rest ++ last :: after).map (·.state))).1 =
        last.executing := congrArg Prod.fst hnext
    rw [List.cons_append, interruptLevels_cons, Level.called_of_routes hl hroutes, hpasses,
      if_pos rfl, hnext, hhad]
    rfl

theorem interruptAt_append {before outer after : List Level} {last : Level}
    (hsound : ∀ l ∈ r.levels, l.Sound) (he : r.levels = before ++ (outer ++ last :: after))
    (houter : ∀ l ∈ outer, l.routes = true) (hlast : last.routes = false) :
    r.interruptAt before.length =
      (last.executing, { r with levels := before ++ (outer ++ last.hit :: after) }) := by
  have hinner : ∀ l ∈ outer ++ last :: after, l.Sound := by
    intro l hl
    refine hsound l ?_
    rw [he]
    exact List.mem_append_right _ hl
  unfold interruptAt
  rw [he, List.drop_left, List.take_left, interruptLevels_append hinner houter hlast]

/-! ## The return from a nested session -/

/-- A step of a chain whose second session waits is a step of the chain behind the first. -/
theorem stepLevels_of_nests {l m : Level} {rest : List Level} (hm : m.phase.nests = true)
    (hs : stepLevels console w (m :: rest) = .moved levels w' interrupts) :
    stepLevels console w (l :: m :: rest) = .moved (l :: levels) w' interrupts := by
  rw [stepLevels]
  cases hp : m.phase with
  | nested resume next =>
    simp only
    rw [hs]
  | _ =>
    rw [hp] at hm
    cases hm

/-- The end of a nested session gives its result to the session that waits for it. -/
theorem stepLevels_of_over {before : List Level} {l m : Level}
    {result : Except Failure ExitCode} (h : WellNested (before ++ [l, m]))
    (hm : m.phase = .over result) :
    stepLevels console w (before ++ [l, m]) = .moved (before ++ [l.leave result]) w false := by
  induction before with
  | nil =>
    rw [List.nil_append, stepLevels, hm]
    rfl
  | cons x rest ih =>
    cases rest with
    | nil =>
      have hrest := (wellNested_cons_cons.mp h).2
      exact stepLevels_of_nests (wellNested_cons_cons.mp hrest).1 (ih hrest)
    | cons y rest =>
      have hrest := (wellNested_cons_cons.mp h).2
      have hy : y.phase.nests = true := by
        cases rest <;> exact (wellNested_cons_cons.mp hrest).1
      exact stepLevels_of_nests hy (ih hrest)

/-- A session that nobody is nested in any longer executes and routes no interrupts. -/
theorem executing_leave {l : Level} (h : l.phase.nests = true)
    (result : Except Failure ExitCode) :
    (l.leave result).executing = true ∧ (l.leave result).routes = false := by
  unfold Level.leave
  cases hp : l.phase with
  | nested resume next => exact ⟨rfl, rfl⟩
  | _ =>
    rw [hp] at h
    cases h

/-- The step behind the end of a nested session. -/
theorem step_of_over {before : List Level} {l m : Level} {result : Except Failure ExitCode}
    (h : WellNested r.levels) (he : r.levels = before ++ [l, m]) (hm : m.phase = .over result) :
    r.step = .ok { r with levels := before ++ [l.leave result] } := by
  rw [he] at h
  unfold step
  rw [he, stepLevels_of_over h hm]
  rfl

/-! ## Main statement -/

/-- **Where an interrupt goes**, in every run, at any depth.

A session that routes interrupts passes one on, at any number of them in a row, and the first that
does not is cancelled if it executes; the answer says whether it does, and nothing else changes.
When a nested session has ended, with whatever result, the next step is the return to the session
that waited for it, and an interrupt of that one cancels it. A session is marked as linked exactly
while it routes interrupts, and as running while it executes; so none is linked after its end. -/
theorem routing_of_proceeds {l₀ : Level} (hnew : Level.New console l₀)
    (h : Relation.ReflTransGen Proceeds (ofLevel console w l₀) r) :
    (∀ before outer last after, r.levels = before ++ (outer ++ last :: after) →
      (∀ l ∈ outer, l.routes = true) → last.routes = false →
      r.interruptAt before.length =
        (last.executing, { r with levels := before ++ (outer ++ last.hit :: after) })) ∧
    (∀ before l m result, r.levels = before ++ [l, m] → m.phase = .over result →
      ∃ r', r.step = .ok r' ∧ r'.levels = before ++ [l.leave result] ∧
        r'.interruptAt before.length = (true, { r' with levels := before ++ [{ l.leave result with
          state := { (l.leave result).state with cancelled := true } }] })) ∧
    (∀ l ∈ r.levels, l.state.linked = l.routes ∧ l.state.running = l.executing) ∧
    (∀ (l : Level) (result : Except Failure ExitCode), (l.finish result).state.linked = false ∧
      (l.finish result).routes = false) := by
  obtain ⟨hsound, hnested⟩ := sound_of_proceeds hnew h
  refine ⟨fun before outer last after he houter hlast => interruptAt_append hsound he houter hlast,
    ?_, fun l hl => ⟨(hsound l hl).linked, (hsound l hl).running⟩, fun l result => ⟨rfl, rfl⟩⟩
  intro before l m result he hm
  have hstep := step_of_over hnested he hm
  obtain ⟨hsound', -⟩ := sound_of_proceeds hnew (h.tail (.step hstep))
  obtain ⟨hexecuting, hroutes⟩ :=
    executing_leave (nests_of_wellNested (he ▸ hnested)) result
  refine ⟨_, hstep, rfl, ?_⟩
  have hnone : ∀ l ∈ ([] : List Level), l.routes = true := by simp
  have hinterrupt := interruptAt_append hsound' rfl hnone hroutes
  rw [hexecuting, Level.hit, if_pos hexecuting] at hinterrupt
  exact hinterrupt

/-! ### A shell in a shell in a shell -/

/-- What a run comes to of itself. -/
theorem proceeds_settle (n : Nat) (r : Run) :
    Relation.ReflTransGen Proceeds r (r.settle n).2 :=
  reflTransGen_settle (fun _ _ => .step) n r

/-- A console with subshells. -/
def shellConsole : Console where
  reader text := .ok (.complete [text])
  registry := ⟨[Bundle.ofList "" [("subshell", Builtin.subshell)]]⟩
  settings := { greeting := "" }

/-- Its shell, executed on a terminal on which two subshells are started. -/
def shellRun : Run where
  console := shellConsole
  world := { terminal := .scripted { cues := [.report (.ok (.line "subshell")),
    .report (.ok (.line "subshell"))], ended := false } }
  levels := [{ Level.shell shellConsole.settings [] {} with
    state := { executed := true, running := true }
    phase := .own (orClose (greet shellConsole.settings)) }]

/-- The run when the innermost shell waits for a line. -/
def waitingRun : Run :=
  (shellRun.settle 100).2

theorem proceeds_waitingRun : Relation.ReflTransGen Proceeds
    (ofLevel shellConsole shellRun.world (Level.shell shellConsole.settings [] {})) waitingRun :=
  .head (.execute rfl) (proceeds_settle 100 shellRun)

/-- An interrupt of the outermost of three shells cancels the innermost one. -/
theorem routing_shells : ∃ outer last, waitingRun.levels = outer ++ [last] ∧ outer.length = 2 ∧
    (∀ l ∈ outer, l.routes = true) ∧ last.routes = false ∧ last.executing = true ∧
    waitingRun.interruptAt 0 = (true, { waitingRun with levels := outer ++ [last.hit] }) := by
  obtain ⟨hroute, -⟩ := routing_of_proceeds (.shell [] {}) proceeds_waitingRun
  have hroutes : waitingRun.levels.map Level.routes = [true, true, false] := by decide +kernel
  have hexecuting : waitingRun.levels.getLast?.map Level.executing = some true := by
    decide +kernel
  obtain ⟨a, more, hlevels, ha, hmore⟩ := List.map_eq_cons_iff.mp hroutes
  obtain ⟨b, more, rfl, hb, hmore⟩ := List.map_eq_cons_iff.mp hmore
  obtain ⟨c, more, rfl, hc, hmore⟩ := List.map_eq_cons_iff.mp hmore
  obtain rfl := List.map_eq_nil_iff.mp hmore
  rw [hlevels] at hexecuting
  have hlast : c.executing = true := Option.some.inj hexecuting
  have houter : ∀ l ∈ [a, b], l.routes = true := by simp [ha, hb]
  have hinterrupt := hroute [] [a, b] c [] hlevels houter hc
  rw [hlast] at hinterrupt
  exact ⟨[a, b], c, hlevels, rfl, houter, hc, hlast, hinterrupt⟩

end Run

end CommandConsole
