import CommandConsole.Proofs.Session.Routing
import CommandConsole.Session.Completion

/-!
# The history of a session

A session is called to execute and to interrupt itself, by anyone, any number of times and in any
order, also while it executes. `Run.Befalls` is one thing that happens to a run, with the moments
it leaves in the history of the run's first session: a call with its answer, or the end of the
execution. `Run.History` is any number of them.

As in `Level.Undergoes`, the terminal may answer a session that is cancelled already (`answered`).
The execution may also be given up from outside (`abandon`); it has then ended as if interrupted.

Results: `executing_of_stepped` (what a step does to the first session), `lifespan_of_befalls` (one
thing that happens). Main statement: `lifespan_of_history` (the shape of every history).
-/

namespace CommandConsole

open Session

namespace Session

/-- A moment in the history of a session. -/
inductive Moment where
  /-- It was called to execute, and refused with an error or not. -/
  | executed (refusal : Option Failure)
  /-- It was called to interrupt itself, and answered whether that had an effect. -/
  | interrupted (had : Bool)
  /-- The execution has ended. -/
  | ended (result : Except Failure ExitCode)

/-- A call to execute a session that was executed before. -/
def Moment.refused : Moment :=
  .executed (some (.invalidState "already executed"))

/-- Whether a moment is a call that was refused or had no effect. -/
def Moment.vain : Moment → Bool
  | .executed refusal => refusal.isSome
  | .interrupted had => !had
  | .ended _ => false

/-- The call to interrupt its own shell that a command has made. -/
def Entry.call? : Entry → Option Moment
  | .used .interrupt had => some (.interrupted had)
  | _ => none

/-- The history of a session that executes at most once, by what has become of the session and of
those nested in it. -/
inductive Lifespan (l₀ : Level) : List Moment → List Level → Prop
  | waiting {before : List Moment} (hb : ∀ m ∈ before, m = .interrupted false) :
      Lifespan l₀ before [l₀]
  | executing {before during : List Moment} {l : Level} {rest : List Level}
      (hb : ∀ m ∈ before, m = .interrupted false)
      (hd : ∀ m ∈ during, m = .refused ∨ ∃ had, m = .interrupted had)
      (hl : l.executing = true) :
      Lifespan l₀ (before ++ .executed none :: during) (l :: rest)
  | ended {before during after : List Moment} {l : Level} {result : Except Failure ExitCode}
      (hb : ∀ m ∈ before, m = .interrupted false)
      (hd : ∀ m ∈ during, m = .refused ∨ ∃ had, m = .interrupted had)
      (ha : ∀ m ∈ after, m = .refused ∨ m = .interrupted false)
      (hl : l.phase = .over result) :
      Lifespan l₀ (before ++ .executed none :: during ++ .ended result :: after) [l]

variable {console : Console} {l l' l₀ : Level} {rest levels : List Level} {ms ms' : List Moment}

/-- The first of the sessions, and that it executes while others are nested in it. -/
theorem Lifespan.head (h : Lifespan l₀ ms levels) :
    ∃ l rest, levels = l :: rest ∧ (rest = [] ∨ l.executing = true) := by
  cases h with
  | waiting => exact ⟨_, [], rfl, .inl rfl⟩
  | executing _ _ hl => exact ⟨_, _, rfl, .inr hl⟩
  | ended => exact ⟨_, [], rfl, .inl rfl⟩

/-- The session goes on. -/
theorem Lifespan.goOn (h : Lifespan l₀ ms (l :: rest)) (hl₀ : l₀.executing = false)
    (hl : l.executing = true) (hm : ∀ m ∈ ms', m = .refused ∨ ∃ had, m = .interrupted had)
    (hl' : l'.executing = true) (rest' : List Level) : Lifespan l₀ (ms ++ ms') (l' :: rest') := by
  cases h with
  | waiting =>
    rw [hl₀] at hl
    cases hl
  | executing hb hd _ =>
    rw [List.append_assoc, List.cons_append]
    exact .executing hb (List.forall_mem_append.mpr ⟨hd, hm⟩) hl'
  | ended _ _ _ hp =>
    rw [Level.executing, hp] at hl
    cases hl

/-- The session ends. -/
theorem Lifespan.stop {result : Except Failure ExitCode} (h : Lifespan l₀ ms (l :: rest))
    (hl₀ : l₀.executing = false) (hl : l.executing = true)
    (hm : ∀ m ∈ ms', m = .refused ∨ ∃ had, m = .interrupted had)
    (hl' : l'.phase = .over result) : Lifespan l₀ (ms ++ (ms' ++ [.ended result])) [l'] := by
  cases h with
  | waiting =>
    rw [hl₀] at hl
    cases hl
  | @executing before during _ _ hb hd _ =>
    have he : before ++ Moment.executed none :: during ++ (ms' ++ [.ended result]) =
        before ++ .executed none :: (during ++ ms') ++ [.ended result] := by
      simp only [List.append_assoc, List.cons_append]
    rw [he]
    exact .ended hb (List.forall_mem_append.mpr ⟨hd, hm⟩) nofun hl'
  | ended _ _ _ hp =>
    rw [Level.executing, hp] at hl
    cases hl

/-- Calls to interrupt the session have no effect. -/
theorem Lifespan.still (h : Lifespan l₀ ms levels) (hm : ∀ m ∈ ms', m = .interrupted false) :
    Lifespan l₀ (ms ++ ms') levels := by
  cases h with
  | waiting hb => exact .waiting (List.forall_mem_append.mpr ⟨hb, hm⟩)
  | executing hb hd hl =>
    rw [List.append_assoc, List.cons_append]
    refine .executing hb (List.forall_mem_append.mpr ⟨hd, fun m hmem => ?_⟩) hl
    exact .inr ⟨false, hm m hmem⟩
  | ended hb hd ha hl =>
    rw [List.append_assoc, List.cons_append]
    refine .ended hb hd (List.forall_mem_append.mpr ⟨ha, fun m hmem => ?_⟩) hl
    exact .inr (hm m hmem)

/-- A session that was executed before refuses a call. -/
theorem Lifespan.refuse (h : Lifespan l₀ ms levels) (hx : levels ≠ [l₀]) :
    Lifespan l₀ (ms ++ [.refused]) levels := by
  cases h with
  | waiting => exact absurd rfl hx
  | executing hb hd hl =>
    rw [List.append_assoc, List.cons_append]
    refine .executing hb (List.forall_mem_append.mpr ⟨hd, ?_⟩) hl
    exact List.forall_mem_singleton.mpr (.inl rfl)
  | ended hb hd ha hl =>
    rw [List.append_assoc, List.cons_append]
    refine .ended hb hd (List.forall_mem_append.mpr ⟨ha, ?_⟩) hl
    exact List.forall_mem_singleton.mpr (.inl rfl)

/-- The session executes for the first time. -/
theorem Lifespan.begin (h : Lifespan l₀ ms (l :: rest)) (hl : l.executing = false)
    (hover : ∀ result, l.phase ≠ .over result) (hl' : l'.executing = true) :
    Lifespan l₀ (ms ++ [.executed none]) (l' :: rest) := by
  cases h with
  | waiting hb => exact .executing hb nofun hl'
  | executing _ _ hexecuting => exact absurd hexecuting (by simp [hl])
  | ended _ _ _ hp => exact absurd hp (hover _)

end Session

namespace Run

variable {console : Console} {w w' : World} {l l' l₀ : Level} {levels levels' rest : List Level}
  {interrupts : Bool} {r r' r₀ : Run} {ms ms' : List Moment}

/-! ## What happens to a run -/

/-- Calls the outermost session to execute: with what it was refused, if it was, and the run after
the call. -/
def callExecute (r : Run) : Option Failure × Run :=
  match r.execute with
  | .ok r' => (none, r')
  | .error e => (some e, r)

/-- The calls to interrupt the first session that its own commands make in a step. -/
def ownCalls (r : Run) : List Moment :=
  match r.levels with
  | [l] => if l.forwards then (l.logged r.console r.world).filterMap Entry.call? else []
  | _ => []

/-- The end of the first session, if that is what has happened. -/
def endings (r r' : Run) : List Moment :=
  match r.result?, r'.result? with
  | none, some result => [.ended result]
  | _, _ => []

/-- One thing that happens to a run, with the moments it leaves in the history of its first
session. -/
inductive Befalls : Run → List Moment → Run → Prop
  | step {r : Run} {levels : List Level} {w : World} {interrupts : Bool}
      (h : Stepped r.console r.world r.levels levels w interrupts) :
      Befalls r (r.ownCalls ++ r.endings { r with levels := levels, world := w })
        { r with levels := levels, world := w }
  /-- The terminal answers first, though the innermost session is cancelled. -/
  | answered {r : Run} {outer : List Level} {l : Level} {q : Request} {next : Answer q → Plan Next}
      (hl : r.levels = outer ++ [l]) (hp : l.phase = .own (.ask q next))
      (hq : (∃ text, q = .prompt text) ∨ ∃ text, q = .event text) (a : Answer q) :
      Befalls r [] { r with levels := outer ++ [l.goto (.own (next a))] }
  | execute (r : Run) : Befalls r [.executed r.callExecute.1] r.callExecute.2
  | interrupt (r : Run) : Befalls r [.interrupted r.interrupt.1] r.interrupt.2
  /-- A nested session is interrupted. -/
  | interruptInner (r : Run) (i : Nat) : Befalls r [] (r.interruptAt (i + 1)).2
  | abandon {r : Run} (h : (r.levels.head?.any Level.executing) = true) :
      Befalls r (r.endings r.abandon) r.abandon
  | world (r : Run) (w : World) : Befalls r [] { r with world := w }

/-- What has become of a run, with the history of its first session. -/
inductive History (r₀ : Run) : List Moment → Run → Prop
  | refl : History r₀ [] r₀
  | tail {ms ms' : List Moment} {r r' : Run} (h : History r₀ ms r) (hb : Befalls r ms' r') :
      History r₀ (ms ++ ms') r'

theorem History.single (hb : Befalls r ms r') : History r ms r' := by
  simpa using History.refl.tail hb

theorem History.trans (h : History r₀ ms r) (h' : History r ms' r') :
    History r₀ (ms ++ ms') r' := by
  induction h' with
  | refl => simpa using h
  | tail _ hb ih =>
    rw [← List.append_assoc]
    exact ih.tail hb

/-! ## Calls in vain -/

theorem callExecute_of_ok (h : r.execute = .ok r') : r.callExecute = (none, r') := by
  rw [callExecute, h]

theorem befalls_of_execute (h : r.execute = .ok r') : Befalls r [.executed none] r' := by
  have hcall := Befalls.execute r
  rwa [callExecute_of_ok h] at hcall

theorem callExecute_of_error {e : Failure} (h : r.execute = .error e) :
    r.callExecute = (some e, r) := by
  rw [callExecute, h]

/-- An interrupt without effect changes nothing. -/
theorem interruptLevels_of_false (h : (interruptLevels levels).1 = false) :
    (interruptLevels levels).2 = levels := by
  have hstates : (ExecutionState.interrupt (levels.map (·.state))).1 = false := h
  simp only [interruptLevels]
  rw [ExecutionState.interrupt_eq_false hstates, zipWith_state]

theorem interruptAt_of_false {i : Nat} (h : (r.interruptAt i).1 = false) :
    (r.interruptAt i).2 = r := by
  have hinner : (interruptLevels (r.levels.drop i)).1 = false := h
  unfold interruptAt
  simp only [interruptLevels_of_false hinner, List.take_append_drop]

theorem interrupt_of_false (h : r.interrupt.1 = false) : r.interrupt.2 = r := by
  rw [← interruptAt_zero] at h ⊢
  exact interruptAt_of_false h

/-- A session that was executed before refuses to execute, and nothing happens. -/
theorem callExecute_of_executed (hl : r.levels = l :: rest) (hx : l.state.executed = true) :
    r.callExecute = (some (.invalidState "already executed"), r) := by
  refine callExecute_of_error ?_
  simp only [execute, hl, Level.execute, ExecutionState.begin, hx, if_true]
  rfl

theorem executeToEnd_of_executed (hl : r.levels = l :: rest) (hx : l.state.executed = true) :
    r.executeToEnd = (.ended (.error (.invalidState "already executed")), r) := by
  simp only [executeToEnd, execute, hl, Level.execute, ExecutionState.begin, hx, if_true]
  rfl

/-- A new session executes, uncancelled. -/
theorem callExecute_of_new (hnew : Level.New r.console l) (hl : r.levels = [l]) :
    r.callExecute = (none, { r with levels := [{ l with
      state := { executed := true, running := true }
      phase := .own (l.opening r.console) }] }) := by
  refine callExecute_of_ok ?_
  unfold execute
  rw [hl]
  cases hnew <;> rfl

/-! ## One step -/

/-- A session executes until it has ended. -/
theorem executing_of_does {entries : List Entry} (h : Level.Does console w l entries l')
    (hl : l.executing = true) : l'.executing = true ∨ ∃ result, l'.phase = .over result := by
  cases h with
  | ended hp => exact .inr ⟨_, rfl⟩
  | waited => exact .inl hl
  | nested hp hr => exact .inl rfl
  | _ => exact .inl rfl

theorem executing_leave_iff (l : Level) (result : Except Failure ExitCode) :
    (l.leave result).executing = l.executing := by
  unfold Level.leave
  split
  next hp => simp [Level.executing, hp]
  · rfl

/-- **What a step does to the first session** of a chain: the step is one of a session that
executes, and this one goes on, or it has ended and no other is nested in it. -/
theorem executing_of_stepped (h : Stepped console w (l :: rest) levels' w' interrupts)
    (hsecond : rest = [] ∨ l.executing = true) : l.executing = true ∧
      ∃ l' rest', levels' = l' :: rest' ∧
        (l'.executing = true ∨ rest' = [] ∧ ∃ result, l'.phase = .over result) := by
  cases h with
  | last hs =>
    have hl := executing_of_step (.inl ⟨_, _, hs⟩)
    refine ⟨hl, _, [], rfl, ?_⟩
    exact (executing_of_does (Level.does_of_step hs) hl).imp_right fun hover => ⟨rfl, hover⟩
  | nest hs =>
    have hl := executing_of_step (.inr ⟨_, _, hs⟩)
    obtain ⟨resume, next, hp⟩ := (Level.does_of_nests hs).1.waits
    exact ⟨hl, _, _, rfl, .inl (by rw [Level.executing, hp])⟩
  | leave | refuse =>
    have hl := hsecond.resolve_left (List.cons_ne_nil _ _)
    exact ⟨hl, _, [], rfl, .inl (by rwa [executing_leave_iff])⟩
  | execute | inner =>
    have hl := hsecond.resolve_left (List.cons_ne_nil _ _)
    exact ⟨hl, _, _, rfl, .inl hl⟩

/-- An entry of a command is the answer to the request that the command has come to. -/
theorem granted_of_mem_logged {q : Command.Request} {a : Command.Answer q}
    (h : .used q a ∈ l.logged console w) : ∃ more next,
      l.phase = .command (.ask q more) next ∧ l.grant? console w q = some a := by
  unfold Level.logged at h
  split at h
  · simp at h
  · simp at h
  next q' more next hp =>
    rw [Option.mem_toList] at h
    obtain ⟨a', ha, he⟩ := Option.map_eq_some_iff.mp h
    cases he
    exact ⟨more, next, hp, ha⟩
  · simp at h
  · cases h

/-- A command's call to interrupt its own shell is always heard. -/
theorem eq_of_mem_ownCalls {m : Moment} (hsound : ∀ l ∈ r.levels, l.Sound) (hm : m ∈ r.ownCalls) :
    m = .interrupted true := by
  unfold ownCalls at hm
  split at hm
  next l hl =>
    have hs : l.Sound := hsound l (by rw [hl]; exact List.mem_cons_self)
    split at hm
    next hforwards =>
      obtain ⟨x, hx, hcall⟩ := List.mem_filterMap.mp hm
      unfold Entry.call? at hcall
      split at hcall
      next had =>
        obtain ⟨more, next, hp, ha⟩ := granted_of_mem_logged hx
        have hrunning : l.state.running = true := by rw [hs.running, Level.executing, hp]
        have hlinked : l.state.linked = false := by
          rw [hs.linked, Level.routes, hp]
          rfl
        have hshell : l.shellArgs?.isSome = true := hforwards
        have hgrant : l.grant? r.console r.world .interrupt = some true := by
          simp only [Level.grant?, hshell, ExecutionState.interrupt, hrunning, hlinked]
          rfl
        have hhad : had = true := Option.some.inj (ha.symm.trans hgrant)
        rw [← Option.some.inj hcall, hhad]
      · cases hcall
    · cases hm
  · cases hm

/-- Nothing that happens takes away that the marks of each session tell where it stands. -/
theorem sound_of_befalls (h : Befalls r ms r') (hsound : ∀ l ∈ r.levels, l.Sound) :
    r'.console = r.console ∧ ∀ l ∈ r'.levels, l.Sound := by
  cases h with
  | step hs => exact ⟨rfl, forall_stepped (Level.carried_sound _).inherited hsound hs⟩
  | @answered outer l _ _ hl hp _ a =>
    rw [hl] at hsound
    obtain ⟨houter, hlast⟩ := List.forall_mem_append.mp hsound
    have hs : l.Sound := hlast l List.mem_cons_self
    refine ⟨rfl, List.forall_mem_append.mpr ⟨houter, List.forall_mem_singleton.mpr ?_⟩⟩
    exact hs.within (by rw [Level.executing, hp]) (by rw [Level.routes, hp]; rfl)
      ⟨rfl, rfl, rfl⟩ rfl rfl
  | execute =>
    cases hx : r.execute with
    | error e =>
      rw [callExecute_of_error hx]
      exact ⟨rfl, hsound⟩
    | ok r' =>
      rw [callExecute_of_ok hx]
      exact forall_execute (Level.carried_sound _).inherited hsound hx
  | interrupt => exact ⟨rfl, forall_interruptLevels (Level.carried_sound r.console).inherited hsound⟩
  | interruptInner i => exact ⟨rfl, forall_interruptAt (Level.carried_sound _).inherited hsound (i + 1)⟩
  | abandon hexecuting =>
    refine ⟨rfl, fun l hl => ?_⟩
    obtain ⟨m, hm, rfl⟩ := List.mem_map.mp hl
    have hs := hsound m (List.mem_of_mem_take hm)
    cases hlevels : r.levels with
    | nil => simp [hlevels] at hm
    | cons first rest =>
      rw [hlevels] at hm hexecuting
      obtain rfl : m = first := by simpa using hm
      have hexecuted := hs.executed hexecuting
      refine ⟨rfl, rfl, fun hx => ?_⟩
      cases hexecuted.symm.trans hx
  | world w => exact ⟨rfl, hsound⟩

theorem sound_of_history (hnew : Level.New console l₀)
    (h : History (ofLevel console w l₀) ms r) : r.console = console ∧ ∀ l ∈ r.levels, l.Sound := by
  induction h with
  | refl => exact ⟨rfl, List.forall_mem_singleton.mpr (Level.sound_of_new hnew)⟩
  | tail _ hb ih =>
    obtain ⟨hconsole, hsound⟩ := sound_of_befalls hb ih.2
    exact ⟨hconsole.trans ih.1, hsound⟩

/-! ## The shape of a history -/

theorem executing_of_new (h : Level.New console l) : l.executing = false := by
  cases h <;> rfl

theorem result?_of_executing (hl : r.levels = l :: rest) (hx : l.executing = true) :
    r.result? = none := by
  unfold result?
  rw [hl]
  simp only
  split
  next hp =>
    rw [Level.executing, hp] at hx
    cases hx
  · rfl

theorem result?_of_over {result : Except Failure ExitCode} (hl : r.levels = l :: rest)
    (hp : l.phase = .over result) : r.result? = some result := by
  unfold result?
  rw [hl]
  simp only [hp]

theorem endings_of_executing (hl : r.levels = l :: rest) (hx : l.executing = true)
    (hl' : r'.levels = l' :: levels) (hx' : l'.executing = true) : r.endings r' = [] := by
  rw [endings, result?_of_executing hl hx, result?_of_executing hl' hx']

theorem endings_of_over {result : Except Failure ExitCode} (hl : r.levels = l :: rest)
    (hx : l.executing = true) (hl' : r'.levels = l' :: levels) (hp : l'.phase = .over result) :
    r.endings r' = [.ended result] := by
  rw [endings, result?_of_executing hl hx, result?_of_over hl' hp]

theorem running_of_interruptLevels (h : (interruptLevels (l :: rest)).1 = true) :
    l.state.running = true := by
  have hcall : (l.called (rest.map (·.state))).1 = true := by rwa [interruptLevels_cons] at h
  rw [Level.called_eq] at hcall
  cases hr : l.state.running with
  | true => rfl
  | false =>
    rw [hr] at hcall
    cases hcall

/-- The first session of a chain that was interrupted stands where it stood. -/
theorem interruptLevels_eq_cons (l : Level) (rest : List Level) :
    ∃ l' rest', (interruptLevels (l :: rest)).2 = l' :: rest' ∧ l'.executing = l.executing := by
  refine ⟨_, _, congrArg Prod.snd (interruptLevels_cons l rest), ?_⟩
  rcases Level.called_snd l (rest.map (·.state)) with he | ⟨-, he⟩ <;> rw [he]
  rfl

/-- A session refuses to execute if and only if it was executed before. -/
theorem execute_eq_error_iff {e : Failure} (hl : r.levels = l :: rest) : r.execute = .error e ↔
    l.state.executed = true ∧ e = .invalidState "already executed" := by
  simp only [execute, hl, Level.execute, ExecutionState.begin]
  cases l.state.executed <;> simp [Except.map, eq_comm]

/-- A call to execute the session. -/
theorem lifespan_of_execute (hnew : Level.New console l₀) (hl : r.levels = l :: rest)
    (hs : l.Sound) (h : Lifespan l₀ ms (l :: rest)) :
    Lifespan l₀ (ms ++ [.executed r.callExecute.1]) r.callExecute.2.levels := by
  cases hx : r.execute with
  | error e =>
    obtain ⟨hexecuted, rfl⟩ := (execute_eq_error_iff hl).mp hx
    rw [callExecute_of_error hx, hl]
    refine h.refuse ?_
    rintro ⟨⟩
    cases hnew <;> cases hexecuted
  | ok r' =>
    rw [callExecute_of_ok hx]
    obtain ⟨m, l', rest', hm, hexecute, rfl⟩ := execute_eq_ok hx
    obtain ⟨rfl, rfl⟩ := List.cons.inj (hl.symm.trans hm)
    obtain ⟨hexecuted, rfl⟩ := Level.execute_eq_ok_iff.mp hexecute
    have hidle := hs.fresh hexecuted
    exact h.begin (by rw [Level.executing, hidle]) (by simp [hidle]) rfl

/-- A call to interrupt the session. -/
theorem lifespan_of_interrupt (hl₀ : l₀.executing = false) (hl : r.levels = l :: rest)
    (hs : l.Sound) (h : Lifespan l₀ ms (l :: rest)) :
    Lifespan l₀ (ms ++ [.interrupted r.interrupt.1]) r.interrupt.2.levels := by
  cases hhad : r.interrupt.1 with
  | false =>
    rw [interrupt_of_false hhad, hl]
    exact h.still (List.forall_mem_singleton.mpr rfl)
  | true =>
    have hcall : (interruptLevels (l :: rest)).1 = true := by rw [← hl]; exact hhad
    have hx := hs.running.symm.trans (running_of_interruptLevels hcall)
    obtain ⟨l', rest', he, hx'⟩ := interruptLevels_eq_cons l rest
    have hlevels : r.interrupt.2.levels = l' :: rest' := by rw [← he, ← hl]; rfl
    rw [hlevels]
    exact h.goOn hl₀ hx (List.forall_mem_singleton.mpr (.inr ⟨true, rfl⟩)) (hx'.trans hx) rest'

/-- A call to interrupt a nested session. -/
theorem lifespan_of_interruptInner (hl₀ : l₀.executing = false) (hl : r.levels = l :: rest)
    (hfirst : rest = [] ∨ l.executing = true) (h : Lifespan l₀ ms (l :: rest)) (i : Nat) :
    Lifespan l₀ (ms ++ []) (r.interruptAt (i + 1)).2.levels := by
  rcases hfirst with rfl | hx
  · have hnone : (interruptLevels (r.levels.drop (i + 1))).1 = false := by
      rw [hl, List.drop_succ_cons, List.drop_nil]
      rfl
    have he : (r.interruptAt (i + 1)).2 = r := interruptAt_of_false hnone
    rw [he, hl]
    exact h.still (List.forall_mem_nil _)
  · obtain ⟨rest', hlevels⟩ : ∃ rest', (r.interruptAt (i + 1)).2.levels = l :: rest' := by
      unfold interruptAt
      rw [hl]
      exact ⟨_, rfl⟩
    rw [hlevels]
    exact h.goOn hl₀ hx (List.forall_mem_nil _) hx rest'

/-- **One thing that happens** keeps the history of a session in shape. -/
theorem lifespan_of_befalls (hnew : Level.New console l₀) (hsound : ∀ l ∈ r.levels, l.Sound)
    (h : Lifespan l₀ ms r.levels) (hb : Befalls r ms' r') : Lifespan l₀ (ms ++ ms') r'.levels := by
  have hl₀ := executing_of_new hnew
  obtain ⟨l, rest, hl, hfirst⟩ := h.head
  rw [hl] at h
  have hs : l.Sound := hsound l (by rw [hl]; exact List.mem_cons_self)
  cases hb with
  | @step levels w interrupts hstepped =>
    have hcalls : ∀ m ∈ r.ownCalls, m = .refused ∨ ∃ had, m = .interrupted had :=
      fun m hm => .inr ⟨true, eq_of_mem_ownCalls hsound hm⟩
    rw [hl] at hstepped
    obtain ⟨hx, l', rest', rfl, hx' | ⟨rfl, result, hp⟩⟩ := executing_of_stepped hstepped hfirst
    · rw [endings_of_executing hl hx rfl hx', List.append_nil]
      exact h.goOn hl₀ hx hcalls hx' rest'
    · rw [endings_of_over hl hx rfl hp]
      exact h.stop hl₀ hx hcalls hp
  | @answered outer last q next hlevels hp _ a =>
    rw [hl] at hlevels
    cases outer with
    | nil =>
      obtain ⟨rfl, -⟩ := List.cons.inj hlevels
      exact h.goOn hl₀ (by rw [Level.executing, hp]) (List.forall_mem_nil _) rfl []
    | cons first outer =>
      obtain ⟨rfl, rfl⟩ := List.cons.inj hlevels
      have hx := hfirst.resolve_left (by simp)
      exact h.goOn hl₀ hx (List.forall_mem_nil _) hx _
  | execute => exact lifespan_of_execute hnew hl hs h
  | interrupt => exact lifespan_of_interrupt hl₀ hl hs h
  | interruptInner i => exact lifespan_of_interruptInner hl₀ hl hfirst h i
  | abandon hx =>
    rw [hl] at hx
    have hlevels : r.abandon.levels = [l.finish (.error .interrupted)] := by rw [abandon, hl]; rfl
    rw [endings_of_over hl hx hlevels rfl, hlevels]
    exact h.stop hl₀ hx (List.forall_mem_nil _) rfl
  | world w =>
    simp only [hl]
    exact h.still (List.forall_mem_nil _)

/-- **The shape of every history**: a session executes at most once. -/
theorem lifespan_of_history (hnew : Level.New console l₀)
    (h : History (ofLevel console w l₀) ms r) : Lifespan l₀ ms r.levels := by
  induction h with
  | refl => exact .waiting nofun
  | tail h hb ih => exact lifespan_of_befalls hnew (sound_of_history hnew h).2 ih hb

end Run

end CommandConsole
