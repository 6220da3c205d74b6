import CommandConsole.Proofs.Command.Modesty
import CommandConsole.Proofs.Session.Hearing
import CommandConsole.Proofs.Session.Interrupts
import CommandConsole.Proofs.Session.Routing
import CommandConsole.Proofs.Session.Thrift

/-!
# What is told of a shell

A `Story` is what is told of one shell: its log, how many steps it took, how many nested shells it
has started, and how many interrupts have cancelled it. `Level.Fares` is what becomes of a shell on a
terminal on streams, with its story.

A shell whose commands are all built-in lives on the lines that it hears and on the interrupts that
cancel it: they bound all that is told of it. Each bound is an account that every change of the shell
keeps balanced.

Results: `past_of_fares`, `spares_of_fares` (what its commands may still do), `steps_of_fares`,
`owes_of_fares` (its interrupts). Main statement: `bounds_of_fares`.
-/

namespace CommandConsole

open Session Builtin

namespace Session

/-- What is told of a shell. -/
structure Story where
  log : List Entry := []
  /-- The steps that it took. -/
  steps : Nat := 0
  /-- The nested shells that it has started. -/
  opened : Nat := 0
  /-- The interrupts that have cancelled it. -/
  hits : Nat := 0

namespace Story

/-- The shell takes a step with some entries. -/
def goOn (s : Story) (entries : List Entry) : Story :=
  { s with log := s.log ++ entries, steps := s.steps + 1 }

/-- The shell starts a nested one. -/
def opens (s : Story) : Story :=
  { s with steps := s.steps + 1, opened := s.opened + 1 }

/-- An interrupt comes, of which the shell is cancelled or not. -/
def called (s : Story) (l l' : Level) : Story :=
  { s with hits := s.hits + (l'.state.cancelled && !l.state.cancelled).toNat }

end Story

/-- What a command did, or its end. -/
def Entry.isDone : Entry → Bool
  | .used .. | .ended _ => true
  | _ => false

/-- Where a shell stands, its command leaves at most `n` entries more, with its end, and starts at
most `k` nested shells. -/
def Phase.Allows (n k : Nat) : Phase → Prop
  | .command script _ => ∃ m, n = m + 1 ∧ Command.Modest m k script
  | .nested resume _ => ∃ m, n = m + 1 ∧ ∀ result, Command.Modest m k (resume result)
  | .idle | .own _ | .over _ => True

/-- The interrupt that a shell owes to its next prompt, by what is left to be handled, cancelled or
not. -/
def Concern.owes (cancelled : Bool) : Concern → Nat
  | .prompt => 0
  | .nothing | .command => cancelled.toNat

theorem Concern.owes_true_le (s : Concern) (cancelled : Bool) :
    s.owes true ≤ s.owes cancelled + (true && !cancelled).toNat := by
  cases s <;> cases cancelled <;> decide

theorem owes_see {c : ExecutionState} {s : Concern} {x : Entry} (h : handling.Permits s x)
    (hx : x.isInterrupted = true → c.cancelled = true) (hused : ∀ a, x ≠ .used .interrupt a) :
    x.isInterrupted.toNat + (s.see x).owes (x.onState c).cancelled ≤ s.owes c.cancelled := by
  have hsame : ∀ n, false.toNat + n ≤ n := fun n => Nat.le_of_eq (Nat.zero_add n)
  cases x with
  | began | ended =>
    obtain rfl := h
    exact hsame _
  | used r a =>
    obtain rfl := h
    cases r with
    | interrupt => exact absurd rfl (hused a)
    | _ => exact hsame _
  | asked r a =>
    cases r with
    | renew => exact Nat.zero_le _
    | isCancelled =>
      obtain rfl := h
      cases a <;> exact hsame _
    | event prompt =>
      obtain rfl := h
      match a with
      | .ok .interrupted =>
        have hc := hx rfl
        rw [hc]
        exact Nat.le_refl 1
      | .error fault | .ok .endOfInput | .ok (.line text) => exact hsame _
    | write | flush | exitValue | prompt | resolve | run => exact hsame _

/-- How many steps a shell that stands there may take at once without an entry. -/
def Phase.slack : Phase → Nat
  | .idle => 2
  | .own (.done _) | .nested .. => 1
  | .own (.ask ..) | .command .. | .over _ => 0

theorem Phase.slack_le (phase : Phase) : phase.slack ≤ 2 := by
  unfold Phase.slack
  split <;> decide

theorem Phase.slack_own_le (plan : Plan Next) : (Phase.own plan).slack ≤ 1 := by
  cases plan with
  | done x => exact Nat.le_refl 1
  | ask r next => exact Nat.zero_le 1

theorem Phase.eq_nested_of_nests {phase : Phase} (h : phase.nests = true) :
    ∃ resume next, phase = .nested resume next := by
  cases phase with
  | nested resume next => exact ⟨resume, next, rfl⟩
  | _ => cases h

/-- Each entry is of the shell's own plan, or of the beginning of a command, or behind it. -/
theorem length_eq_countP (log : List Entry) : log.length =
    log.countP Entry.isAsked + log.countP Entry.isBegan + log.countP Entry.isDone := by
  induction log with
  | nil => rfl
  | cons x rest ih =>
    rw [List.length_cons, List.countP_cons, List.countP_cons, List.countP_cons, ih]
    cases x <;> simp [Entry.isAsked, Entry.isBegan, Entry.isDone] <;> omega

end Session

namespace Level

/-- What becomes of a shell on a terminal on streams, with what is told of it. A line and an
interrupt may come at the same moment, and then either is heard first. -/
inductive Fares (console : Console) (l₀ : Level) : Story → Level → Prop
  | start : Fares console l₀ {} l₀
  | moved {s : Story} {l l' : Level} {w w' : World} {t : PlainTerminal} {interrupts : Bool}
      (h : Fares console l₀ s l) (ht : w.terminal = .plain t)
      (hs : l.step console w = .moved l' w' interrupts) :
      Fares console l₀ (s.goOn (l.logged console w)) l'
  | nested {s : Story} {l l' child : Level} {w w' : World} (h : Fares console l₀ s l)
      (hs : l.step console w = .nests l' child w') : Fares console l₀ s.opens l'
  /-- The shell nested in it has ended. -/
  | left {s : Story} {l : Level} (h : Fares console l₀ s l) (hn : l.phase.nests = true)
      (result : Except Failure ExitCode) : Fares console l₀ (s.goOn []) (l.leave result)
  | executed {s : Story} {l l' : Level} (h : Fares console l₀ s l)
      (hx : l.execute console = .ok l') : Fares console l₀ (s.goOn []) l'
  | called {s : Story} {l : Level} (h : Fares console l₀ s l) (behind : List ExecutionState) :
      Fares console l₀ (s.called l (l.called behind).2) (l.called behind).2
  /-- The prompt is shown, and may fail, though the shell is cancelled. -/
  | prompted {s : Story} {l : Level} {text : String} {next : Answer (.prompt text) → Plan Next}
      (h : Fares console l₀ s l) (hp : l.phase = .own (.ask (.prompt text) next))
      (a : Answer (.prompt text)) :
      Fares console l₀ (s.goOn [.asked (.prompt text) a]) (l.goto (.own (next a)))
  /-- The terminal answers first, though the shell is cancelled. -/
  | heard {s : Story} {l : Level} {text : String} {next : Answer (.event text) → Plan Next}
      (h : Fares console l₀ s l) (hp : l.phase = .own (.ask (.event text) next))
      (e : Answer (.event text)) (he : e ≠ .ok .interrupted) :
      Fares console l₀ (s.goOn [.asked (.event text) e]) (l.goto (.own (next e)))

variable {console : Console} {w w' : World} {t : PlainTerminal} {l l' l₀ child : Level} {s : Story}
  {entries : List Entry} {interrupts : Bool} {args : List String} {env : Environment}

/-- One change more, with the entries that it leaves. -/
theorem exists_past_goOn {marks : List Mark}
    (h : ∃ past, Past console l₀ past l ∧ logOf past = s.log) (hu : Undergoes console l marks l')
    (hmarks : logOf marks = entries) :
    ∃ past, Past console l₀ past l' ∧ logOf past = (s.goOn entries).log := by
  obtain ⟨past, hpast, hlog⟩ := h
  refine ⟨_, hpast.tail hu, ?_⟩
  rw [logOf_append, hlog, hmarks, Story.goOn]

/-- The story of a shell is of its past. -/
theorem past_of_fares (h : Fares console l₀ s l) :
    ∃ past, Past console l₀ past l ∧ logOf past = s.log := by
  -- A change without entries leaves the log as it is.
  have hsilent : ∀ s : Story, (s.goOn []).log = s.log := fun s => List.append_nil s.log
  induction h with
  | start => exact ⟨[], .refl, rfl⟩
  | moved _ ht hs ih => exact exists_past_goOn ih (.step hs) (logOf_marks _ _)
  | @nested s l l' child w w' _ hs ih =>
    have hmarks : logOf (l.marks (l.logged console w)) = [] := by
      rw [logOf_marks, (does_of_nests hs).1.silent]
    exact hsilent s ▸ exists_past_goOn ih (.nest hs) hmarks
  | left _ hn result ih => exact exists_past_goOn ih (.leave _ result) rfl
  | executed _ hx ih => exact exists_past_goOn ih (.execute hx) rfl
  | @called s l _ behind ih => exact hsilent s ▸ exists_past_goOn ih (.call _ behind) rfl
  | prompted _ hp a ih => exact exists_past_goOn ih (.prompted hp a) (logOf_marks _ _)
  | heard _ hp e _ ih => exact exists_past_goOn ih (.heard hp e) (logOf_marks _ _)

/-- A shell asks for no more than it has left. -/
theorem thrift_of_fares (h : Fares console (Level.shell console.settings args env) s l) :
    thrift.Kept (Level.shell console.settings args env) s.log l := by
  obtain ⟨past, hpast, hlog⟩ := past_of_fares h
  exact hlog ▸ kept_thrift hpast

/-- A shell goes on, or it has its partings behind what stopped it. -/
theorem course_of_fares (h : Fares console (Level.shell console.settings args env) s l) :
    Course console s.log := by
  obtain ⟨past, hpast, hlog⟩ := past_of_fares h
  exact hlog ▸ course_of_permitted (kept_ending hpast).permitted

/-- What a shell finds for its words is what they name. -/
theorem resolve_of_fares (h : Fares console l₀ s l) :
    ∀ words a, .asked (.resolve words) a ∈ s.log → a = console.resolve (.words words) := by
  induction h with
  | start => simp
  | moved _ ht hs ih =>
    intro words a hmem
    rcases List.mem_append.mp hmem with hmem | hmem
    · exact ih words a hmem
    · have hdoes := does_of_step hs
      generalize Level.logged console _ _ = entries at hmem hdoes
      cases hdoes with
      | asked hp hr ha =>
        cases List.mem_singleton.mp hmem
        exact (Option.some.inj ha).symm
      | again | ended | waited | invoked | nested => cases hmem
      | began | returned | used => cases List.mem_singleton.mp hmem
  | nested _ _ ih | called _ _ ih => exact ih
  | left _ _ _ ih | executed _ _ ih =>
    intro words a hmem
    rw [Story.goOn, List.append_nil] at hmem
    exact ih words a hmem
  | prompted _ _ _ ih | heard _ _ _ _ ih =>
    intro words a hmem
    rcases List.mem_append.mp hmem with hmem | hmem
    · exact ih words a hmem
    · cases List.mem_singleton.mp hmem

/-- A command that a shell is about to run was found for its words. -/
theorem resolved_of_fares {P : Binding → Prop}
    (hP : ∀ words b, console.resolve (.words words) = .ok b → P b)
    (h : Fares console (Level.shell console.settings args env) s l) {b : Binding}
    {next : Answer (.run b) → Plan Next} (hp : l.phase = .own (.ask (.run b) next)) : P b := by
  have hstands := (thrift_of_fares h).stands
  rw [hp] at hstands
  obtain ⟨-, -, hfound⟩ := hstands.1
  refine resolved_of_found (fun words b hmem => hP words b ?_) hfound
  exact (resolve_of_fares h words _ hmem).symm

/-! ## What its commands may still do -/

/-- The commands of a shell have done no more, and may do no more, than each of them may. -/
def Spares (l : Level) (s : Story) : Prop :=
  ∃ n k, l.phase.Allows n k ∧ s.log.countP Entry.isDone + n ≤ 4 * s.log.countP Entry.isBegan ∧
    s.opened + k ≤ s.log.countP Entry.isBegan

/-- The shell goes on with some entries. -/
theorem spares_goOn {n k : Nat} (ha : l.phase.Allows n k)
    (hdone : s.log.countP Entry.isDone + entries.countP Entry.isDone + n ≤
      4 * (s.log.countP Entry.isBegan + entries.countP Entry.isBegan))
    (hopened : s.opened + k ≤ s.log.countP Entry.isBegan + entries.countP Entry.isBegan) :
    l.Spares (s.goOn entries) := by
  refine ⟨n, k, ha, ?_, ?_⟩
  · rw [Story.goOn, List.countP_append, List.countP_append]
    exact hdone
  · rw [Story.goOn, List.countP_append]
    exact hopened

/-- No command may do more, and none has done anything. -/
theorem Spares.rest (h : l.Spares s) (ha : l'.phase.Allows 0 0)
    (hquiet : entries.countP Entry.isDone = 0) : l'.Spares (s.goOn entries) := by
  obtain ⟨n, k, -, hdone, hopened⟩ := h
  exact spares_goOn ha (by omega) (by omega)

/-- What the command of a shell may still do. -/
theorem Spares.command {script : Command.Script (Except Failure ExitCode)}
    {next : Except Failure ExitCode → Plan Next} (h : l.Spares s)
    (hp : l.phase = .command script next) : ∃ m k, Command.Modest m k script ∧
      s.log.countP Entry.isDone + (m + 1) ≤ 4 * s.log.countP Entry.isBegan ∧
      s.opened + k ≤ s.log.countP Entry.isBegan := by
  obtain ⟨n, k, hallows, hdone, hopened⟩ := h
  rw [hp] at hallows
  obtain ⟨m, rfl, hmodest⟩ := hallows
  exact ⟨m, k, hmodest, hdone, hopened⟩

theorem spares_of_does (hbuiltin : ∀ (b : Binding) next, l.phase = .own (.ask (.run b) next) →
      IsBuiltin b.command) (h : l.Spares s) (hd : Does console w l entries l')
    (hopens : l'.phase.nests = false) : l'.Spares (s.goOn entries) := by
  cases hd with
  | waited =>
    obtain ⟨n, k, hallows, hdone, hopened⟩ := h
    exact spares_goOn hallows hdone hopened
  | again | ended | asked => exact h.rest trivial rfl
  | @began b next hp =>
    obtain ⟨n, k, -, hdone, hopened⟩ := h
    have hmodest := modest_perform (hbuiltin b next hp) (l.invocation console)
    refine spares_goOn (n := 4) (k := 1) ⟨3, rfl, hmodest⟩ ?_ ?_
    · change s.log.countP Entry.isDone + 0 + 4 ≤ 4 * (s.log.countP Entry.isBegan + 1)
      omega
    · change s.opened + 1 ≤ s.log.countP Entry.isBegan + 1
      omega
  | returned hp =>
    obtain ⟨m, k, -, hdone, hopened⟩ := h.command hp
    refine spares_goOn (n := 0) (k := 0) trivial ?_ (Nat.le_trans (Nat.le_add_right _ _) hopened)
    change s.log.countP Entry.isDone + 1 + 0 ≤ 4 * s.log.countP Entry.isBegan
    omega
  | used hp ha =>
    obtain ⟨m, k, hmodest, hdone, hopened⟩ := h.command hp
    cases hmodest with
    | @ask m _ _ _ _ hmore =>
      refine spares_goOn (n := m + 1) (k := k) ⟨m, rfl, hmore _⟩ ?_ hopened
      change s.log.countP Entry.isDone + 1 + (m + 1) ≤ 4 * s.log.countP Entry.isBegan
      omega
    | nest => cases ha
  | invoked hp =>
    obtain ⟨m, k, hmodest, -⟩ := h.command hp
    cases hmodest with
    | ask hr => cases hr
  | nested hp hr => cases hopens

/-- What a command of a shell asks for and is answered is of the plain kind. -/
theorem plain_of_does (h : l.Spares s) (hd : Does console w l entries l') :
    ∀ r a, .used r a ∈ entries → r.Plain := by
  intro r a hmem
  cases hd with
  | asked | began | returned => cases List.mem_singleton.mp hmem
  | @used _ _ _ _ hp ha =>
    cases List.mem_singleton.mp hmem
    obtain ⟨m, k, hmodest, -⟩ := h.command hp
    cases hmodest with
    | ask hr => exact hr
    | nest => cases ha
  | _ => cases hmem

/-- A session that goes on after a step has begun, and waits for no nested one. -/
theorem phase_of_moved (hs : l.step console w = .moved l' w' interrupts) :
    l'.phase ≠ .idle ∧ l'.phase.nests = false := by
  have hdoes := does_of_step hs
  generalize l.logged console w = entries at hdoes
  cases hdoes with
  | waited =>
    unfold step at hs
    cases hp : l.phase with
    | own | command => exact ⟨by simp, rfl⟩
    | _ =>
      rw [hp] at hs
      cases hs
  | @nested r more _ _ hp hr =>
    rw [step, hp] at hs
    cases r with
    | nestShell args => cases hs
    | nestOnce words =>
      simp only [scriptStep] at hs
      cases hb : console.resolve (.words words) with
      | error e =>
        rw [hb] at hs
        have hphase := congrArg Level.phase (Progress.moved.inj hs).1
        cases hphase
      | ok b =>
        rw [hb] at hs
        cases hs
    | _ => cases hr
  | _ => exact ⟨by simp [goto, finish], rfl⟩

/-- The session that a shell starts is a shell. -/
theorem shell_of_nests (h : l.Spares s) (hs : l.step console w = .nests l' child w') :
    l'.Spares s.opens ∧ ∃ args, child = Level.shell console.settings args l.env := by
  obtain ⟨-, -, r, more, next, resume, hp, hgrant, hresume, rfl⟩ := spawns_of_nests hs
  obtain ⟨m, k, hmodest, hdone, hopened⟩ := h.command hp
  cases hmodest with
  | ask hr => cases hr <;> cases hresume
  | @nest _ k args _ hmore =>
    cases hresume
    refine ⟨⟨m + 1, k, ⟨m, rfl, hmore⟩, hdone, ?_⟩, ?_⟩
    · change s.opened + 1 + k ≤ s.log.countP Entry.isBegan
      omega
    · rw [step, hp] at hs
      cases hs
      exact ⟨args, rfl⟩

/-- **What the commands of a shell may still do** is what they have not done of what each of them
may. -/
theorem spares_of_fares (hbuiltin : console.OnlyBuiltins)
    (h : Fares console (Level.shell console.settings args env) s l) : l.Spares s := by
  induction h with
  | start => exact ⟨0, 0, trivial, Nat.le_refl _, Nat.le_refl _⟩
  | moved h ht hs ih =>
    refine spares_of_does (fun b next hp => ?_) ih (does_of_step hs) (phase_of_moved hs).2
    exact resolved_of_fares hbuiltin.of_resolve h hp
  | nested _ hs ih => exact (shell_of_nests ih hs).1
  | @left s l _ hn result ih =>
    obtain ⟨n, k, hallows, hdone, hopened⟩ := ih
    obtain ⟨resume, next, hp⟩ := Phase.eq_nested_of_nests hn
    rw [hp] at hallows
    obtain ⟨m, rfl, hmodest⟩ := hallows
    refine spares_goOn (n := m + 1) (k := k) ?_ hdone hopened
    rw [leave, hp]
    exact ⟨m, rfl, hmodest result⟩
  | executed _ hx ih =>
    obtain ⟨-, rfl⟩ := execute_eq_ok_iff.mp hx
    exact ih.rest trivial rfl
  | called _ behind ih =>
    obtain ⟨n, k, hallows, hdone, hopened⟩ := ih
    exact ⟨n, k, (called_phase _ behind).symm ▸ hallows, hdone, hopened⟩
  | prompted _ _ _ ih | heard _ _ _ _ ih => exact ih.rest trivial rfl

/-! ## Its steps -/

/-- A step of the session's own plan, on a terminal on streams, leaves an entry, unless it begins or
ends a part of the plan; the terminal interrupts nothing. -/
theorem logged_of_planStep {plan : Plan Next} (ht : w.terminal = .plain t)
    (hp : l.phase = .own plan) (h : l.planStep console w plan = .moved l' w' interrupts) :
    interrupts = false ∧ ((∃ x, l.logged console w = [x]) ∨
      l.logged console w = [] ∧ l.phase.slack = 1 ∧ l'.phase.slack = 0) := by
  cases plan with
  | done x =>
    have hlogged : l.logged console w = [] := by simp only [logged, hp]
    have hslack : l.phase.slack = 1 := by rw [hp]; rfl
    cases x <;> cases h <;> exact ⟨rfl, .inr ⟨hlogged, hslack, rfl⟩⟩
  | ask r next =>
    cases r with
    | run b =>
      cases h
      exact ⟨rfl, .inl ⟨.began b, by simp only [logged, hp]⟩⟩
    | write | flush | isCancelled | renew | exitValue | resolve =>
      cases h
      exact ⟨rfl, .inl ⟨_, logged_asked hp (by simp) rfl⟩⟩
    | prompt text =>
      have hlogged : l.logged console w = [.asked (.prompt text) _] := logged_asked hp (by simp) rfl
      simp only [planStep] at h
      split at h <;> cases h <;> exact ⟨rfl, .inl ⟨_, hlogged⟩⟩
    | event prompt =>
      simp only [planStep] at h
      by_cases hc : l.state.cancelled = true
      · rw [if_pos hc] at h
        cases h
        exact ⟨rfl, .inl ⟨_, logged_asked hp (by simp) (if_pos hc)⟩⟩
      · rw [if_neg hc] at h
        cases ha : (t.advance w.input).1.takeAnswer? with
        | none =>
          rw [World.pollRead_none ht ha] at h
          cases h
        | some taken =>
          have hanswer : l.answer? console w (.event prompt) = some taken.1 :=
            (if_neg hc).trans (by rw [World.pollRead_some ht ha])
          rw [World.pollRead_some ht ha] at h
          cases h
          exact ⟨rfl, .inl ⟨_, logged_asked hp (by simp) hanswer⟩⟩

/-- A step of a command leaves an entry, unless it invokes another command. -/
theorem logged_of_scriptStep {script : Command.Script (Except Failure ExitCode)}
    {next : Except Failure ExitCode → Plan Next} (hp : l.phase = .command script next)
    (h : l.scriptStep console w next script = .moved l' w' interrupts) :
    interrupts = false ∧ ((∃ x, l.logged console w = [x]) ∨
      ∃ words more, script = .ask (.invoke words) more) := by
  cases script with
  | done result =>
    cases h
    exact ⟨rfl, .inl ⟨.ended result, by simp only [logged, hp]⟩⟩
  | ask r more =>
    cases r with
    | write | flush | readLine | isCancelled | clock | yield | calendar | setExitValue =>
      cases h
      exact ⟨rfl, .inl ⟨_, logged_used hp rfl⟩⟩
    | wait deadline =>
      simp only [scriptStep] at h
      by_cases hc : l.state.cancelled = true
      · rw [if_pos hc] at h
        cases h
        exact ⟨rfl, .inl ⟨_, logged_used hp (if_pos hc)⟩⟩
      · rw [if_neg hc] at h
        split at h
        next htime =>
          cases h
          exact ⟨rfl, .inl ⟨_, logged_used hp ((if_neg hc).trans (if_pos htime))⟩⟩
        · cases h
    | interrupt =>
      have hlogged : l.logged console w = [.used .interrupt _] := logged_used hp rfl
      simp only [scriptStep] at h
      split at h <;> cases h <;> exact ⟨rfl, .inl ⟨_, hlogged⟩⟩
    | nestShell args => cases h
    | nestOnce words =>
      simp only [scriptStep] at h
      cases hb : console.resolve (.words words) with
      | error e =>
        rw [hb] at h
        cases h
        exact ⟨rfl, .inl ⟨.used (.nestOnce words) none, logged_used hp (by simp only [grant?, hb])⟩⟩
      | ok b =>
        rw [hb] at h
        cases h
    | invoke words =>
      simp only [scriptStep] at h
      cases hb : console.resolve (.words words) <;> rw [hb] at h <;> cases h <;>
        exact ⟨rfl, .inr ⟨words, more, rfl⟩⟩

/-- **A step of a shell**, on a terminal on streams, leaves an entry, unless it begins or ends a part
of its plan; the terminal interrupts nothing. -/
theorem logged_of_step (ht : w.terminal = .plain t) (h : l.Spares s)
    (hs : l.step console w = .moved l' w' interrupts) :
    interrupts = false ∧ ((∃ x, l.logged console w = [x]) ∨
      l.logged console w = [] ∧ l.phase.slack = 1 ∧ l'.phase.slack = 0) := by
  unfold step at hs
  cases hp : l.phase with
  | own plan =>
    rw [hp] at hs
    rw [← hp]
    exact logged_of_planStep ht hp hs
  | command script next =>
    rw [hp] at hs
    obtain ⟨hcalm, hlogged | ⟨words, more, rfl⟩⟩ := logged_of_scriptStep hp hs
    · exact ⟨hcalm, .inl hlogged⟩
    · -- A built-in command invokes no other.
      obtain ⟨m, k, hmodest, -⟩ := h.command hp
      cases hmodest with
      | ask hr => cases hr
  | _ =>
    rw [hp] at hs
    cases hs

/-- One step more, where the shell gains what it spends. -/
theorem steps_goOn {slack slack' : Nat}
    (h : s.steps + slack ≤ 3 * s.log.length + 2 * s.opened + 2)
    (hslack : slack' + 1 ≤ slack + 3 * entries.length) :
    (s.goOn entries).steps + slack' ≤
      3 * (s.goOn entries).log.length + 2 * (s.goOn entries).opened + 2 := by
  change s.steps + 1 + slack' ≤ 3 * (s.log ++ entries).length + 2 * s.opened + 2
  rw [List.length_append]
  omega

/-- **How many steps a shell takes**, by its log and the nested shells that it has started. -/
theorem steps_of_fares (hbuiltin : console.OnlyBuiltins)
    (h : Fares console (Level.shell console.settings args env) s l) :
    s.steps + l.phase.slack ≤ 3 * s.log.length + 2 * s.opened + 2 := by
  -- An entry pays for the step that leaves it and for what may come before the next one.
  have hentry : ∀ (phase phase' : Phase) (x : Entry),
      phase'.slack + 1 ≤ phase.slack + 3 * [x].length := fun phase phase' x =>
    Nat.le_trans (Nat.succ_le_succ phase'.slack_le) (Nat.le_add_left 3 _)
  induction h with
  | start => exact Nat.le_refl 2
  | moved h ht hs ih =>
    obtain ⟨-, ⟨x, hlogged⟩ | ⟨hlogged, hbefore, hafter⟩⟩ :=
      logged_of_step ht (spares_of_fares hbuiltin h) hs
    · rw [hlogged]
      exact steps_goOn ih (hentry _ _ x)
    · rw [hlogged]
      exact steps_goOn ih (by rw [hbefore, hafter]; exact Nat.le_refl 1)
  | @nested s l l' child w w' _ hs ih =>
    obtain ⟨resume, next, hp⟩ := (does_of_nests hs).1.waits
    rw [hp]
    change s.steps + 1 + 1 ≤ 3 * s.log.length + 2 * (s.opened + 1) + 2
    omega
  | @left s l _ hn result ih =>
    obtain ⟨resume, next, hp⟩ := Phase.eq_nested_of_nests hn
    refine steps_goOn ih ?_
    rw [leave, hp]
    exact Nat.le_refl 1
  | @executed s l l' h hx ih =>
    obtain ⟨hfresh, rfl⟩ := execute_eq_ok_iff.mp hx
    have hidle := ((thrift_of_fares h).waits hfresh).1
    refine steps_goOn ih ?_
    rw [hidle]
    exact Nat.succ_le_succ (Phase.slack_own_le _)
  | @called s l _ behind ih =>
    rw [called_phase]
    exact ih
  | prompted _ _ _ ih | heard _ _ _ _ ih => exact steps_goOn ih (hentry _ _ _)

/-! ## Its interrupts -/

/-- A shell is interrupted at its prompt because it is cancelled. -/
theorem cancelled_of_does {x : Entry} (ht : w.terminal = .plain t) (hd : Does console w l [x] l')
    (hx : x.isInterrupted = true) : l.state.cancelled = true := by
  obtain ⟨prompt, rfl⟩ := Entry.isInterrupted_iff.mp hx
  cases hd with
  | asked hp hr ha =>
    by_contra hc
    have hpoll : (w.pollRead prompt).1.answer = some (.ok .interrupted) := (if_neg hc).symm.trans ha
    cases htaken : (t.advance w.input).1.takeAnswer? with
    | none =>
      rw [World.pollRead_none ht htaken] at hpoll
      cases hpoll
    | some taken =>
      -- What a call gets from the terminal is no interrupt.
      obtain ⟨e, t'⟩ := taken
      rw [World.pollRead_some ht htaken] at hpoll
      cases hpoll
      cases heard?_of_takeAnswer? htaken prompt

/-- The shell goes on with an entry that the law allows. -/
theorem owes_goOn {l'' : Level} {x : Entry}
    (h : Fares console (Level.shell console.settings args env) (s.goOn [x]) l'')
    (hx : x.isInterrupted = true → l.state.cancelled = true) (hused : ∀ a, x ≠ .used .interrupt a)
    (hcancelled : l'.state.cancelled = (x.onState l.state).cancelled)
    (howes : s.log.countP Entry.isInterrupted +
      (handling.view s.log).owes l.state.cancelled ≤ s.hits) :
    (s.goOn [x]).log.countP Entry.isInterrupted +
      (handling.view (s.goOn [x]).log).owes l'.state.cancelled ≤ (s.goOn [x]).hits := by
  obtain ⟨past, hpast, hlog⟩ := past_of_fares h
  have hpermits := (kept_handling hpast).permitted s.log x [] hlog
  have hsee := owes_see hpermits hx hused
  rw [Story.goOn, countP_snoc, Law.view_append, hcancelled, Nat.add_assoc]
  exact Nat.le_trans (Nat.add_le_add_left hsee _) howes

/-- **Each interrupt at the prompt** is one of those that have cancelled the shell. -/
theorem owes_of_fares (hbuiltin : console.OnlyBuiltins)
    (h : Fares console (Level.shell console.settings args env) s l) :
    s.log.countP Entry.isInterrupted + (handling.view s.log).owes l.state.cancelled ≤ s.hits := by
  induction h with
  | start => exact Nat.le_refl 0
  | @moved s l l' w w' t interrupts h ht hs ih =>
    have hspares := spares_of_fares hbuiltin h
    have hfares := h.moved ht hs
    have hdoes := does_of_step hs
    obtain ⟨-, ⟨x, hlogged⟩ | ⟨hlogged, -, -⟩⟩ := logged_of_step ht hspares hs
    · rw [hlogged] at hfares hdoes ⊢
      have hused : ∀ a, x ≠ .used .interrupt a := by
        rintro a rfl
        cases plain_of_does hspares hdoes _ _ List.mem_cons_self
      cases noted_of_does hdoes with
      | did hcancelled =>
        exact owes_goOn hfares (cancelled_of_does ht hdoes) hused hcancelled ih
    · rw [hlogged] at hdoes ⊢
      cases noted_of_does hdoes with
      | silent hcancelled =>
        rw [Story.goOn, List.append_nil, hcancelled]
        exact ih
  | @nested s l l' child w w' _ hs ih =>
    obtain ⟨hstarts, hdoes⟩ := does_of_nests hs
    rw [hstarts.silent] at hdoes
    cases noted_of_does hdoes with
    | silent hcancelled =>
      rw [hcancelled]
      exact ih
  | @left s l _ hn result ih =>
    rw [Story.goOn, List.append_nil, leave_cancelled]
    exact ih
  | @executed s l l' h hx ih =>
    obtain ⟨-, rfl⟩ := execute_eq_ok_iff.mp hx
    rw [Story.goOn, List.append_nil]
    exact ih
  | @called s l _ behind ih =>
    rw [Story.called]
    rcases called_snd l behind with he | ⟨-, he⟩
    · rw [he]
      exact Nat.le_trans ih (Nat.le_add_right _ _)
    · rw [he]
      refine Nat.le_trans ?_ (Nat.add_le_add_right ih _)
      rw [Nat.add_assoc]
      exact Nat.add_le_add_left (Concern.owes_true_le _ _) _
  | prompted h hp a ih => exact owes_goOn (h.prompted hp a) nofun nofun rfl ih
  | @heard s l text next h hp e he ih =>
    refine owes_goOn (h.heard hp e he) (fun hx => ?_) nofun rfl ih
    obtain ⟨prompt, hevent⟩ := Entry.isInterrupted_iff.mp hx
    cases hevent
    exact absurd rfl he

/-! ## Main statement -/

/-- **What bounds the story of a shell**: the lines that it hears and the interrupts that cancel
it. -/
theorem bounds_of_fares (hbuiltin : console.OnlyBuiltins)
    (h : Fares console (Level.shell console.settings args env) s l) :
    s.opened ≤ s.log.countP Entry.isLine ∧ s.log.countP Entry.isInterrupted ≤ s.hits ∧
      s.steps ≤ 20 + 38 * s.log.countP Entry.isLine + 21 * s.hits := by
  have hthrifty : Thrifty s.log := (thrift_of_fares h).permitted
  obtain ⟨n, k, -, hdone, hopened⟩ := spares_of_fares hbuiltin h
  have hsteps := steps_of_fares hbuiltin h
  have hinterrupts := owes_of_fares hbuiltin h
  have hasked := asked_le hthrifty
  have hbegan := began_le hthrifty
  have hlength := length_eq_countP s.log
  exact ⟨by omega, by omega, by omega⟩

end Level

end CommandConsole
