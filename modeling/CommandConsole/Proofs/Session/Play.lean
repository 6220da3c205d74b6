import CommandConsole.Proofs.Session.Routing
import CommandConsole.Session.Completion

/-!
# What is seen of nested shells

Of the steps of a run, a few show what its shells do: a shell hears a line, a command of it begins
or ends, starts a nested shell, or a nested shell has ended. Only the innermost session takes steps,
so a `Beat` has such an act with the exit values of all sessions of the chain, and `Run.play` is the
run as it is seen, with time passing wherever it waits for a time.

Results: `play_of_plays` (where a run comes to a stop), `result_of_complete` (running it to the end
gives the same result), `stepLevels_append` (the outer sessions take no part in a step).
-/

namespace CommandConsole

namespace Session

/-- What is seen of a step of a session. -/
inductive Act where
  /-- It hears a line. -/
  | line (text : String)
  /-- A command of it begins. -/
  | began (name : String) (args : List String)
  /-- A command of it has ended. -/
  | ended (result : Except Failure ExitCode)
  /-- A command of it starts a nested session. -/
  | opened
  /-- It has ended, and was nested in another. -/
  | closed (result : Except Failure ExitCode)

/-- What is seen of an entry of the log. -/
def Entry.act? : Entry → Option Act
  | .asked (.event _) (.ok (.line text)) => some (.line text)
  | .began b => some (.began b.name b.args)
  | .ended result => some (.ended result)
  | _ => none

/-- An act of the innermost session, with the exit values of all sessions, the outermost first. -/
structure Beat where
  values : List (Option ExitCode)
  act : Act

end Session

open Session

/-- What is seen of the next step of a session. -/
def Level.acts (console : Console) (w : World) (l : Level) : List Act :=
  match l.step console w with
  | .nests .. => [.opened]
  | _ => (l.logged console w).filterMap Entry.act?

namespace Run

/-- What is seen of the next step of a chain of sessions. -/
def chainActs (console : Console) (w : World) : List Level → List Act
  | [] => []
  | [l] => l.acts console w
  | _ :: m :: rest =>
    match m.phase with
    | .over result => [.closed result]
    | .idle => []
    | _ => chainActs console w (m :: rest)

/-- What is seen of the next step of a run. -/
def beats (r : Run) : List Beat :=
  (chainActs r.console r.world r.levels).map (Beat.mk (r.levels.map Level.exitValue))

/-- A run as it is seen, until it has ended or only an event or an interrupt could go on with it;
the number bounds how often it goes on. -/
def play : Nat → Run → List Beat × Run
  | 0, r => ([], r)
  | n + 1, r =>
    match r.step with
    | .ok r' => (r.beats ++ (play n r').1, (play n r').2)
    | .error (some time) => play n (r.passTo time)
    | .error none => ([], r)

/-- A run goes on to another one, and this is seen of it. -/
inductive Plays : Run → List Beat → Run → Prop
  | refl (r : Run) : Plays r [] r
  | step {r r' r'' : Run} {beats : List Beat} (h : r.step = .ok r') (hmore : Plays r' beats r'') :
      Plays r (r.beats ++ beats) r''
  | wait {r r' : Run} {time : Nat} {beats : List Beat} (h : r.step = .error (some time))
      (hmore : Plays (r.passTo time) beats r') : Plays r beats r'

variable {console : Console} {w : World} {l m : Level} {outer rest : List Level}
  {r r' : Run} {beats : List Beat}

/-- Where a run comes to a stop, its play has come to an end. -/
theorem play_of_plays (h : Plays r beats r') (hstop : r'.step = .error none) :
    ∃ n, ∀ m, n ≤ m → r.play m = (beats, r') := by
  induction h with
  | refl r =>
    refine ⟨0, fun m _ => ?_⟩
    cases m with
    | zero => rfl
    | succ m => rw [play, hstop]
  | step h _ ih =>
    obtain ⟨n, hn⟩ := ih hstop
    refine ⟨n + 1, fun m hm => ?_⟩
    obtain ⟨k, rfl⟩ := Nat.exists_eq_add_of_le' (Nat.le_trans (Nat.le_add_left 1 n) hm)
    rw [play, h]
    simp only
    rw [hn k (by omega)]
  | wait h _ ih =>
    obtain ⟨n, hn⟩ := ih hstop
    refine ⟨n + 1, fun m hm => ?_⟩
    obtain ⟨k, rfl⟩ := Nat.exists_eq_add_of_le' (Nat.le_trans (Nat.le_add_left 1 n) hm)
    rw [play, h]
    simp only
    rw [hn k (by omega)]

/-! ## Runs to the end -/

theorem Plays.trans {r'' : Run} {more : List Beat} (h : Plays r beats r')
    (hmore : Plays r' more r'') : Plays r (beats ++ more) r'' := by
  induction h with
  | refl => exact hmore
  | step h _ ih =>
    rw [List.append_assoc]
    exact .step h (ih hmore)
  | wait h _ ih => exact .wait h (ih hmore)

/-- A run goes on in one way until it comes to a stop. -/
theorem plays_of_stop {r'' : Run} {beats' : List Beat} (h : Plays r beats r')
    (h' : Plays r beats' r'') (hstop : r''.step = .error none) : ∃ more, Plays r' more r'' := by
  induction h generalizing beats' with
  | refl => exact ⟨_, h'⟩
  | step h _ ih =>
    cases h' with
    | refl => cases h.symm.trans hstop
    | step h' hmore =>
      cases h.symm.trans h'
      exact ih hmore
    | wait h' => cases h.symm.trans h'
  | wait h _ ih =>
    cases h' with
    | refl => cases h.symm.trans hstop
    | step h' => cases h.symm.trans h'
    | wait h' hmore =>
      cases h.symm.trans h'
      exact ih hmore

/-- What a result says of the chain. -/
theorem result?_eq_some_iff {result : Except Failure ExitCode} :
    r.result? = some result ↔ (r.levels.map (·.phase)).head? = some (.over result) := by
  unfold result?
  cases r.levels with
  | nil => simp
  | cons l rest => cases hp : l.phase <;> simp [hp]

/-- The first session of a chain stays as it is once it has ended. -/
theorem over_stepped {levels levels' : List Level} {w' : World} {interrupts : Bool}
    {result : Except Failure ExitCode} (hs : Stepped console w levels levels' w' interrupts)
    (h : (levels.map (·.phase)).head? = some (.over result)) :
    (levels'.map (·.phase)).head? = some (.over result) := by
  cases hs with
  | execute | inner => exact h
  | @leave l | @refuse l =>
    have hp : l.phase = .over result := Option.some.inj h
    rw [List.map_singleton, Level.leave, hp]
    exact congrArg some hp
  | @last l _ _ _ hstep =>
    have hp : l.phase = .over result := Option.some.inj h
    have hexecuting := executing_of_step (.inl ⟨_, _, hstep⟩)
    rw [Level.executing, hp] at hexecuting
    cases hexecuting
  | @nest l _ _ _ hstep =>
    have hp : l.phase = .over result := Option.some.inj h
    have hexecuting := executing_of_step (.inr ⟨_, _, hstep⟩)
    rw [Level.executing, hp] at hexecuting
    cases hexecuting

theorem result?_of_step {result : Except Failure ExitCode} (hs : r.step = .ok r')
    (h : r.result? = some result) : r'.result? = some result := by
  obtain ⟨levels, w, interrupts, hstepped, rfl⟩ := stepped_of_step hs
  rw [result?_eq_some_iff] at h ⊢
  have hlevels := over_stepped hstepped h
  split
  · rw [interrupt, phases_interruptLevels]
    exact hlevels
  · exact hlevels

theorem result?_of_plays {result : Except Failure ExitCode} (h : Plays r beats r')
    (hr : r.result? = some result) : r'.result? = some result := by
  induction h with
  | refl => exact hr
  | step h _ ih => exact ih (result?_of_step h hr)
  | wait _ _ ih => exact ih hr

/-- What a standing says of a run. -/
def Standing.Holds (r : Run) : Standing → Prop
  | .over result => r.result? = some result
  | .waiting (some time) => r.step = .error (some time)
  | .waiting none => True

/-- What a run comes to of itself, while no time passes. -/
theorem plays_settle (n : Nat) (r : Run) :
    ∃ beats, Plays r beats (r.settle n).2 ∧ (r.settle n).1.Holds (r.settle n).2 := by
  induction n generalizing r with
  | zero => exact ⟨[], .refl r, trivial⟩
  | succ n ih =>
    unfold settle
    cases hr : r.result? with
    | some result => exact ⟨[], .refl r, hr⟩
    | none =>
      cases hs : r.step with
      | error deadline =>
        refine ⟨[], .refl r, ?_⟩
        cases deadline with
        | none => trivial
        | some time => exact hs
      | ok r' =>
        obtain ⟨beats, hplays, hholds⟩ := ih r'
        exact ⟨_, .step hs hplays, hholds⟩

/-- What a run comes to when it is run to its end. -/
theorem plays_complete {n : Nat} {result : Except Failure ExitCode}
    (h : r.complete n = (.ended result, r')) :
    ∃ beats, Plays r beats r' ∧ r'.result? = some result := by
  induction n generalizing r with
  | zero => cases h
  | succ n ih =>
    obtain ⟨beats, hplays, hholds⟩ := plays_settle patience r
    rw [complete] at h
    rcases hsettle : r.settle patience with ⟨_ | _ | time, r''⟩
    all_goals rw [hsettle] at h hplays hholds
    · cases h
      exact ⟨beats, hplays, hholds⟩
    · cases h
    · obtain ⟨more, hmore, hresult⟩ := ih h
      exact ⟨_, hplays.trans (.wait hholds hmore), hresult⟩

/-- **Running to the end** gives the result with which the run comes to a stop. -/
theorem result_of_complete {n : Nat} {result : Except Failure ExitCode} {r'' : Run}
    (h : Plays r beats r') (hstop : r'.step = .error none)
    (hc : r.complete n = (.ended result, r'')) : r'.result? = some result := by
  obtain ⟨beats', hplays, hresult⟩ := plays_complete hc
  obtain ⟨more, hmore⟩ := plays_of_stop hplays h hstop
  exact result?_of_plays hmore hresult

/-! ## The outer sessions -/

/-- What a step comes to with more sessions before the chain. -/
def Progress.within (outer : List Level) : Progress → Progress
  | .moved levels w interrupts => .moved (outer ++ levels) w interrupts
  | .blocked deadline => .blocked deadline

/-- A session before one that executes takes no part in a step. -/
theorem stepLevels_cons (hm : m.executing = true) :
    stepLevels console w (l :: m :: rest) = (stepLevels console w (m :: rest)).within [l] ∧
      chainActs console w (l :: m :: rest) = chainActs console w (m :: rest) := by
  rw [stepLevels, chainActs]
  unfold Level.executing at hm
  rcases hp : m.phase with _ | _ | _ | _ | _
  case own | command | nested =>
    refine ⟨?_, rfl⟩
    simp only
    cases stepLevels console w (m :: rest) <;> rfl
  all_goals
    rw [hp] at hm
    cases hm

/-- **The outer sessions take no part in a step** of the ones they wait for. -/
theorem stepLevels_append (m : Level) (rest : List Level)
    (houter : ∀ o ∈ outer, o.executing = true) (hm : m.executing = true) :
    stepLevels console w (outer ++ m :: rest) =
        (stepLevels console w (m :: rest)).within outer ∧
      chainActs console w (outer ++ m :: rest) = chainActs console w (m :: rest) := by
  induction outer with
  | nil =>
    refine ⟨?_, rfl⟩
    rw [List.nil_append]
    cases stepLevels console w (m :: rest) <;> rfl
  | cons o outer ih =>
    obtain ⟨ho, houter⟩ := List.forall_mem_cons.mp houter
    obtain ⟨hstep, hacts⟩ := ih houter
    have hnext : ∃ n more, outer ++ m :: rest = n :: more ∧ n.executing = true := by
      cases outer with
      | nil => exact ⟨m, rest, rfl, hm⟩
      | cons n outer => exact ⟨n, _, rfl, (List.forall_mem_cons.mp houter).1⟩
    obtain ⟨n, more, he, hn⟩ := hnext
    rw [he] at hstep hacts
    have hpeel : stepLevels console w (o :: n :: more) =
          (stepLevels console w (n :: more)).within [o] ∧
        chainActs console w (o :: n :: more) = chainActs console w (n :: more) := stepLevels_cons hn
    rw [List.cons_append, he, hpeel.1, hstep, hpeel.2, hacts]
    refine ⟨?_, rfl⟩
    cases stepLevels console w (m :: rest) <;> rfl

end Run

end CommandConsole
