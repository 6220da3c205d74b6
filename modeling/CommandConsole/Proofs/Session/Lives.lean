import CommandConsole.Proofs.Session.Trace

/-!
# Lives of a session

A session is run among others: it takes steps of its own in a world that changes between them, it
is interrupted, and sessions that its commands have started end. `Moves` is one such change of a
session with what it adds to the session's log, and `Lives` any number of them.

Results: `exitValue_of_lives` (a shell has no exit value before a command has set one),
`lives_follow` (the life of a session that starts no other).
-/

namespace CommandConsole.Level

open Session

variable {console : Console} {w w' : World} {l l' child l₀ : Level} {log entries : List Entry}

/-- What may become of a session, with what it adds to its log. -/
inductive Moves (console : Console) : Level → List Entry → Level → Prop
  | step {l l' : Level} {w w' : World} {interrupts : Bool}
      (h : l.step console w = .moved l' w' interrupts) : Moves console l (l.logged console w) l'
  | nest {l l' child : Level} {w w' : World} (h : l.step console w = .nests l' child w') :
      Moves console l (l.logged console w) l'
  /-- The session nested in it has ended. -/
  | leave (l : Level) (result : Except Failure ExitCode) : Moves console l [] (l.leave result)
  /-- It is interrupted. -/
  | cancel (l : Level) : Moves console l [] { l with state := { l.state with cancelled := true } }
  | execute {l l' : Level} (h : l.execute console = .ok l') : Moves console l [] l'

/-- What may become of a session in the end, with its log. -/
inductive Lives (console : Console) (l₀ : Level) : List Entry → Level → Prop
  | refl : Lives console l₀ [] l₀
  | tail {log entries : List Entry} {l l' : Level} (h : Lives console l₀ log l)
      (hm : Moves console l entries l') : Lives console l₀ (log ++ entries) l'

theorem role_leave (l : Level) (result : Except Failure ExitCode) :
    (l.leave result).role = l.role := by
  unfold leave
  split <;> rfl

theorem leave_state (l : Level) (result : Except Failure ExitCode) :
    (l.leave result).state = l.state ∨ (l.leave result).state = l.state.unlink := by
  unfold leave
  split
  · cases l.forwards with
    | true => exact .inr rfl
    | false => exact .inl rfl
  · exact .inl rfl

@[simp] theorem leave_executed (l : Level) (result : Except Failure ExitCode) :
    (l.leave result).state.executed = l.state.executed := by
  rcases leave_state l result with h | h <;> rw [h]
  rfl

@[simp] theorem leave_cancelled (l : Level) (result : Except Failure ExitCode) :
    (l.leave result).state.cancelled = l.state.cancelled := by
  rcases leave_state l result with h | h <;> rw [h]
  rfl

/-- The end of a nested session takes the one that waits for it back to its command, and no other
session anywhere. -/
theorem phase_leave {P : Phase → Prop} {result : Except Failure ExitCode}
    (hP : ∀ resume next, P (.nested resume next) → P (.command (resume result) next))
    (h : P l.phase) : P (l.leave result).phase := by
  unfold leave
  split
  next resume next hp => exact hP resume next (hp ▸ h)
  · exact h

theorem phase_leave_of_idle (h : l.phase = .idle) (result : Except Failure ExitCode) :
    (l.leave result).phase = .idle := by
  unfold leave
  rw [h]
  exact h

theorem execute_eq_ok_iff : l.execute console = .ok l' ↔
    l.state.executed = false ∧ l' = { l with
      state := { l.state with executed := true, running := true }
      phase := .own (l.opening console) } := by
  unfold execute ExecutionState.begin
  cases l.state.executed <;> simp [Except.map, eq_comm]

/-- A session that executes once and keeps its role comes to the opening of that role. -/
theorem opens_of_execute (hwaits : l.state.executed = false → l.phase = .idle ∧ l.role = l₀.role)
    (h : l.execute console = .ok l') :
    l.phase = .idle ∧ l'.phase = .own (l₀.opening console) ∧ l'.state.executed = true := by
  obtain ⟨hf, rfl⟩ := execute_eq_ok_iff.mp h
  obtain ⟨hp, hrole⟩ := hwaits hf
  refine ⟨hp, ?_, rfl⟩
  unfold opening
  rw [hrole]

theorem exitValue_congr (h : l'.role = l.role) : l'.exitValue = l.exitValue := by
  unfold exitValue
  rw [h]

/-- Only a command sets the exit value. -/
theorem exitValue_of_does (h : Does console w l entries l') (hnone : l.exitValue = none)
    (hset : ∀ x ∈ entries, x.exitSet? = none) :
    l'.exitValue = none ∧ ∀ a, .asked .exitValue a ∈ entries → a = none := by
  cases h with
  | asked hp hr ha =>
    refine ⟨(exitValue_congr rfl).trans hnone, fun a hmem => ?_⟩
    cases List.mem_singleton.mp hmem
    exact (Option.some.inj ha).symm.trans hnone
  | used hp ha =>
    have hrole := @onRole_of_exitSet? l.role _ (hset _ List.mem_cons_self)
    exact ⟨(exitValue_congr hrole).trans hnone, by simp⟩
  | nested => exact ⟨(exitValue_congr rfl).trans hnone, by simp⟩
  | _ => exact ⟨(exitValue_congr rfl).trans hnone, by simp⟩

theorem exitValue_of_moves (h : Moves console l entries l') (hnone : l.exitValue = none)
    (hset : ∀ x ∈ entries, x.exitSet? = none) :
    l'.exitValue = none ∧ ∀ a, .asked .exitValue a ∈ entries → a = none := by
  cases h with
  | step hs => exact exitValue_of_does (does_of_step hs) hnone hset
  | nest hs => exact exitValue_of_does (does_of_nests hs).2 hnone hset
  | leave result => exact ⟨(exitValue_congr (role_leave l result)).trans hnone, by simp⟩
  | cancel => exact ⟨(exitValue_congr rfl).trans hnone, by simp⟩
  | execute hx =>
    obtain ⟨-, rfl⟩ := execute_eq_ok_iff.mp hx
    exact ⟨(exitValue_congr rfl).trans hnone, by simp⟩

/-- **A shell has no exit value** before a command has set one. -/
theorem exitValue_of_lives (h : Lives console l₀ log l) (hnone : l₀.exitValue = none)
    (hset : ∀ x ∈ log, x.exitSet? = none) :
    l.exitValue = none ∧ ∀ a, .asked .exitValue a ∈ log → a = none := by
  induction h with
  | refl => exact ⟨hnone, by simp⟩
  | tail _ hm ih =>
    obtain ⟨hl, hlog⟩ := ih fun x hx => hset x (List.mem_append_left _ hx)
    obtain ⟨hl', hentries⟩ :=
      exitValue_of_moves hm hl fun x hx => hset x (List.mem_append_right _ hx)
    refine ⟨hl', fun a hmem => ?_⟩
    rcases List.mem_append.mp hmem with hmem | hmem
    · exact hlog a hmem
    · exact hentries a hmem

/-! ## A session alone -/

theorem phase_eq_over (console : Console) (w : World) {result : Except Failure ExitCode}
    (h : (Run.ofLevel console w l).result? = some result) : l.phase = .over result := by
  simp only [Run.ofLevel, Run.result?] at h
  split at h
  next hp => rw [hp, Option.some.inj h]
  · cases h

/-- Lets a session that starts no nested one take steps, for a number of steps at most; what they
add to its log. -/
def follow (console : Console) : Nat → World → Level → List Entry × World × Level
  | 0, w, l => ([], w, l)
  | n + 1, w, l =>
    match l.step console w with
    | .moved l' w' _ =>
      let (log, w'', l'') := follow console n w' l'
      (l.logged console w ++ log, w'', l'')
    | .nests .. | .blocked _ => ([], w, l)

theorem lives_follow (h : Lives console l₀ log l) (n : Nat) (w : World) :
    Lives console l₀ (log ++ (follow console n w l).1) (follow console n w l).2.2 := by
  induction n generalizing log w l with
  | zero => simpa [follow] using h
  | succ n ih =>
    unfold follow
    cases hs : l.step console w with
    | moved l' w' interrupts =>
      have hrest := ih (h.tail (.step hs)) w'
      rw [List.append_assoc] at hrest
      exact hrest
    | nests | blocked => simpa using h

end CommandConsole.Level
