import CommandConsole.Proofs.Session.Lives

/-!
# The past of a session

The log of a session does not tell who interrupted it, nor whether it was cancelled when it did what
it did. Its past tells both: each entry of the log with a note on whether the session was cancelled
at that moment, and each call to interrupt it with the answer. `Level.Undergoes` is one change of a
session with the marks that it leaves, and `Level.Past` any number of them. Between two steps of the
session anything may happen to it: it is called, the world changes, a session nested in it ends.

A line and an interrupt may come at the same moment, and then either is heard first. So `Undergoes`
lets the terminal answer a session that is cancelled already (`prompted`, `heard`), which a step
never does.

Results: `noted_of_undergoes` (what a change does to the mark of cancellation), `Past.cut` (a past
can be cut before each of its marks), `exits_of_past` (a shell has the exit value that its commands
have set last).
-/

namespace CommandConsole

namespace Session

/-- A mark in the past of a session. -/
inductive Mark where
  /-- The session added an entry to its log, cancelled or not. -/
  | did (cancelled : Bool) (x : Entry)
  /-- It was called to interrupt itself, and answered whether that had an effect. -/
  | called (had : Bool)

/-- The entry of the log that a mark is of. -/
def Mark.entry? : Mark → Option Entry
  | .did _ x => some x
  | .called _ => none

/-- The log that a past has left. -/
def logOf (marks : List Mark) : List Entry :=
  marks.filterMap Mark.entry?

@[simp] theorem logOf_append (marks more : List Mark) :
    logOf (marks ++ more) = logOf marks ++ logOf more :=
  List.filterMap_append

@[simp] theorem logOf_nil : logOf [] = [] := rfl

@[simp] theorem logOf_did (c : Bool) (x : Entry) (marks : List Mark) :
    logOf (.did c x :: marks) = x :: logOf marks := rfl

@[simp] theorem logOf_called (had : Bool) (marks : List Mark) :
    logOf (.called had :: marks) = logOf marks := rfl

/-- A list that has one more element, cut at any of its elements. -/
theorem cut_snoc {α : Type} {xs before after : List α} {x y : α}
    (h : xs ++ [x] = before ++ y :: after) :
    (before = xs ∧ y = x ∧ after = []) ∨ ∃ rest, after = rest ++ [x] ∧ xs = before ++ y :: rest := by
  rcases List.eq_nil_or_concat after with rfl | ⟨rest, z, rfl⟩
  · obtain ⟨rfl, hy⟩ := List.append_inj' h rfl
    exact .inl ⟨rfl, (List.head_eq_of_cons_eq hy).symm, rfl⟩
  · rw [List.concat_eq_append] at h ⊢
    have hcut : xs ++ [x] = (before ++ y :: rest) ++ [z] := by
      simpa only [List.append_assoc, List.cons_append] using h
    obtain ⟨rfl, hx⟩ := List.append_inj' hcut rfl
    cases hx
    exact .inr ⟨rest, rfl, rfl⟩

theorem countP_snoc {α : Type} (p : α → Bool) (xs : List α) (x : α) :
    (xs ++ [x]).countP p = xs.countP p + (p x).toNat := by
  rw [List.countP_append, List.countP_singleton]
  cases p x <;> rfl

/-- The exit value that commands have set last. -/
def lastExit (log : List Entry) : Option ExitCode :=
  (log.filterMap Entry.exitSet?).getLast?

theorem lastExit_append (log more : List Entry) :
    lastExit (log ++ more) = (lastExit more).or (lastExit log) := by
  rw [lastExit, List.filterMap_append, List.getLast?_append]
  rfl

end Session

open Session

namespace Level

/-- A call to interrupt a session, by the states of the sessions nested in it: the answer, and the
session after the call. -/
def called (l : Level) (behind : List ExecutionState) : Bool × Level :=
  ((ExecutionState.interrupt (l.state :: behind)).1,
    { l with state := (ExecutionState.interrupt (l.state :: behind)).2.headD l.state })

/-- The marks of entries that the session adds to its log. -/
def marks (l : Level) (entries : List Entry) : List Mark :=
  entries.map (.did l.state.cancelled)

/-- One change of a session, with the marks that it leaves. -/
inductive Undergoes (console : Console) : Level → List Mark → Level → Prop
  | step {l l' : Level} {w w' : World} {interrupts : Bool}
      (h : l.step console w = .moved l' w' interrupts) :
      Undergoes console l (l.marks (l.logged console w)) l'
  | nest {l l' child : Level} {w w' : World} (h : l.step console w = .nests l' child w') :
      Undergoes console l (l.marks (l.logged console w)) l'
  /-- The session nested in it has ended. -/
  | leave (l : Level) (result : Except Failure ExitCode) : Undergoes console l [] (l.leave result)
  | execute {l l' : Level} (h : l.execute console = .ok l') : Undergoes console l [] l'
  /-- It is called to interrupt itself. -/
  | call (l : Level) (behind : List ExecutionState) :
      Undergoes console l [.called (l.called behind).1] (l.called behind).2
  /-- The prompt is shown, and may fail, though the session is cancelled. -/
  | prompted {l : Level} {text : String} {next : Answer (.prompt text) → Plan Next}
      (hp : l.phase = .own (.ask (.prompt text) next)) (a : Answer (.prompt text)) :
      Undergoes console l (l.marks [.asked (.prompt text) a]) (l.goto (.own (next a)))
  /-- The terminal answers first, though the session is cancelled. -/
  | heard {l : Level} {text : String} {next : Answer (.event text) → Plan Next}
      (hp : l.phase = .own (.ask (.event text) next)) (a : Answer (.event text)) :
      Undergoes console l (l.marks [.asked (.event text) a]) (l.goto (.own (next a)))

/-- What has become of a session, with its past. -/
inductive Past (console : Console) (l₀ : Level) : List Mark → Level → Prop
  | refl : Past console l₀ [] l₀
  | tail {past marks : List Mark} {l l' : Level} (h : Past console l₀ past l)
      (hu : Undergoes console l marks l') : Past console l₀ (past ++ marks) l'

variable {console : Console} {w : World} {l l' l₀ : Level} {entries : List Entry}
  {past marks : List Mark}

@[simp] theorem logOf_marks (l : Level) (entries : List Entry) :
    logOf (l.marks entries) = entries := by
  rw [marks, logOf, List.filterMap_map]
  exact List.filterMap_some

theorem called_eq (l : Level) (behind : List ExecutionState) : l.called behind =
    if l.state.running then
      if l.state.linked then ((ExecutionState.interrupt behind).1, l)
      else (true, { l with state := { l.state with cancelled := true } })
    else (false, l) := by
  rw [called, ExecutionState.interrupt]
  split
  · split <;> rfl
  · rfl

/-- A call changes nothing but the mark of cancellation. -/
theorem called_snd (l : Level) (behind : List ExecutionState) :
    (l.called behind).2 = l ∨ ((l.called behind).1 = true ∧
      (l.called behind).2 = { l with state := { l.state with cancelled := true } }) := by
  rw [called_eq]
  split
  · split
    · exact .inl rfl
    · exact .inr ⟨rfl, rfl⟩
  · exact .inl rfl

theorem called_phase (l : Level) (behind : List ExecutionState) :
    (l.called behind).2.phase = l.phase := by
  rcases called_snd l behind with he | ⟨-, he⟩ <;> rw [he]

/-! ## The mark of cancellation -/

/-- What a change with some marks does to the mark of cancellation. -/
inductive Noted (l l' : Level) : List Mark → Prop
  | silent (h : l'.state.cancelled = l.state.cancelled) : Noted l l' []
  | did {x : Entry} (h : l'.state.cancelled = (x.onState l.state).cancelled)
      (ha : ∀ a, x = .asked .isCancelled a → a = l.state.cancelled) :
      Noted l l' [.did l.state.cancelled x]
  | called {had : Bool} (h : l'.state.cancelled = l.state.cancelled ∨
      had = true ∧ l'.state.cancelled = true) : Noted l l' [.called had]

theorem Noted.cancelled_eq {c : Bool} {x : Entry} (h : Noted l l' [.did c x]) :
    l.state.cancelled = c := by
  cases h
  rfl

theorem noted_of_does (h : Does console w l entries l') : Noted l l' (l.marks entries) := by
  cases h with
  | asked hp hr ha =>
    refine .did rfl fun a he => ?_
    cases he
    exact (Option.some.inj ha).symm
  | used | began | returned => exact .did rfl nofun
  | nested =>
    refine .silent ?_
    unfold enter
    split <;> rfl
  | again | ended | waited | invoked => exact .silent rfl

/-- **What a change does to the mark of cancellation**: nothing, unless its mark says so. -/
theorem noted_of_undergoes (h : Undergoes console l marks l') : Noted l l' marks := by
  cases h with
  | step hs => exact noted_of_does (does_of_step hs)
  | nest hs => exact noted_of_does (does_of_nests hs).2
  | leave result => exact .silent (leave_cancelled l result)
  | execute hx =>
    obtain ⟨-, rfl⟩ := execute_eq_ok_iff.mp hx
    exact .silent rfl
  | call behind =>
    refine .called ?_
    rcases called_snd l behind with he | ⟨hhad, he⟩
    · exact .inl (by rw [he])
    · exact .inr ⟨hhad, by rw [he]⟩
  | prompted | heard => exact .did rfl nofun

/-- A change leaves one mark at most, and a past can be cut before each. -/
theorem Past.cut {before after : List Mark} {m : Mark}
    (h : Past console l₀ past l) (he : past = before ++ m :: after) :
    ∃ l₁ l₂, Past console l₀ before l₁ ∧ Undergoes console l₁ [m] l₂ := by
  induction h generalizing after with
  | refl => simp at he
  | tail hpast hu ih =>
    cases hmarks : noted_of_undergoes hu with
    | silent =>
      rw [List.append_nil] at he
      exact ih he
    | did | called =>
      obtain ⟨rfl, rfl, -⟩ | ⟨rest, -, hpart⟩ := cut_snoc he
      · exact ⟨_, _, hpast, hu⟩
      · exact ih hpart

/-! ## The exit value -/

theorem onRole_shell (args : List String) (value : Option ExitCode) (x : Entry) :
    x.onRole (.shell args value) = .shell args (x.exitSet?.or value) := by
  unfold Entry.onRole Entry.exitSet?
  split <;> rfl

/-- What a shell has for its exit value, by its log. -/
structure Exits (log : List Entry) (l : Level) : Prop where
  role : ∃ args, l.role = .shell args (lastExit log)
  /-- The shell has seen it whenever it looked. -/
  looked : ∀ before a after, log = before ++ .asked .exitValue a :: after → a = lastExit before

variable {log : List Entry}

theorem Exits.value (h : Exits log l) : l.exitValue = lastExit log := by
  obtain ⟨args, hrole⟩ := h.role
  rw [exitValue, hrole]

/-- A change that leaves no entry and the role as it is. -/
theorem Exits.silent (h : Exits log l) (hr : l'.role = l.role) : Exits (log ++ []) l' := by
  rw [List.append_nil]
  exact ⟨by rw [hr]; exact h.role, h.looked⟩

/-- A change that leaves one entry. -/
theorem Exits.snoc {x : Entry} (h : Exits log l) (hr : l'.role = x.onRole l.role)
    (hx : ∀ a, x = .asked .exitValue a → a = l.exitValue) : Exits (log ++ [x]) l' where
  role := by
    obtain ⟨args, hrole⟩ := h.role
    have hlast : lastExit [x] = x.exitSet? := by
      cases hset : x.exitSet? <;> simp [lastExit, hset]
    exact ⟨args, by rw [hr, hrole, onRole_shell, lastExit_append, hlast]⟩
  looked before a after he := by
    obtain ⟨rfl, hy, -⟩ | ⟨rest, -, hpart⟩ := cut_snoc he
    · exact (hx a hy.symm).trans h.value
    · exact h.looked before a rest hpart

theorem exits_of_does (h : Exits log l) (hd : Does console w l entries l') :
    Exits (log ++ entries) l' := by
  cases hd with
  | asked hp hr ha =>
    refine h.snoc rfl fun a he => ?_
    cases he
    exact (Option.some.inj ha).symm
  | used | began | returned => exact h.snoc rfl nofun
  | again | ended | waited | invoked | nested => exact h.silent rfl

/-- **A shell has the exit value that its commands have set last**, and has seen it whenever it
looked. -/
theorem exits_of_past {args : List String} (h : Past console l₀ past l)
    (hr : l₀.role = .shell args none) : Exits (logOf past) l := by
  induction h with
  | refl => exact ⟨⟨args, hr⟩, by simp⟩
  | tail _ hu ih =>
    rw [logOf_append]
    cases hu with
    | step hs =>
      rw [logOf_marks]
      exact exits_of_does ih (does_of_step hs)
    | nest hs =>
      rw [logOf_marks]
      exact exits_of_does ih (does_of_nests hs).2
    | leave result => exact ih.silent (role_leave _ result)
    | execute hx =>
      obtain ⟨-, rfl⟩ := execute_eq_ok_iff.mp hx
      exact ih.silent rfl
    | call behind => exact ih.silent rfl
    | prompted | heard => exact ih.snoc rfl nofun

/-! ## A session alone -/

/-- Lets a session that starts no nested one take steps, for a number of steps at most; the marks
they leave. -/
def record (console : Console) : Nat → World → Level → List Mark × World × Level
  | 0, w, l => ([], w, l)
  | n + 1, w, l =>
    match l.step console w with
    | .moved l' w' _ =>
      let (marks, w'', l'') := record console n w' l'
      (l.marks (l.logged console w) ++ marks, w'', l'')
    | .nests .. | .blocked _ => ([], w, l)

theorem Past.record (h : Past console l₀ past l) (n : Nat) (w : World) :
    Past console l₀ (past ++ (record console n w l).1) (record console n w l).2.2 := by
  induction n generalizing past w l with
  | zero => simpa [Level.record] using h
  | succ n ih =>
    unfold Level.record
    cases hs : l.step console w with
    | moved l' w' interrupts =>
      have hrest := ih (h.tail (.step hs)) w'
      rw [List.append_assoc] at hrest
      exact hrest
    | nests | blocked => simpa using h

/-- Lets a session take steps in some worlds, for a number of steps at most in each, and calls it
behind each; the marks that this leaves. -/
def recordCalls (console : Console) : List (World × Nat) → Level → List Mark × Level
  | [], l => ([], l)
  | (w, n) :: rest, l =>
    let (marks, _, l₁) := record console n w l
    let (had, l₂) := l₁.called []
    let (more, l₃) := recordCalls console rest l₂
    (marks ++ .called had :: more, l₃)

theorem Past.recordCalls (h : Past console l₀ past l) (turns : List (World × Nat)) :
    Past console l₀ (past ++ (recordCalls console turns l).1) (recordCalls console turns l).2 := by
  induction turns generalizing past l with
  | nil => simpa [Level.recordCalls] using h
  | cons turn rest ih =>
    obtain ⟨w, n⟩ := turn
    have hrest := ih ((h.record n w).tail (.call _ []))
    rwa [List.append_assoc, List.append_assoc] at hrest

end Level

end CommandConsole
