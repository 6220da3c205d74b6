import CommandConsole.Proofs.Session.Lives

/-!
# Rules that sessions keep

A `Rule` says what a session may ask for, given what it has learned from the answers so far, and
what has to hold when a part of it ends. `Rule.Keeps` is what that means for a plan: each request in
turn is allowed, whatever fair answers the ones before it got. A rule that each part of a session
keeps (`Rule.Upheld`) is kept by the session as a whole, whatever its commands do, whoever interrupts
it and however the world changes around it.

Results: `ends_perform` (a command whose streams do not fail ends well or interrupted),
`kept_of_does` (one step keeps a rule), `kept_of_lives` (a whole run keeps it).
-/

namespace CommandConsole.Session

variable {α β σ : Type}

/-! ## Commands on streams that do not fail -/

/-- Whatever a script ends with satisfies `P`, unless a stream fails it. -/
def Ends (P : α → Prop) : Command.Script α → Prop
  | .done a => P a
  | .ask r more => ∀ a, (Entry.used r a).fault? = none → Ends P (more a)

theorem Ends.bind {P : α → Prop} {Q : β → Prop} {script : Command.Script α}
    {f : α → Command.Script β} (h : Ends P script) (hf : ∀ a, P a → Ends Q (f a)) :
    Ends Q (script.bind f) := by
  induction script with
  | done a => exact hf a h
  | ask r more ih => exact fun a ha => ih a (h a ha)

theorem Ends.mono {P Q : α → Prop} {script : Command.Script α} (h : Ends P script)
    (hPQ : ∀ a, P a → Q a) : Ends Q script := by
  induction script with
  | done a => exact hPQ a h
  | ask r more ih => exact fun a ha => ih a (h a ha)

theorem ends_true (script : Command.Script α) : Ends (fun _ => True) script := by
  induction script with
  | done a => trivial
  | ask r more ih => exact fun a _ => ih a

/-- What a command can end with on streams that do not fail. -/
def Settled (result : Except Failure ExitCode) : Prop :=
  (∃ code, result = .ok code) ∨ result = .error .interrupted

/-- **A command whose streams do not fail** ends with a code or was interrupted. -/
theorem ends_perform (b : Binding) (inv : Command.Invocation) :
    Ends Settled (b.perform inv).run := by
  refine (ends_true (b.command.body { inv with name := b.name, args := b.args }).run).bind ?_
  intro result _
  cases result with
  | ok code => exact .inl ⟨code, rfl⟩
  | error e =>
    cases e with
    | interrupted => exact .inr rfl
    | _ =>
      -- Any other failure becomes one printed line, and only that line can fail now.
      intro a ha
      cases a with
      | ok => exact .inl ⟨_, rfl⟩
      | error fault => cases ha

/-! ## Rules -/

/-- A rule for sessions. -/
structure Rule (σ : Type) where
  /-- What is known at the beginning. -/
  start : σ
  /-- What an answer makes known. -/
  learn : σ → (r : Request) → Answer r → σ
  /-- The answers that are reckoned with. -/
  fair : (r : Request) → Answer r → Prop
  /-- What may be asked for when so much is known. -/
  asks : σ → Request → Prop
  /-- What has to be known where a part ends. -/
  ends : σ → Next → Prop
  /-- Nothing is known of what commands do. -/
  learn_run : ∀ s b a, learn s (.run b) a = s

namespace Rule

variable {R : Rule σ} {s : σ}

/-- What an entry of the log makes known. -/
def see (R : Rule σ) (s : σ) : Entry → σ
  | .asked r a => R.learn s r a
  | _ => s

/-- What is known after a log. -/
def view (R : Rule σ) (log : List Entry) : σ :=
  log.foldl R.see R.start

@[simp] theorem view_nil : R.view [] = R.start := rfl

@[simp] theorem view_snoc (log : List Entry) (x : Entry) :
    R.view (log ++ [x]) = R.see (R.view log) x := by
  simp [view]

/-- A plan keeps the rule from where so much is known. -/
def Keeps (R : Rule σ) : σ → Plan Next → Prop
  | s, .done x => R.ends s x
  | s, .ask r next => R.asks s r ∧ ∀ a, R.fair r a → R.Keeps (R.learn s r a) (next a)

/-- A session that stands in a phase keeps the rule from there on. -/
def Stands (R : Rule σ) (s : σ) : Phase → Prop
  | .idle => s = R.start
  | .own plan => R.Keeps s plan
  | .command script next =>
    (∃ b, R.asks s (.run b)) ∧ Ends (fun result => R.Keeps s (next result)) script
  | .nested resume next =>
    (∃ b, R.asks s (.run b)) ∧
      ∀ result, Ends (fun result => R.Keeps s (next result)) (resume result)
  | .over result => R.ends s (.ended result)

/-- The rule allows an entry after which so much was known. -/
def Permits (R : Rule σ) (s : σ) : Entry → Prop
  | .asked r _ => R.asks s r
  | .began b => R.asks s (.run b)
  | .used .. | .ended _ => ∃ b, R.asks s (.run b)

/-- The rule allows each entry of a log where it stands. -/
def Permitted (R : Rule σ) (log : List Entry) : Prop :=
  ∀ before x after, log = before ++ x :: after → R.Permits (R.view before) x

theorem permitted_nil : R.Permitted [] := by
  intro before x after h
  simp at h

theorem permitted_snoc {log : List Entry} {x : Entry} (h : R.Permitted log)
    (hx : R.Permits (R.view log) x) : R.Permitted (log ++ [x]) := by
  intro before y after he
  rcases List.eq_nil_or_concat after with rfl | ⟨rest, z, rfl⟩
  · obtain ⟨rfl, hy⟩ := List.append_inj' he rfl
    cases hy
    exact hx
  · have hcut : log ++ [x] = (before ++ y :: rest) ++ [z] := by simpa using he
    obtain ⟨rfl, -⟩ := List.append_inj' hcut rfl
    exact h before y rest rfl

/-- A log is allowed as far as one goes. -/
theorem Permitted.front {log more : List Entry} (h : R.Permitted (log ++ more)) :
    R.Permitted log := by
  intro before x after he
  refine h before x (after ++ more) ?_
  rw [he, List.append_assoc, List.cons_append]

/-- Each part of a shell keeps the rule after its opening, and so do commands. -/
structure Upheld (R : Rule σ) (console : Console) : Prop where
  commands : ∀ b inv, Ends (R.fair (.run b)) (b.perform inv).run
  again : ∀ s buffer, R.ends s (.again buffer) → R.Keeps s (orClose (turn console buffer))

/-- All answers in a log are fair. -/
def FairIn (R : Rule σ) (log : List Entry) : Prop :=
  ∀ r a, .asked r a ∈ log → (∀ b, r ≠ .run b) → R.fair r a

theorem FairIn.left {log more : List Entry} (h : R.FairIn (log ++ more)) : R.FairIn log :=
  fun r a hmem => h r a (List.mem_append_left _ hmem)

theorem FairIn.right {log more : List Entry} (h : R.FairIn (log ++ more)) : R.FairIn more :=
  fun r a hmem => h r a (List.mem_append_right _ hmem)

/-- What holds of a session with its log while it keeps the rule. -/
structure Kept (R : Rule σ) (l₀ : Level) (log : List Entry) (l : Level) : Prop where
  stands : R.Stands (R.view log) l.phase
  permitted : R.Permitted log
  /-- It executes once. -/
  waits : l.state.executed = false → l.phase = .idle ∧ l.role = l₀.role

variable {console : Console} {w : World} {l₀ l l' : Level} {log entries : List Entry}

/-- An entry that makes nothing known. -/
theorem Kept.snoc {x : Entry} (hk : R.Kept l₀ log l) (hx : R.Permits (R.view log) x)
    (hsee : R.see (R.view log) x = R.view log) (hs : R.Stands (R.view log) l'.phase)
    (hw : l'.state.executed = true) : R.Kept l₀ (log ++ [x]) l' where
  stands := by rwa [view_snoc, hsee]
  permitted := permitted_snoc hk.permitted hx
  waits h := by rw [hw] at h; cases h

/-- A change of phase that the log does not show. -/
theorem Kept.silent (hk : R.Kept l₀ log l) (hs : R.Stands (R.view log) l'.phase)
    (hw : l'.state.executed = true) : R.Kept l₀ (log ++ []) l' where
  stands := by rwa [List.append_nil]
  permitted := by rw [List.append_nil]; exact hk.permitted
  waits h := by rw [hw] at h; cases h

/-- A session that stands anywhere but before its execution was executed. -/
theorem Kept.executed (hk : R.Kept l₀ log l) (hp : l.phase ≠ .idle) :
    l.state.executed = true := by
  cases hf : l.state.executed with
  | true => rfl
  | false => exact absurd (hk.waits hf).1 hp

/-- **One step keeps the rule.** -/
theorem kept_of_does (hu : R.Upheld console) (hk : R.Kept l₀ log l)
    (hd : l.Does console w entries l') (hfair : R.FairIn entries)
    (hstreams : ∀ x ∈ entries, x.fault? = none) : R.Kept l₀ (log ++ entries) l' := by
  have hstands := hk.stands
  cases hd with
  | waited => simpa using hk
  | again hp =>
    rw [hp] at hstands
    exact hk.silent (hu.again _ _ hstands) (hk.executed (by simp [hp]))
  | ended hp =>
    rw [hp] at hstands
    exact hk.silent hstands (hk.executed (by simp [hp]))
  | @asked r next a hp hr ha =>
    rw [hp] at hstands
    obtain ⟨hasks, hnext⟩ := hstands
    refine ⟨?_, permitted_snoc hk.permitted hasks, fun hf => ?_⟩
    · rw [view_snoc]
      exact hnext a (hfair r a List.mem_cons_self hr)
    · rw [onState_executed, hk.executed (by simp [hp])] at hf
      cases hf
  | @began b next hp =>
    rw [hp] at hstands
    obtain ⟨hasks, hnext⟩ := hstands
    refine hk.snoc hasks rfl ⟨⟨b, hasks⟩, ?_⟩ (hk.executed (by simp [hp]))
    refine (hu.commands b _).mono fun result hresult => ?_
    have hkeeps := hnext result hresult
    rwa [R.learn_run] at hkeeps
  | returned hp =>
    rw [hp] at hstands
    exact hk.snoc hstands.1 rfl hstands.2 (hk.executed (by simp [hp]))
  | @used r more next a hp ha =>
    rw [hp] at hstands
    refine hk.snoc hstands.1 rfl ⟨hstands.1, hstands.2 a (hstreams _ List.mem_cons_self)⟩ ?_
    exact (onState_executed _ _).trans (hk.executed (by simp [hp]))
  | invoked hp =>
    rw [hp] at hstands
    refine hk.silent ⟨hstands.1, ?_⟩ (hk.executed (by simp [hp]))
    exact (ends_true _).bind fun result _ => hstands.2 (some result) rfl
  | @nested r more resume next hp hr =>
    rw [hp] at hstands
    have hexecuted := hk.executed (by simp [hp])
    refine hk.silent ⟨hstands.1, fun result => ?_⟩ ?_
    · cases r with
      | nestShell args =>
        cases hr
        exact hstands.2 result rfl
      | nestOnce words =>
        cases hr
        exact hstands.2 (some result) rfl
      | _ => cases hr
    · unfold Level.enter
      split <;> exact hexecuted

/-- The end of a nested session gives its result to the command that waits for it. -/
theorem kept_of_leave (hk : R.Kept l₀ log l) (result : Except Failure ExitCode) :
    R.Kept l₀ log (l.leave result) where
  stands := Level.phase_leave (fun _ _ hstands => ⟨hstands.1, hstands.2 result⟩) hk.stands
  permitted := hk.permitted
  waits hf := by
    rw [Level.leave_executed] at hf
    obtain ⟨hp, hrole⟩ := hk.waits hf
    exact ⟨Level.phase_leave_of_idle hp result, (Level.role_leave l result).trans hrole⟩

/-- A session comes to its opening with nothing known. -/
theorem kept_of_execute (hk : R.Kept l₀ log l) (hopen : R.Keeps R.start (l₀.opening console))
    (h : l.execute console = .ok l') : R.Kept l₀ log l' := by
  obtain ⟨hp, hopening, hexecuted⟩ := Level.opens_of_execute hk.waits h
  have hstands := hk.stands
  rw [hp] at hstands
  refine ⟨?_, hk.permitted, fun hf => ?_⟩
  · rw [hopening, hstands]
    exact hopen
  · rw [hexecuted] at hf
    cases hf

theorem kept_of_moves (hu : R.Upheld console) (hopen : R.Keeps R.start (l₀.opening console))
    (hk : R.Kept l₀ log l) (hm : Level.Moves console l entries l') (hfair : R.FairIn entries)
    (hstreams : ∀ x ∈ entries, x.fault? = none) : R.Kept l₀ (log ++ entries) l' := by
  cases hm with
  | step hs => exact kept_of_does hu hk (Level.does_of_step hs) hfair hstreams
  | nest hs => exact kept_of_does hu hk (Level.does_of_nests hs).2 hfair hstreams
  | leave result =>
    rw [List.append_nil]
    exact kept_of_leave hk result
  | cancel =>
    rw [List.append_nil]
    exact ⟨hk.stands, hk.permitted, hk.waits⟩
  | execute hx =>
    rw [List.append_nil]
    exact kept_of_execute hk hopen hx

/-- **A whole run keeps the rule** if each part does, as long as all answers are fair and no stream
fails. -/
theorem kept_of_lives (hu : R.Upheld console) (hopen : R.Keeps R.start (l₀.opening console))
    (hidle : l₀.phase = .idle) (hl : Level.Lives console l₀ log l)
    (hfair : R.FairIn log) (hstreams : ∀ x ∈ log, x.fault? = none) : R.Kept l₀ log l := by
  induction hl with
  | refl => exact ⟨by rw [hidle]; rfl, permitted_nil, fun _ => ⟨hidle, rfl⟩⟩
  | tail _ hm ih =>
    refine kept_of_moves hu hopen ?_ hm hfair.right
      fun x hx => hstreams x (List.mem_append_right _ hx)
    exact ih hfair.left fun x hx => hstreams x (List.mem_append_left _ hx)

end Rule

end CommandConsole.Session
