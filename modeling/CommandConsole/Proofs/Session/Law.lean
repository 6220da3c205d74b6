import CommandConsole.Proofs.Session.Past

/-!
# Laws of all sessions

A `Law` says what a session may ask for and how its parts may end, by what is known of its log so
far. Unlike a `Rule` it reckons with every answer, a failing stream's too, and it sees all that the
log has, the doings of commands included. Of a command no more is known than that it ends with a
code, interrupted, or with the fault of the stream on which its failure should have been reported
(`Performed`).

`Law.Keeps` is what a law means for a plan, `Law.Upheld` that each part of a shell keeps it.

Results: `yields_perform` (how commands end), `kept_of_does` (one step keeps a law), `kept_of_past`
(a session keeps it through all that may happen to it).
-/

namespace CommandConsole.Session

variable {α β σ : Type}

/-! ## What commands do -/

/-- An entry that a command leaves. -/
def Entry.IsUsed (x : Entry) : Prop :=
  ∃ r a, x = .used r a

/-- Whether a request is answered by what other commands or sessions do. -/
def delegates : Command.Request → Bool
  | .nestShell _ | .nestOnce _ | .invoke _ => true
  | _ => false

/-- The entries that a request with its answer leaves. -/
inductive Leaves : (r : Command.Request) → Command.Answer r → List Entry → Prop
  | used (r : Command.Request) (a : Command.Answer r) : Leaves r a [.used r a]
  | delegated {r : Command.Request} {a : Command.Answer r} {es : List Entry}
      (hr : delegates r = true) (h : ∀ x ∈ es, x.IsUsed) : Leaves r a es

/-- Whatever a script leaves and ends with satisfies `Q`. -/
def Yields : (List Entry → α → Prop) → Command.Script α → Prop
  | Q, .done a => Q [] a
  | Q, .ask r more => ∀ a es, Leaves r a es → Yields (fun es' => Q (es ++ es')) (more a)

theorem Leaves.isUsed {r : Command.Request} {a : Command.Answer r} {es : List Entry}
    (h : Leaves r a es) : ∀ x ∈ es, x.IsUsed := by
  cases h with
  | used => exact List.forall_mem_singleton.mpr ⟨r, a, rfl⟩
  | delegated _ h => exact h

theorem Yields.mono {P Q : List Entry → α → Prop} {script : Command.Script α}
    (h : Yields P script) (hPQ : ∀ es a, (∀ x ∈ es, x.IsUsed) → P es a → Q es a) :
    Yields Q script := by
  induction script generalizing P Q with
  | done a => exact hPQ [] a (by simp) h
  | ask r more ih =>
    intro a es hes
    refine ih a (h a es hes) fun es' b hused => hPQ (es ++ es') b fun x hx => ?_
    rcases List.mem_append.mp hx with hx | hx
    · exact hes.isUsed x hx
    · exact hused x hx

theorem yields_true (script : Command.Script α) : Yields (fun _ _ => True) script := by
  induction script with
  | done a => trivial
  | ask r more ih => exact fun a _ _ => ih a

theorem Yields.bind {P : List Entry → α → Prop} {Q : List Entry → β → Prop}
    {script : Command.Script α} {f : α → Command.Script β} (h : Yields P script)
    (hf : ∀ es a, (∀ x ∈ es, x.IsUsed) → P es a → Yields (fun es' => Q (es ++ es')) (f a)) :
    Yields Q (script.bind f) := by
  induction script generalizing P Q with
  | done a => exact hf [] a (by simp) h
  | ask r more ih =>
    intro a es hes
    refine ih a (h a es hes) fun es' b hused hb => ?_
    have hboth : ∀ x ∈ es ++ es', x.IsUsed := fun x hx =>
      (List.mem_append.mp hx).elim (hes.isUsed x) (hused x)
    simpa only [List.append_assoc] using hf (es ++ es') b hboth hb

/-- How a command ends, with what it has done. -/
inductive Performed : List Entry → Except Failure ExitCode → Prop
  | ended {es : List Entry} (code : ExitCode) : Performed es (.ok code)
  | interrupted {es : List Entry} : Performed es (.error .interrupted)
  /-- It failed, and that could not be reported. -/
  | unreported {es : List Entry} (e : Failure) (fault : StreamFault) (he : e ≠ .interrupted) :
      Performed (es ++ [.used (.write .err (Text.asLine e.report)) (.error fault)])
        (.error (.stream fault))

/-- **How commands end**: with a code, interrupted, or because their failure could not be
reported. -/
theorem yields_perform (b : Binding) (inv : Command.Invocation) :
    Yields Performed (b.perform inv).run := by
  refine (yields_true (b.command.body { inv with name := b.name, args := b.args }).run).bind ?_
  intro es result _ _
  cases result with
  | ok code => exact .ended code
  | error e =>
    by_cases he : e = .interrupted
    · subst he
      exact .interrupted
    · -- The failure becomes one printed line, which may itself fail.
      have hreport : ∀ script, script = (Binding.reportFailure e).run →
          Yields (fun es' => Performed (es ++ es')) script := by
        rintro _ rfl a es' hes
        cases hes with
        | delegated hr => cases hr
        | used =>
          cases a with
          | ok => exact .ended _
          | error fault => exact .unreported e fault he
      cases e with
      | interrupted => exact absurd rfl he
      | _ => exact hreport _ rfl

/-! ## Laws -/

/-- A law for sessions. -/
structure Law (σ : Type) where
  /-- What is known at the beginning. -/
  start : σ
  /-- What an entry of the log makes known. -/
  see : σ → Entry → σ
  /-- What may be asked for when so much is known. -/
  asks : σ → Request → Prop
  /-- What is known while a command runs. -/
  runs : σ → Prop
  /-- What is known where a part ends. -/
  ends : σ → Next → Prop

/-- The entries that a request with its answer leaves. -/
inductive Replies : (r : Request) → Answer r → List Entry → Prop
  | asked {r : Request} (hr : ∀ b, r ≠ .run b) (a : Answer r) : Replies r a [.asked r a]
  | ran {b : Binding} {es : List Entry} {result : Except Failure ExitCode}
      (hu : ∀ x ∈ es, x.IsUsed) (h : Performed es result) :
      Replies (.run b) result (.began b :: (es ++ [.ended result]))

namespace Law

variable {L : Law σ} {s : σ}

/-- What is known after some entries. -/
def after (L : Law σ) (s : σ) (es : List Entry) : σ :=
  es.foldl L.see s

/-- What is known after a log. -/
def view (L : Law σ) (log : List Entry) : σ :=
  L.after L.start log

@[simp] theorem after_nil : L.after s [] = s := rfl

@[simp] theorem after_cons (x : Entry) (es : List Entry) :
    L.after s (x :: es) = L.after (L.see s x) es := rfl

@[simp] theorem after_append (es more : List Entry) :
    L.after s (es ++ more) = L.after (L.after s es) more :=
  List.foldl_append

theorem view_append (log es : List Entry) : L.view (log ++ es) = L.after (L.view log) es :=
  after_append log es

/-- A plan keeps the law from where so much is known. -/
def Keeps (L : Law σ) : σ → Plan Next → Prop
  | s, .done x => L.ends s x
  | s, .ask r next => L.asks s r ∧ ∀ a es, Replies r a es → L.Keeps (L.after s es) (next a)

/-- A command keeps the law from there on, and so does the plan behind it. -/
def Serves (L : Law σ) (s : σ) (next : Except Failure ExitCode → Plan Next)
    (script : Command.Script (Except Failure ExitCode)) : Prop :=
  Yields (fun es result => L.Keeps (L.after s (es ++ [.ended result])) (next result)) script

/-- A session that stands in a phase keeps the law from there on. -/
def Stands (L : Law σ) (s : σ) : Phase → Prop
  | .idle => s = L.start
  | .own plan => L.Keeps s plan
  | .command script next => L.runs s ∧ L.Serves s next script
  | .nested resume next => L.runs s ∧ ∀ result, L.Serves s next (resume result)
  | .over result => L.ends s (.ended result)

/-- The law allows an entry after which so much was known. -/
def Permits (L : Law σ) (s : σ) : Entry → Prop
  | .asked r _ => L.asks s r
  | .began b => L.asks s (.run b)
  | .used .. | .ended _ => L.runs s

/-- Each part of a shell keeps the law after its opening. -/
structure Upheld (L : Law σ) (console : Console) : Prop where
  began : ∀ s b, L.asks s (.run b) → L.runs (L.see s (.began b))
  used : ∀ s r a, L.runs s → L.runs (L.see s (.used r a))
  again : ∀ s buffer, L.ends s (.again buffer) → L.Keeps s (orClose (turn console buffer))

/-- A request that is answered without a command. -/
theorem keeps_ask {r : Request} {next : Answer r → Plan Next} (hr : ∀ b, r ≠ .run b)
    (hasks : L.asks s r) (h : ∀ a, L.Keeps (L.see s (.asked r a)) (next a)) :
    L.Keeps s (.ask r next) := by
  refine ⟨hasks, fun a es hes => ?_⟩
  cases hes with
  | asked => exact h a
  | ran => exact absurd rfl (hr _)

theorem keeps_run {b : Binding} {next : Except Failure ExitCode → Plan Next}
    (hasks : L.asks s (.run b))
    (h : ∀ es result, (∀ x ∈ es, x.IsUsed) → Performed es result →
      L.Keeps (L.see (L.after (L.see s (.began b)) es) (.ended result)) (next result)) :
    L.Keeps s (.ask (.run b) next) := by
  refine ⟨hasks, fun a es hes => ?_⟩
  cases hes with
  | asked hr => exact absurd rfl (hr b)
  | ran hu hp =>
    rw [after_cons, after_append]
    exact h _ _ hu hp

/-- What holds of a session with its log while it keeps the law. -/
structure Kept (L : Law σ) (l₀ : Level) (log : List Entry) (l : Level) : Prop where
  stands : L.Stands (L.view log) l.phase
  /-- The law allows each entry where it stands. -/
  permitted : ∀ before x after, log = before ++ x :: after → L.Permits (L.view before) x
  /-- It executes once. -/
  waits : l.state.executed = false → l.phase = .idle ∧ l.role = l₀.role

variable {console : Console} {w : World} {l₀ l l' : Level} {log entries : List Entry}
  {past marks : List Mark}

/-- A session that stands anywhere but before its execution was executed. -/
theorem Kept.executed (hk : L.Kept l₀ log l) (hp : l.phase ≠ .idle) :
    l.state.executed = true := by
  cases hf : l.state.executed with
  | true => rfl
  | false => exact absurd (hk.waits hf).1 hp

/-- A change of phase that the log does not show. -/
theorem Kept.silent (hk : L.Kept l₀ log l) (hs : L.Stands (L.view log) l'.phase)
    (hw : l'.state.executed = true) : L.Kept l₀ (log ++ []) l' where
  stands := by rwa [List.append_nil]
  permitted := by rw [List.append_nil]; exact hk.permitted
  waits h := by rw [hw] at h; cases h

/-- One more entry. -/
theorem Kept.snoc {x : Entry} (hk : L.Kept l₀ log l) (hx : L.Permits (L.view log) x)
    (hs : L.Stands (L.see (L.view log) x) l'.phase) (hw : l'.state.executed = true) :
    L.Kept l₀ (log ++ [x]) l' where
  stands := by rwa [view_append]
  permitted before y after he := by
    obtain ⟨rfl, rfl, -⟩ | ⟨rest, -, hpart⟩ := cut_snoc he
    · exact hx
    · exact hk.permitted before y rest hpart
  waits h := by rw [hw] at h; cases h

/-- An answer to a request of the session's own plan, whoever gives it. -/
theorem Kept.asked {r : Request} {next : Answer r → Plan Next} (hk : L.Kept l₀ log l)
    (hp : l.phase = .own (.ask r next)) (hr : ∀ b, r ≠ .run b) (a : Answer r)
    (hl : l'.phase = .own (next a)) (hw : l'.state.executed = l.state.executed) :
    L.Kept l₀ (log ++ [.asked r a]) l' := by
  have hstands := hk.stands
  rw [hp] at hstands
  refine hk.snoc hstands.1 ?_ (hw.trans (hk.executed (by simp [hp])))
  rw [hl]
  exact hstands.2 a _ (.asked hr a)

theorem serves_invoke {words : List String} {b : Binding}
    {more : Option (Except Failure ExitCode) → Command.Script (Except Failure ExitCode)}
    {next : Except Failure ExitCode → Plan Next} (h : L.Serves s next (.ask (.invoke words) more)) :
    L.Serves s next ((l.scriptOf console b).bind fun result => more (some result)) :=
  (yields_true (l.scriptOf console b)).bind fun es result hused _ =>
    h (some result) es (.delegated rfl hused)

theorem serves_resume {r : Command.Request}
    {more : Command.Answer r → Command.Script (Except Failure ExitCode)}
    {resume : Except Failure ExitCode → Command.Script (Except Failure ExitCode)}
    {next : Except Failure ExitCode → Plan Next} (h : L.Serves s next (.ask r more))
    (hr : Level.resumption r more = some resume) (result : Except Failure ExitCode) :
    L.Serves s next (resume result) := by
  cases r with
  | nestShell args =>
    cases hr
    exact h result [] (.delegated rfl (by simp))
  | nestOnce words =>
    cases hr
    exact h (some result) [] (.delegated rfl (by simp))
  | _ => cases hr

/-- **One step keeps the law.** -/
theorem kept_of_does (hu : L.Upheld console) (hk : L.Kept l₀ log l)
    (hd : l.Does console w entries l') : L.Kept l₀ (log ++ entries) l' := by
  have hstands := hk.stands
  cases hd with
  | waited => simpa using hk
  | again hp =>
    rw [hp] at hstands
    exact hk.silent (hu.again _ _ hstands) (hk.executed (by simp [hp]))
  | ended hp =>
    rw [hp] at hstands
    exact hk.silent hstands (hk.executed (by simp [hp]))
  | asked hp hr ha => exact hk.asked hp hr _ rfl (onState_executed _ _)
  | @began b next hp =>
    rw [hp] at hstands
    obtain ⟨hasks, hnext⟩ := hstands
    refine hk.snoc hasks ⟨hu.began _ b hasks, ?_⟩ (hk.executed (by simp [hp]))
    exact (yields_perform b _).mono fun es result hused hperformed =>
      hnext result _ (.ran hused hperformed)
  | returned hp =>
    rw [hp] at hstands
    exact hk.snoc hstands.1 hstands.2 (hk.executed (by simp [hp]))
  | @used r more next a hp ha =>
    rw [hp] at hstands
    refine hk.snoc hstands.1 ⟨hu.used _ r a hstands.1, ?_⟩
      ((onState_executed _ _).trans (hk.executed (by simp [hp])))
    exact hstands.2 a _ (.used r a)
  | invoked hp =>
    rw [hp] at hstands
    exact hk.silent ⟨hstands.1, serves_invoke hstands.2⟩ (hk.executed (by simp [hp]))
  | nested hp hr =>
    rw [hp] at hstands
    have hexecuted := hk.executed (by simp [hp])
    refine hk.silent ⟨hstands.1, serves_resume hstands.2 hr⟩ ?_
    unfold Level.enter
    split <;> exact hexecuted

/-- The end of a nested session gives its result to the command that waits for it. -/
theorem kept_of_leave (hk : L.Kept l₀ log l) (result : Except Failure ExitCode) :
    L.Kept l₀ log (l.leave result) where
  stands := Level.phase_leave (fun _ _ hstands => ⟨hstands.1, hstands.2 result⟩) hk.stands
  permitted := hk.permitted
  waits hf := by
    rw [Level.leave_executed] at hf
    obtain ⟨hp, hrole⟩ := hk.waits hf
    exact ⟨Level.phase_leave_of_idle hp result, (Level.role_leave l result).trans hrole⟩

/-- A session comes to its opening with nothing known. -/
theorem kept_of_execute (hk : L.Kept l₀ log l) (hopen : L.Keeps L.start (l₀.opening console))
    (h : l.execute console = .ok l') : L.Kept l₀ log l' := by
  obtain ⟨hp, hopening, hexecuted⟩ := Level.opens_of_execute hk.waits h
  have hstands := hk.stands
  rw [hp] at hstands
  refine ⟨?_, hk.permitted, fun hf => ?_⟩
  · rw [hopening, hstands]
    exact hopen
  · rw [hexecuted] at hf
    cases hf

theorem kept_of_call (hk : L.Kept l₀ log l) (behind : List ExecutionState) :
    L.Kept l₀ log (l.called behind).2 := by
  rcases Level.called_snd l behind with he | ⟨-, he⟩
  · rwa [he]
  · rw [he]
    exact ⟨hk.stands, hk.permitted, hk.waits⟩

/-- **A session keeps the law** through all that may happen to it, if each part does. -/
theorem kept_of_past (hu : L.Upheld console) (hopen : L.Keeps L.start (l₀.opening console))
    (hidle : l₀.phase = .idle) (h : Level.Past console l₀ past l) : L.Kept l₀ (logOf past) l := by
  induction h with
  | refl => exact ⟨by rw [hidle]; rfl, by simp, fun _ => ⟨hidle, rfl⟩⟩
  | tail _ hm ih =>
    rw [logOf_append]
    cases hm with
    | step hs =>
      rw [Level.logOf_marks]
      exact kept_of_does hu ih (Level.does_of_step hs)
    | nest hs =>
      rw [Level.logOf_marks]
      exact kept_of_does hu ih (Level.does_of_nests hs).2
    | leave result =>
      rw [logOf_nil, List.append_nil]
      exact kept_of_leave ih result
    | execute hx =>
      rw [logOf_nil, List.append_nil]
      exact kept_of_execute ih hopen hx
    | call behind =>
      rw [logOf_called, logOf_nil, List.append_nil]
      exact kept_of_call ih behind
    | prompted hp a =>
      rw [Level.logOf_marks]
      exact ih.asked hp nofun a rfl rfl
    | heard hp a =>
      rw [Level.logOf_marks]
      exact ih.asked hp nofun a rfl rfl

end Law

end CommandConsole.Session
