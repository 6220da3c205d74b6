import CommandConsole.Proofs.Session.Progress
import CommandConsole.Proofs.Session.Subshells

/-!
# Shells over an input that ends

A shell whose commands are all built-in, and all that are nested in it at whatever depth, end if
their terminal is on streams and the input ends. Each turn of each of them that comes to read hears
one answer of the input, or an interrupt; the answers go to the turns in the order of the input, and
of the interrupts each is heard once. After the end of the input, or an answer that cannot be read,
a shell has its partings only. So the lines of the input and the interrupts bound the shells that
are ever started and the steps that they take, and nothing holds them up when the input has ended.

A turn whose prompt cannot be shown hears nothing, and its shell has its partings only.

Results: `shells_le`, `interrupts_le`, `steps_le` (the bounds), `plays_of_told` (the end). Main
statement: `ends_of_chronicled`.
-/

namespace CommandConsole

open Session Builtin Source Terminal

/-- What comes behind a prompt in the log of a shell: what a turn that comes to read comes to. -/
inductive Session.Iteration (text : String) : Answer (.prompt text) → List Entry → Prop
  /-- It has heard nothing yet. -/
  | waits : Iteration text (.ok ()) []
  | line (line : String) (rest : List Entry) :
      Iteration text (.ok ()) (.asked (.event text) (.ok (.line line)) :: rest)
  | interrupted (rest : List Entry) :
      Iteration text (.ok ()) (.asked (.event text) (.ok .interrupted) :: rest)
  | endOfInput {rest : List Entry} (h : Partings none rest) :
      Iteration text (.ok ()) (.asked (.event text) (.ok .endOfInput) :: rest)
  /-- The next line cannot be read. -/
  | unreadable (fault : StreamFault) {rest : List Entry} (h : Partings (some (.stream fault)) rest) :
      Iteration text (.ok ()) (.asked (.event text) (.error fault) :: rest)
  /-- The prompt cannot be shown. -/
  | unshown (fault : StreamFault) {rest : List Entry} (h : Partings (some (.stream fault)) rest) :
      Iteration text (.error fault) rest

/-- A turn that comes to read. -/
def Session.Entry.isPrompt : Entry → Bool
  | .asked (.prompt _) _ => true
  | _ => false

/-! ## Sums over the shells -/

/-- A line was heard where the terminal has given one. -/
theorem countP_isLine (log : List Entry) : log.countP Entry.isLine =
    ((log.filterMap Entry.heard?).filterMap gotLine?).length := by
  have hx : ∀ x : Entry, x.isLine = (x.heard?.bind gotLine?).isSome := by
    intro x
    unfold Entry.isLine Entry.heard?
    split
    · rfl
    next hline =>
      split
      · rfl
      next prompt e _ =>
        match e with
        | .ok (.line text) => exact absurd rfl (hline prompt text)
        | .ok .endOfInput | .ok .interrupted | .error fault => rfl
      · rfl
  rw [List.filterMap_filterMap, List.length_filterMap_eq_countP]
  exact List.countP_congr fun x _ => by rw [hx]

theorem sum_countP_isLine (logs : List (List Entry)) :
    (logs.map (·.countP Entry.isLine)).sum =
      ((logs.flatMap (·.filterMap Entry.heard?)).filterMap gotLine?).length := by
  induction logs with
  | nil => rfl
  | cons log rest ih =>
    rw [List.map_cons, List.sum_cons, ih, countP_isLine, List.flatMap_cons, List.filterMap_append,
      List.length_append]

namespace Cast

variable {cast : Cast}

/-- All stories. -/
def stories (cast : Cast) : List Story :=
  cast.ended ++ (cast.outer.map Prod.fst ++ [cast.story])

theorem total_eq_sum (f : Story → Nat) (cast : Cast) : cast.total f = (cast.stories.map f).sum := by
  simp [total, stories, Nat.add_assoc, Function.comp_def]

end Cast

/-- What each of some stories is bounded by, added up. -/
theorem sum_le_of_forall {stories : List Story} {f g h : Story → Nat} {a b d : Nat}
    (hle : ∀ s ∈ stories, f s ≤ a + b * g s + d * h s) :
    (stories.map f).sum ≤ a * stories.length + b * (stories.map g).sum + d * (stories.map h).sum := by
  induction stories with
  | nil => exact Nat.zero_le _
  | cons s rest ih =>
    obtain ⟨hs, hrest⟩ := List.forall_mem_cons.mp hle
    have hsum := ih hrest
    simp only [List.map_cons, List.sum_cons, List.length_cons, Nat.mul_add, Nat.mul_one]
    omega

namespace Run

variable {console : Console} {w : World} {r r' r₀ : Run} {c : Chronicle} {cast : Cast}
  {items : List Item} {t : PlainTerminal} {args : List String} {env : Environment}

/-! ## The bounds -/

theorem Told.logs (h : Told items c r cast) : c.logs = cast.stories.map Story.log := by
  rw [Chronicle.logs, h.ended, h.current, Cast.stories]
  simp

theorem Told.faring (h : Told items c r cast) : ∀ s ∈ cast.stories, ∃ l, Faring r.console s l := by
  intro s hs
  rcases List.mem_append.mp hs with hs | hs
  · exact h.gone s hs
  · rcases List.mem_append.mp hs with hs | hs
    · obtain ⟨p, hp, rfl⟩ := List.mem_map.mp hs
      exact ⟨p.2, (h.waits p hp).1⟩
    · obtain rfl := List.mem_singleton.mp hs
      exact ⟨cast.level, h.fares⟩

/-- The lines that the shells have heard. -/
theorem Told.lines (h : Told items c r cast) :
    (cast.stories.map fun s => s.log.countP Entry.isLine).sum =
      (c.heard.filterMap gotLine?).length := by
  have hlines := sum_countP_isLine c.logs
  rw [h.logs, List.map_map] at hlines
  rw [← (h.heard.filterMap gotLine?).length_eq, h.logs]
  exact hlines

theorem Told.lines_le (h : Told items c r cast) :
    (c.heard.filterMap gotLine?).length ≤ (linesOf (items ++ c.arrived)).length :=
  (World.lines_of_serves h.serves).length_le

/-- **Each shell but the first was started behind a line.** -/
theorem shells_le (hbuiltin : r.console.OnlyBuiltins) (h : Told items c r cast) :
    c.logs.length ≤ 1 + (c.heard.filterMap gotLine?).length := by
  have hopened : (cast.stories.map Story.opened).sum ≤ 0 * cast.stories.length +
      1 * (cast.stories.map fun s => s.log.countP Entry.isLine).sum +
      0 * (cast.stories.map Story.hits).sum := by
    refine sum_le_of_forall fun s hs => ?_
    obtain ⟨l, args, env, hfares⟩ := h.faring s hs
    obtain ⟨hle, -⟩ := Level.bounds_of_fares hbuiltin hfares
    omega
  have hshells := h.shells
  have hlength : c.logs.length = cast.ended.length + cast.outer.length + 1 := by
    rw [h.logs, Cast.stories]
    simp [Nat.add_assoc]
  rw [Cast.total_eq_sum] at hshells
  rw [h.lines] at hopened
  omega

/-- **Each interrupt at a prompt** is one of those that came. -/
theorem interrupts_le (hbuiltin : r.console.OnlyBuiltins) (h : Told items c r cast) :
    (c.logs.map (·.countP Entry.isInterrupted)).sum ≤ c.interrupts := by
  have hhits : (cast.stories.map fun s => s.log.countP Entry.isInterrupted).sum ≤
      0 * cast.stories.length + 1 * (cast.stories.map Story.hits).sum +
      0 * (cast.stories.map Story.hits).sum := by
    refine sum_le_of_forall fun s hs => ?_
    obtain ⟨l, args, env, hfares⟩ := h.faring s hs
    obtain ⟨-, hle, -⟩ := Level.bounds_of_fares hbuiltin hfares
    omega
  have htotal := h.hits
  rw [Cast.total_eq_sum] at htotal
  rw [h.logs, List.map_map]
  change (cast.stories.map fun s => s.log.countP Entry.isInterrupted).sum ≤ c.interrupts
  omega

/-- **The lines of the input and the interrupts bound the steps.** -/
theorem steps_le (hbuiltin : r.console.OnlyBuiltins) (h : Told items c r cast) :
    c.steps ≤ 20 + 58 * (linesOf (items ++ c.arrived)).length + 21 * c.interrupts := by
  have hsum : (cast.stories.map Story.steps).sum ≤ 20 * cast.stories.length +
      38 * (cast.stories.map fun s => s.log.countP Entry.isLine).sum +
      21 * (cast.stories.map Story.hits).sum := by
    refine sum_le_of_forall fun s hs => ?_
    obtain ⟨l, args, env, hfares⟩ := h.faring s hs
    exact (Level.bounds_of_fares hbuiltin hfares).2.2
  have hsteps := h.steps
  have hhits := h.hits
  have hshells := shells_le hbuiltin h
  have hlines := h.lines_le
  rw [h.logs, List.length_map] at hshells
  rw [Cast.total_eq_sum] at hsteps hhits
  rw [h.lines] at hsum
  omega

/-! ## The end -/

/-- A shell that is over ended with a code. -/
theorem code_of_told (h : Told items c r cast) {result : Except Failure ExitCode}
    (hr : r.result? = some result) : ∃ code, result = .ok code := by
  rw [result?_eq_some_iff, h.levels] at hr
  rcases houter : cast.outer with _ | ⟨p, rest⟩
  · rw [houter] at hr
    have hp : cast.level.phase = .over result := Option.some.inj hr
    obtain ⟨args, env, hfares⟩ := h.fares
    obtain ⟨past, hpast, -⟩ := Level.past_of_fares hfares
    have hstands := (kept_ending hpast).stands
    rw [hp, view_ending] at hstands
    obtain ⟨_, _, e, _, _, _, hcode⟩ :=
      code_of_closes hstands (Level.exits_of_past hpast rfl)
    exact ⟨_, hcode⟩
  · -- The outermost shell waits for another.
    rw [houter] at hr
    have hp : p.2.phase = .over result := Option.some.inj hr
    have hnests := (h.waits p (by simp [houter])).2
    rw [hp] at hnests
    cases hnests

/-- A run whose input has ended is over, with a code, or goes on to a step more, which may have to
wait. -/
theorem progress_of_told (hbuiltin : r.console.OnlyBuiltins) (h : Told items c r cast)
    (hclosed : r.world.input.closed = true) :
    (∃ code, r.result? = some (.ok code) ∧ r.step = .error none) ∨
      ∃ beats r' entries cast', Plays r beats r' ∧ r'.console = r.console ∧
        r'.world.input.closed = true ∧ Told items (c.goOn entries r'.levels.length) r' cast' := by
  obtain ⟨t, hplain⟩ := h.serves.plain
  cases ready_of_told hbuiltin h hclosed with
  | finished hr hstop =>
    obtain ⟨code, rfl⟩ := code_of_told h hr
    exact .inl ⟨code, hr, hstop⟩
  | step hs =>
    obtain ⟨hconsole, hgoes, cast', hnext⟩ := told_step hbuiltin h hs
    exact .inr ⟨_, _, _, cast', .step hs (.refl _), hconsole,
      World.closed_of_goes hplain hgoes hclosed, hnext⟩
  | @waits time r' hs hlater =>
    have hpasses : r.world.Stirs [] (r.passTo time).world := .elsewhere rfl rfl
    have hpassed := told_world h hpasses
    rw [List.append_nil] at hpassed
    obtain ⟨hconsole, hgoes, cast', hnext⟩ := told_step (r := r.passTo time) hbuiltin hpassed hlater
    exact .inr ⟨_, _, _, cast', .wait hs (.step hlater (.refl _)), hconsole,
      World.closed_of_goes (w := (r.passTo time).world) hplain hgoes hclosed, hnext⟩

/-- **A run whose input has ended comes to its end**, with a code. -/
theorem plays_of_told (hbuiltin : r.console.OnlyBuiltins) (h : Told items c r cast)
    (hclosed : r.world.input.closed = true) :
    ∃ beats r' code, Plays r beats r' ∧ r'.result? = some (.ok code) ∧ r'.step = .error none := by
  -- By induction on the steps that the bound leaves.
  obtain ⟨n, hn⟩ : ∃ n, 20 + 58 * (linesOf (items ++ c.arrived)).length + 21 * c.interrupts <
      c.steps + n := ⟨_, Nat.lt_add_left c.steps (Nat.lt_succ_self _)⟩
  induction n generalizing c r cast with
  | zero => exact absurd (steps_le hbuiltin h) (Nat.not_le_of_lt hn)
  | succ n ih =>
    rcases progress_of_told hbuiltin h hclosed with
      ⟨code, hr, hstop⟩ | ⟨beats, r', entries, cast', hplays, hconsole, hclosed', hnext⟩
    · exact ⟨[], r, code, .refl r, hr, hstop⟩
    · have hleft : 20 + 58 * (linesOf (items ++ c.arrived)).length + 21 * c.interrupts <
          c.steps + 1 + n := Nat.lt_of_lt_of_eq hn (by omega)
      obtain ⟨more, r'', code, hmore, hend⟩ := ih (hconsole ▸ hbuiltin) hnext hclosed' hleft
      exact ⟨_, r'', code, hplays.trans hmore, hend⟩

/-! ## Main statement -/

theorem iteration_of_faring {s : Story} {l : Level} (h : Faring console s l)
    {before after : List Entry} {text : String} {a : Answer (.prompt text)}
    (he : s.log = before ++ .asked (.prompt text) a :: after) : Iteration text a after := by
  obtain ⟨args, env, hfares⟩ := h
  have hthrifty : Thrifty s.log := (Level.thrift_of_fares hfares).permitted
  have hcourse := Level.course_of_fares hfares
  cases a with
  | error fault =>
    obtain ⟨e, hs, hp⟩ := partings_of_stop hcourse he rfl (.prompt text fault)
    cases hs
    exact .unshown fault hp
  | ok done =>
    rcases event_of_prompt hthrifty he with rfl | ⟨e, rest, rfl⟩
    · exact .waits
    · -- Where the event ends the shell, its partings come behind it.
      have hevent : s.log = (before ++ [.asked (.prompt text) (.ok done)]) ++
          .asked (.event text) e :: rest := by
        rw [he, List.append_assoc]
        rfl
      match e with
      | .ok (.line line) => exact .line line rest
      | .ok .interrupted => exact .interrupted rest
      | .ok .endOfInput =>
        obtain ⟨e, hs, hp⟩ := partings_of_stop hcourse hevent rfl (.endOfInput text)
        cases hs
        exact .endOfInput hp
      | .error fault =>
        obtain ⟨e, hs, hp⟩ := partings_of_stop hcourse hevent rfl (.line text fault)
        cases hs
        exact .unreadable fault hp

/-- What a chronicle accounts for, over the input of the world in which its run began. -/
structure Accounted (w : World) (c : Chronicle) (r : Run) : Prop where
  /-- A turn that comes to read hears a line, or that it cannot be read, or the end of the input, or
  an interrupt, unless its prompt cannot be shown. Behind all of these but a line and an interrupt
  the shell has its partings only. -/
  turns : ∀ log ∈ c.logs, ∀ before text a after,
    log = before ++ .asked (.prompt text) a :: after → Iteration text a after
  /-- Each answer of the input is heard at one turn only. -/
  heard : (c.logs.flatMap (·.filterMap Entry.heard?)).Perm c.heard
  /-- They are the answers of the input in its order. -/
  answers : ∀ i e, c.heard[i]? = some e →
    e = (answerAt (w.input.rest ++ c.arrived) i).map Event.ofLine?
  /-- No more turns hear an interrupt than interrupts came. -/
  interrupted : (c.logs.map (·.countP Entry.isInterrupted)).sum ≤ c.interrupts
  /-- A shell meets the end of the input once at most. -/
  ended : ∀ log ∈ c.logs, log.countP Entry.isEnd ≤ 1
  /-- Each shell but the first was started behind a line. -/
  shells : c.logs.length ≤ 1 + (c.heard.filterMap gotLine?).length
  /-- The lines of the input and the interrupts bound the steps. -/
  steps : c.steps ≤ 20 + 58 * (linesOf (w.input.rest ++ c.arrived)).length + 21 * c.interrupts
  /-- Once the input has ended, the run that is left alone ends with a code. -/
  ends : r.world.input.closed = true →
    ∃ code n, ∀ m, n ≤ m → (r.play m).2.result? = some (.ok code)

/-- **Shells over an input that ends**, at any depth of nesting, whenever they are interrupted, and
whatever becomes of what they write. Each turn of each shell that comes to read uses up an answer of
the input or an interrupt, unless its prompt cannot be shown and its shell ends. Each shell meets the
end of the input once at most, and there is at most one shell more than lines were heard. The steps
of all shells are bounded, and once the input has ended, so does the outermost shell. -/
theorem ends_of_chronicled (hbuiltin : console.OnlyBuiltins) (ht : w.terminal = .plain t)
    (hp : t.pending = none) : ∃ r₀, (ofShell console w args env).execute = .ok r₀ ∧
      ∀ c r, Chronicled r₀ c r → Accounted w c r := by
  refine ⟨_, rfl, fun c r h => ?_⟩
  obtain ⟨rfl, cast, htold⟩ := told_of_chronicled hbuiltin ht hp rfl h
  have hfaring : ∀ log ∈ c.logs, ∃ s l, s.log = log ∧ Faring r.console s l := by
    intro log hlog
    rw [htold.logs] at hlog
    obtain ⟨s, hs, rfl⟩ := List.mem_map.mp hlog
    obtain ⟨l, hfaring⟩ := htold.faring s hs
    exact ⟨s, l, rfl, hfaring⟩
  refine
    { turns := ?_
      heard := htold.heard
      answers := fun i e hi => World.answer_of_serves htold.serves hi
      interrupted := interrupts_le hbuiltin htold
      ended := ?_
      shells := shells_le hbuiltin htold
      steps := steps_le hbuiltin htold
      ends := ?_ }
  · rintro log hlog before text a after he
    obtain ⟨s, l, rfl, hf⟩ := hfaring log hlog
    exact iteration_of_faring hf he
  · intro log hlog
    obtain ⟨s, l, rfl, args, env, hf⟩ := hfaring log hlog
    exact ends_le_one (Level.course_of_fares hf)
  · intro hclosed
    obtain ⟨beats, r', code, hplays, hr, hstop⟩ := plays_of_told hbuiltin htold hclosed
    obtain ⟨n, hn⟩ := play_of_plays hplays hstop
    exact ⟨code, n, fun m hm => by rw [hn m hm]; exact hr⟩

/-! ### A nested shell, and one whose prompt cannot be shown -/

/-- Lets a run take steps, for a number of steps at most, with its chronicle. -/
def tell : Nat → Chronicle → Run → Chronicle × Run
  | 0, c, r => (c, r)
  | n + 1, c, r =>
    match r.step with
    | .ok r' => tell n (c.goOn r.entries r'.levels.length) r'
    | .error _ => (c, r)

theorem Chronicled.tell (h : Chronicled r₀ c r) (n : Nat) :
    Chronicled r₀ (tell n c r).1 (tell n c r).2 := by
  induction n generalizing c r with
  | zero => exact h
  | succ n ih =>
    unfold Run.tell
    cases hs : r.step with
    | ok r' => exact ih (h.step hs)
    | error deadline => exact h

/-- A shell that has just begun. -/
def begun (console : Console) (w : World) : Run where
  console := console
  world := w
  levels := [{ Level.shell console.settings [] {} with
    state := { executed := true, running := true }
    phase := .own (orClose (greet console.settings)) }]

/-- The lines start a nested shell and leave it, and then the outer one meets the end. -/
def subshellWorld : World where
  input := .ofText "subshell\nexit 3\n"
  terminal := .plain {}

/-- The outer shell is interrupted at its first prompt, and the run is told until the nested shell
has begun. -/
def interruptedShell : Chronicle × Run :=
  tell 16 { interrupts := 1 } ((begun builtinConsole subshellWorld).interruptAt 0).2

theorem ends_of_interruptedShell :
    Chronicled (begun builtinConsole subshellWorld) interruptedShell.1 interruptedShell.2 ∧
    Accounted subshellWorld interruptedShell.1 interruptedShell.2 ∧
    (interruptedShell.1.logs.map (·.countP Entry.isInterrupted)).sum = 1 ∧
    interruptedShell.1.interrupts = 1 ∧
    interruptedShell.1.logs.length = 2 ∧
    interruptedShell.1.heard.filterMap gotLine? = ["subshell"] ∧
    interruptedShell.2.world.input.closed = true := by
  have htold : Chronicled (begun builtinConsole subshellWorld) interruptedShell.1
      interruptedShell.2 := (Chronicled.start.interrupt 0).tell 16
  have hends : ∃ r₀, (ofShell builtinConsole subshellWorld [] {}).execute = .ok r₀ ∧
      ∀ c r, Chronicled r₀ c r → Accounted subshellWorld c r :=
    ends_of_chronicled (Console.onlyBuiltins_of_bundle rfl) rfl rfl
  obtain ⟨r₀, hbegun, haccounted⟩ := hends
  obtain rfl : begun builtinConsole subshellWorld = r₀ := Except.ok.inj hbegun
  refine ⟨htold, haccounted _ _ htold, ?_⟩
  decide +kernel

/-- The lines start a nested shell and leave the first shell that reads the next one. The second
write fails, which is the prompt of the nested shell. -/
def deafWorld : World where
  first := { faults := .writeAt 1 ⟨"sink failed"⟩ }
  input := .ofText "subshell\nexit 5\n"
  terminal := .plain {}

/-- The turn of the nested shell hears nothing: of the three turns that come to read, two have heard
the two lines, nobody has met the end of the input, and no interrupt came. -/
theorem silent_of_unshown : (ofShell builtinConsole deafWorld [] {}).execute =
      .ok (begun builtinConsole deafWorld) ∧
    ∃ c r, Chronicled (begun builtinConsole deafWorld) c r ∧ r.result? = some (.ok 5) ∧
      (c.logs.map (·.countP Entry.isPrompt)).sum = 3 ∧
      c.heard = [.ok (.line "subshell"), .ok (.line "exit 5")] ∧ c.interrupts = 0 := by
  refine ⟨rfl, _, _, Chronicled.start.tell 100, ?_, ?_, ?_, rfl⟩
  all_goals decide +kernel

end Run

end CommandConsole
