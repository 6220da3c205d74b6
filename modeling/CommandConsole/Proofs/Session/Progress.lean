import CommandConsole.Proofs.Session.Cast

/-!
# Nothing holds a shell up but its input

A shell whose commands are all built-in waits for two things only, for its line and for a time. On a
terminal on streams whose input has ended there is an answer for every read that was started, and
whatever waits for a time goes on when that has come. So a run of such shells goes on until the
outermost one is over.

Results: `ready_of_plan`, `ready_of_script` (one session). Main statement: `ready_of_told`.
-/

namespace CommandConsole

open Session Builtin Source Terminal

/-! ## An input that has ended -/

namespace Source

variable {s s' : Source} {answer : Except StreamFault (Option String)}

theorem readLine?_closed (h : s.readLine? = some (answer, s')) : s'.closed = s.closed := by
  unfold readLine? at h
  simp only at h
  split at h
  · cases h
    rfl
  · cases h

theorem readLine?_ne_none (h : s.closed = true) : s.readLine? ≠ none := by
  unfold readLine?
  simp only
  rw [if_pos (.inr h)]
  exact nofun

end Source

theorem PlainTerminal.advance_closed (t : PlainTerminal) (source : Source) :
    (t.advance source).2.closed = source.closed := by
  unfold advance
  split
  · split
    next hr => exact readLine?_closed hr
    · rfl
  · rfl

namespace World

variable {w w' : World} {items : List Item} {given : List (Except StreamFault Event)}
  {t : PlainTerminal}

/-- An input that has ended stays so. -/
theorem closed_of_goes (ht : w.terminal = .plain t) (h : w.Goes items given w')
    (hclosed : w.input.closed = true) : w'.input.closed = true := by
  cases h with
  | start text =>
    rcases startRead_plain ht text with ⟨fault, sink, he⟩ | ⟨sink, he⟩ <;> rw [he]
    · exact hclosed
    · exact (PlainTerminal.advance_closed _ w.input).trans hclosed
  | poll text =>
    have hadvance := (PlainTerminal.advance_closed t w.input).trans hclosed
    cases htaken : (t.advance w.input).1.takeAnswer? with
    | none => rw [pollRead_none ht htaken]; exact hadvance
    | some taken => rw [pollRead_some ht htaken]; exact hadvance
  | stir hs =>
    cases hs with
    | @advance t' => exact (PlainTerminal.advance_closed t' w.input).trans hclosed
    | receive => exact hclosed
    | close => rfl
    | clone => exact hclosed
    | elsewhere _ hi => rw [hi]; exact hclosed

/-- **A read that was started has its answer** if the input has ended. -/
theorem answer_of_reads (h : w.Reads) (hclosed : w.input.closed = true) (text : String) :
    ∃ e, (w.pollRead text).1.answer = some e := by
  obtain ⟨t, ht, hpending⟩ := h
  cases htaken : (t.advance w.input).1.takeAnswer? with
  | none =>
    obtain ⟨hnone, -⟩ := PlainTerminal.readLine?_of_waiting hpending htaken
    exact absurd hnone (readLine?_ne_none hclosed)
  | some taken => exact ⟨taken.1, by rw [pollRead_some ht htaken]⟩

end World

/-! ## One session -/

namespace Level

/-- A session is not held up: it goes on, it starts a nested one, or it waits for a time and goes on
when that has come. -/
inductive Ready (console : Console) (w : World) (l : Level) : Prop
  | moved {l' : Level} {w' : World} {interrupts : Bool}
      (h : l.step console w = .moved l' w' interrupts)
  | nests {l' child : Level} {w' : World} (h : l.step console w = .nests l' child w')
  | waits {time : Nat} {l' : Level} {w' : World} {interrupts : Bool}
      (h : l.step console w = .blocked (some time))
      (hlater : l.step console { w with clock := max w.clock time } = .moved l' w' interrupts)

variable {console : Console} {w : World} {l : Level} {n k : Nat}

/-- **The own plan of a session** is held up only by a read. -/
theorem ready_of_plan {plan : Plan Next} (hp : l.phase = .own plan)
    (hevent : ∀ text next, plan = .ask (.event text) next →
      l.state.cancelled = true ∨ ∃ e, (w.pollRead text).1.answer = some e) : l.Ready console w := by
  have hstep : l.step console w = l.planStep console w plan := by rw [step, hp]
  cases plan with
  | done x => cases x <;> exact .moved hstep
  | ask r next =>
    cases r with
    | write | flush | isCancelled | renew | exitValue | resolve | run => exact .moved hstep
    | prompt text =>
      simp only [planStep] at hstep
      split at hstep <;> exact .moved hstep
    | event text =>
      simp only [planStep] at hstep
      split at hstep
      · exact .moved hstep
      next hc =>
        obtain ⟨e, he⟩ := (hevent text next rfl).resolve_left hc
        rw [he] at hstep
        exact .moved hstep

/-- **A built-in command** is held up only until a time. -/
theorem ready_of_script {script : Command.Script (Except Failure ExitCode)}
    {next : Except Failure ExitCode → Plan Next} (hp : l.phase = .command script next)
    (h : Command.Modest n k script) : l.Ready console w := by
  have hstep : ∀ w, l.step console w = l.scriptStep console w next script := fun w => by
    rw [step, hp]
  cases h with
  | done result => exact .moved (hstep w)
  | nest => exact .nests (hstep w)
  | ask hr =>
    cases hr with
    | write | clock | calendar | setExitValue => exact .moved (hstep w)
    | wait deadline =>
      have hnow := hstep w
      have hlater := hstep { w with clock := max w.clock deadline }
      simp only [scriptStep] at hnow hlater
      split at hnow
      · exact .moved hnow
      next hc =>
        rw [if_neg hc] at hlater
        split at hnow
        · exact .moved hnow
        · have hcome : (some deadline).any (· ≤ max w.clock deadline) = true :=
            decide_eq_true (Nat.le_max_right _ _)
          rw [if_pos hcome] at hlater
          exact .waits hnow hlater

end Level

/-! ## Runs -/

namespace Run

variable {items : List Item} {c : Chronicle} {r : Run} {cast : Cast} {outer : List Level} {l : Level}

/-- What may be said of a run that nothing holds up. -/
inductive Ready (r : Run) : Prop
  | finished {result : Except Failure ExitCode} (h : r.result? = some result)
      (hstop : r.step = .error none)
  | step {r' : Run} (h : r.step = .ok r')
  | waits {time : Nat} {r' : Run} (h : r.step = .error (some time))
      (hlater : (r.passTo time).step = .ok r')

theorem executing_of_nests (h : l.phase.nests = true) : l.executing = true := by
  obtain ⟨resume, next, hp⟩ := Phase.eq_nested_of_nests h
  rw [Level.executing, hp]

theorem exists_step {levels : List Level} {w : World} {interrupts : Bool}
    (h : stepLevels r.console r.world r.levels = .moved levels w interrupts) :
    ∃ r', r.step = .ok r' := by
  unfold step
  rw [h]
  exact ⟨_, rfl⟩

/-- **A run is ready** if its last session is, while the others wait. -/
theorem ready_of_level (hl : r.levels = outer ++ [l])
    (houter : ∀ o ∈ outer, o.phase.nests = true) (hexecuting : l.executing = true)
    (h : l.Ready r.console r.world) : Ready r := by
  -- The others take no part in a step.
  have hchain : ∀ w, stepLevels r.console w r.levels =
      (stepLevels r.console w [l]).within outer := by
    intro w
    rw [hl]
    exact (stepLevels_append l [] (fun o ho => executing_of_nests (houter o ho)) hexecuting).1
  cases h with
  | moved h =>
    have hmoved := hchain r.world
    rw [stepLevels, h] at hmoved
    obtain ⟨r', hs⟩ := exists_step hmoved
    exact .step hs
  | nests h =>
    have hmoved := hchain r.world
    rw [stepLevels, h] at hmoved
    obtain ⟨r', hs⟩ := exists_step hmoved
    exact .step hs
  | @waits time _ _ _ h hlater =>
    have hblocked := hchain r.world
    have hmoved := hchain (r.passTo time).world
    rw [stepLevels, h] at hblocked
    rw [stepLevels, passTo, hlater] at hmoved
    obtain ⟨r', hs⟩ := exists_step (r := r.passTo time) hmoved
    refine .waits ?_ hs
    unfold step
    rw [hblocked]
    rfl

/-- The last two sessions of a run, of which the others take no part. -/
theorem Told.chain (h : Told items c r cast) {before : List (Story × Level)} {p : Story × Level}
    (houter : cast.outer = before.concat p) : stepLevels r.console r.world r.levels =
      (stepLevels r.console r.world [p.2, cast.level]).within (before.map Prod.snd) := by
  have hnests := h.outer_nests
  rw [houter, List.map_concat, List.concat_eq_append] at hnests
  obtain ⟨hbefore, hlast⟩ := List.forall_mem_append.mp hnests
  rw [h.levels, houter, List.map_concat, List.concat_eq_append, List.append_assoc]
  exact (stepLevels_append p.2 [cast.level]
    (fun o ho => executing_of_nests (hbefore o ho))
    (executing_of_nests (hlast _ List.mem_cons_self))).1

/-- **Nothing holds a run up** when its input has ended. -/
theorem ready_of_told (hbuiltin : r.console.OnlyBuiltins) (h : Told items c r cast)
    (hclosed : r.world.input.closed = true) : Ready r := by
  obtain ⟨args, env, hfares⟩ := h.fares
  cases hp : cast.level.phase with
  | nested resume next =>
    have hinner := h.innermost
    rw [hp] at hinner
    cases hinner
  | own plan =>
    refine ready_of_level h.levels h.outer_nests (by rw [Level.executing, hp])
      (Level.ready_of_plan hp ?_)
    rintro text next rfl
    have hstands := (Level.thrift_of_fares hfares).stands
    rw [hp] at hstands
    have hshown : (thrift.view cast.story.log).shown = some text := hstands.1.2
    rcases h.reads (by simp [hshown]) with hc | hreads
    · exact .inl hc
    · exact .inr (World.answer_of_reads hreads hclosed text)
  | command script next =>
    obtain ⟨m, k, hmodest, -⟩ := (Level.spares_of_fares hbuiltin hfares).command hp
    exact ready_of_level h.levels h.outer_nests (by rw [Level.executing, hp])
      (Level.ready_of_script hp hmodest)
  | idle =>
    -- It was started by another one, and now begins or is refused.
    rcases List.eq_nil_or_concat cast.outer with hnone | ⟨before, p, houter⟩
    · exact absurd hp (h.begun hnone)
    · have hchain := h.chain houter
      rw [stepLevels, hp] at hchain
      cases hx : cast.level.execute r.console with
      | ok l' =>
        simp only [hx] at hchain
        obtain ⟨r', hs⟩ := exists_step hchain
        exact .step hs
      | error e =>
        simp only [hx] at hchain
        obtain ⟨r', hs⟩ := exists_step hchain
        exact .step hs
  | «over» result =>
    rcases List.eq_nil_or_concat cast.outer with hnone | ⟨before, p, houter⟩
    · have hl : r.levels = [cast.level] := by rw [h.levels, hnone]; rfl
      have hresult : r.result? = some result := by
        rw [result?_eq_some_iff, hl, ← hp]
        rfl
      refine .finished hresult ?_
      unfold step
      rw [hl, stepLevels, Level.step, hp]
    · have hchain := h.chain houter
      rw [stepLevels, hp] at hchain
      obtain ⟨r', hs⟩ := exists_step hchain
      exact .step hs

end Run

end CommandConsole
