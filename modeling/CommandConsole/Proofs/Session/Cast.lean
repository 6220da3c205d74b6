import CommandConsole.Proofs.Session.Chronicle
import Mathlib.Algebra.GroupWithZero.Nat

/-!
# The stories behind a chronicle

Each shell of a run has a story (`Level.Fares`), and what a chronicle counts is what the stories add
up to. The `Cast` of a run has all its shells with their stories, and `Told` says how they make up
its chronicle. What is asked of each story alone is known already; so for each change of the run it
remains to say which of the stories goes on.

Main statement: `told_of_chronicled`.
-/

namespace CommandConsole

open Session Builtin Source Terminal

/-- The shells of a run with their stories. -/
structure Cast where
  /-- Those that have ended. -/
  ended : List Story := []
  /-- Those that wait for the next one, the outermost first. -/
  outer : List (Story × Level) := []
  /-- The innermost one. -/
  story : Story
  level : Level

namespace Cast

/-- What the stories add up to. -/
def total (f : Story → Nat) (cast : Cast) : Nat :=
  (cast.ended.map f).sum + (cast.outer.map fun p => f p.1).sum + f cast.story

/-- The innermost shell starts another and waits for it. -/
def enter (cast : Cast) (l child : Level) : Cast :=
  { cast with
    outer := cast.outer ++ [(cast.story.opens, l)]
    story := {}
    level := child }

theorem total_enter {f : Story → Nat} {cast : Cast} {n : Nat}
    (hf : f cast.story.opens = f cast.story + n) (hnew : f {} = 0) (l child : Level) :
    (cast.enter l child).total f = cast.total f + n := by
  simp only [total, enter, List.map_append, List.sum_append, List.map_singleton,
    List.sum_singleton, hf, hnew]
  omega

/-- The innermost shell has ended, and the one that waited for it goes on. -/
def leave (cast : Cast) (outer : List (Story × Level)) (s : Story) (l : Level) : Cast where
  ended := cast.ended ++ [cast.story]
  outer := outer
  story := s.goOn []
  level := l

theorem total_leave {f : Story → Nat} {cast : Cast} {outer : List (Story × Level)}
    {p : Story × Level} {n : Nat} (houter : cast.outer = outer ++ [p])
    (hf : f (p.1.goOn []) = f p.1 + n) (l : Level) :
    (cast.leave outer p.1 l).total f = cast.total f + n := by
  simp only [total, leave, houter, List.map_append, List.sum_append, List.map_singleton,
    List.sum_singleton, hf]
  omega

/-- One of the shells that wait goes on. -/
def stir (cast : Cast) (before after : List (Story × Level)) (q : Story × Level) : Cast :=
  { cast with outer := before ++ q :: after }

theorem total_stir {cast : Cast} {before after : List (Story × Level)} {p : Story × Level}
    (houter : cast.outer = before ++ p :: after) (q : Story × Level) {f : Story → Nat} {n : Nat}
    (hf : f q.1 = f p.1 + n) : (cast.stir before after q).total f = cast.total f + n := by
  simp only [total, stir, houter, List.map_append, List.sum_append, List.map_cons, List.sum_cons, hf]
  omega

end Cast

namespace Run

/-- A shell with its story. -/
def Faring (console : Console) (s : Story) (l : Level) : Prop :=
  ∃ args env, Level.Fares console (Level.shell console.settings args env) s l

/-- The stories of a run make up its chronicle. The input had some items at first. -/
structure Told (items : List Item) (c : Chronicle) (r : Run) (cast : Cast) : Prop where
  levels : r.levels = cast.outer.map Prod.snd ++ [cast.level]
  ended : c.ended = cast.ended.map Story.log
  current : c.current = cast.outer.map (fun p => p.1.log) ++ [cast.story.log]
  gone : ∀ s ∈ cast.ended, ∃ l, Faring r.console s l
  waits : ∀ p ∈ cast.outer, Faring r.console p.1 p.2 ∧ p.2.phase.nests = true
  fares : Faring r.console cast.story cast.level
  innermost : cast.level.phase.nests = false
  begun : cast.outer = [] → cast.level.phase ≠ .idle
  shells : cast.ended.length + cast.outer.length = cast.total Story.opened
  steps : c.steps ≤ cast.total Story.steps
  hits : cast.total Story.hits ≤ c.interrupts
  heard : (c.logs.flatMap (·.filterMap Entry.heard?)).Perm c.heard
  serves : r.world.Serves (items ++ c.arrived) c.heard
  /-- Where the prompt was shown, the read has started, unless it will be given up. -/
  reads : (thrift.view cast.story.log).shown ≠ none →
    cast.level.state.cancelled = true ∨ r.world.Reads

variable {console : Console} {w w' : World} {l l' child : Level} {levels : List Level}
  {entries : List Entry} {interrupts : Bool} {r r' r₀ : Run} {c : Chronicle} {cast : Cast}
  {items more : List Item} {t : PlainTerminal} {args : List String} {env : Environment}

theorem Told.length (h : Told items c r cast) : r.levels.length = cast.outer.length + 1 := by
  rw [h.levels, List.length_append, List.length_map]
  rfl

theorem Told.outer_nests (h : Told items c r cast) :
    ∀ o ∈ cast.outer.map Prod.snd, o.phase.nests = true := by
  intro o ho
  obtain ⟨p, hp, rfl⟩ := List.mem_map.mp ho
  exact (h.waits p hp).2

theorem shown_eq_none {s : Story} (h : Faring console s l)
    (hp : ∀ r next, l.phase ≠ .own (.ask r next)) : (thrift.view s.log).shown = none := by
  obtain ⟨args, env, hfares⟩ := h
  exact shown_of_stands (Level.thrift_of_fares hfares).stands hp

/-- A prompt that was shown starts the read. -/
theorem reads_of_shown {text : String} {done : Unit} (ht : w.terminal = .plain t)
    (hshown : (w.startRead text).1 = .ok done) : (w.startRead text).2.Reads := by
  rcases World.startRead_plain ht text with ⟨fault, sink, he⟩ | ⟨sink, he⟩
  · rw [he] at hshown
    cases hshown
  · rw [he]
    exact ⟨_, rfl, PlainTerminal.isSome_startRead t w.input⟩

/-! ## The innermost shell -/

/-- **The innermost shell goes on**, with one entry or none. -/
theorem Told.goOn (h : Told items c r cast)
    (hfares : ∀ args env,
      Level.Fares r.console (Level.shell r.console.settings args env) cast.story cast.level →
      Level.Fares r.console (Level.shell r.console.settings args env) (cast.story.goOn entries) l')
    (hphase : l'.phase ≠ .idle ∧ l'.phase.nests = false)
    (hgoes : r.world.Goes [] (entries.filterMap Entry.heard?) w')
    (hentries : (∃ x, entries = [x]) ∨
      entries = [] ∧ ∀ r next, cast.level.phase ≠ .own (.ask r next))
    (hreads : ∀ text done, entries = [.asked (.prompt text) (.ok done)] →
      l'.state.cancelled = true ∨ w'.Reads) :
    Told items (c.goOn entries (cast.outer.length + 1))
      { r with levels := cast.outer.map Prod.snd ++ [l'], world := w' }
      { cast with story := cast.story.goOn entries, level := l' } := by
  have hlength : cast.outer.length = (cast.outer.map fun p => p.1.log).length :=
    (List.length_map _).symm
  obtain ⟨args, env, hfaring⟩ := h.fares
  have hfaring' := hfares args env hfaring
  rw [hlength, Chronicle.goOn_same h.current]
  refine
    { levels := rfl
      ended := h.ended
      current := rfl
      gone := h.gone
      waits := h.waits
      fares := ⟨args, env, hfaring'⟩
      innermost := hphase.2
      begun := fun _ => hphase.1
      shells := h.shells
      steps := ?_
      hits := h.hits
      heard := ?_
      serves := ?_
      reads := ?_ }
  · exact Nat.succ_le_succ h.steps
  · have hheard := h.heard.append_right (entries.filterMap Entry.heard?)
    rw [Chronicle.logs, h.current] at hheard
    simpa [Chronicle.logs, List.append_assoc] using hheard
  · have hserves := World.serves_of_goes h.serves hgoes
    rwa [List.append_nil] at hserves
  · intro hshown
    rcases hentries with ⟨x, rfl⟩ | ⟨rfl, hp⟩
    · have hpermits := (Level.thrift_of_fares hfaring').permitted cast.story.log x [] rfl
      rw [Story.goOn, Law.view_append] at hshown
      obtain ⟨text, done, rfl⟩ := prompt_of_shown hpermits hshown
      exact hreads text done rfl
    · rw [Story.goOn, List.append_nil] at hshown
      exact absurd (shown_eq_none h.fares hp) hshown

/-! ## Nested shells -/

/-- **The innermost shell starts another.** -/
theorem Told.opens (hbuiltin : r.console.OnlyBuiltins) (h : Told items c r cast)
    (hs : cast.level.step r.console r.world = .nests l' child w') :
    Told items (c.goOn [] (cast.outer.length + 2))
      { r with levels := cast.outer.map Prod.snd ++ [l', child], world := w' }
      (cast.enter l' child) := by
  have hlength : cast.outer.length = (cast.outer.map fun p => p.1.log).length :=
    (List.length_map _).symm
  obtain ⟨args, env, hfaring⟩ := h.fares
  obtain ⟨-, nested, rfl⟩ := Level.shell_of_nests (Level.spares_of_fares hbuiltin hfaring) hs
  obtain ⟨hstarts, -⟩ := Level.does_of_nests hs
  obtain ⟨resume, next, hphase⟩ := hstarts.waits
  obtain rfl := hstarts.world
  rw [hlength, Chronicle.goOn_opens h.current]
  refine
    { levels := by simp [Cast.enter]
      ended := h.ended
      current := by simp [Cast.enter, Story.opens]
      gone := h.gone
      waits := ?_
      fares := ⟨_, _, .start⟩
      innermost := rfl
      begun := fun houter => absurd houter (List.append_ne_nil_of_right_ne_nil _ (by simp))
      shells := ?_
      steps := ?_
      hits := ?_
      heard := ?_
      serves := h.serves
      reads := fun hshown => absurd rfl hshown }
  · intro p hp
    rcases List.mem_append.mp hp with hp | hp
    · exact h.waits p hp
    · obtain rfl := List.mem_singleton.mp hp
      exact ⟨⟨args, env, hfaring.nested hs⟩, by rw [hphase]; rfl⟩
  · rw [Cast.total_enter (n := 1) rfl rfl, ← h.shells]
    change cast.ended.length + (cast.outer ++ [_]).length = _
    rw [List.length_append]
    rfl
  · rw [Cast.total_enter (n := 1) rfl rfl]
    exact Nat.succ_le_succ h.steps
  · rw [Cast.total_enter (n := 0) rfl rfl]
    exact h.hits
  · have hheard := h.heard
    rw [Chronicle.logs, h.current] at hheard
    simpa [Chronicle.logs] using hheard

/-- **The innermost shell has ended.** -/
theorem Told.leaves (h : Told items c r cast) {outer : List (Story × Level)} {p : Story × Level}
    (houter : cast.outer = outer ++ [p]) (result : Except Failure ExitCode) :
    Told items (c.goOn [] (outer.length + 1))
      { r with levels := outer.map Prod.snd ++ [p.2.leave result] }
      (cast.leave outer p.1 (p.2.leave result)) := by
  have hlength : outer.length + 1 = (cast.outer.map fun p => p.1.log).length := by
    rw [List.length_map, houter, List.length_append]
    rfl
  obtain ⟨⟨args, env, hfaring⟩, hnests⟩ := h.waits p (by simp [houter])
  obtain ⟨resume, next, hphase⟩ := Phase.eq_nested_of_nests hnests
  have hleft : (p.2.leave result).phase = .command (resume result) next := by
    rw [Level.leave, hphase]
  rw [hlength, Chronicle.goOn_leaves h.current]
  refine
    { levels := rfl
      ended := by simp [Cast.leave, h.ended]
      current := by simp [Cast.leave, houter, Story.goOn]
      gone := ?_
      waits := fun q hq => h.waits q (by rw [houter]; exact List.mem_append_left _ hq)
      fares := ⟨args, env, hfaring.left hnests result⟩
      innermost := by rw [Cast.leave, hleft]; rfl
      begun := fun _ => by simp [Cast.leave, hleft]
      shells := ?_
      steps := ?_
      hits := ?_
      heard := ?_
      serves := h.serves
      reads := ?_ }
  · intro s hs
    rcases List.mem_append.mp hs with hs | hs
    · exact h.gone s hs
    · obtain rfl := List.mem_singleton.mp hs
      exact ⟨_, h.fares⟩
  · have hshells := h.shells
    rw [houter, List.length_append] at hshells
    rw [Cast.total_leave (n := 0) houter rfl, Nat.add_zero, ← hshells]
    change (cast.ended ++ [_]).length + outer.length = _
    rw [List.length_append, List.length_singleton, List.length_singleton]
    omega
  · rw [Cast.total_leave (n := 1) houter rfl]
    exact Nat.succ_le_succ h.steps
  · rw [Cast.total_leave (n := 0) houter rfl]
    exact h.hits
  · refine List.Perm.trans ?_ h.heard
    rw [Chronicle.logs, Chronicle.logs, h.current, List.append_assoc]
    exact (List.perm_append_comm.append_left c.ended).flatMap_right _
  · intro hshown
    rw [Cast.leave, Story.goOn, List.append_nil] at hshown
    refine absurd (shown_eq_none ⟨args, env, hfaring⟩ ?_) hshown
    simp [hphase]

/-! ## Changes of the run -/

/-- What a step of a shell shows of its prompt: the read has started, unless it is cancelled. -/
theorem reads_of_step {text : String} {done : Unit} (ht : w.terminal = .plain t)
    (hs : l.step console w = .moved l' w' interrupts)
    (hlogged : l.logged console w = [.asked (.prompt text) (.ok done)]) :
    l'.state.cancelled = true ∨ w'.Reads := by
  have hdoes := Level.does_of_step hs
  rw [hlogged] at hdoes
  cases hdoes with
  | asked hp hr ha =>
    by_cases hc : l.state.cancelled = true
    · exact .inl hc
    · refine .inr ?_
      have hshown : (w.startRead text).1 = .ok done := (if_neg hc).symm.trans (Option.some.inj ha)
      rw [Level.step, hp] at hs
      simp only [Level.planStep, if_neg hc] at hs
      obtain ⟨-, rfl, -⟩ := Level.Progress.moved.inj hs
      exact reads_of_shown ht hshown

/-- **What a step makes of a run** is told. -/
theorem told_passes (hbuiltin : r.console.OnlyBuiltins) (h : Told items c r cast)
    (hpass : Passes r.console r.world (cast.outer.map Prod.snd) cast.level entries levels w'
      interrupts) :
    interrupts = false ∧ r.world.Goes [] (entries.filterMap Entry.heard?) w' ∧
      ∃ cast', Told items (c.goOn entries levels.length)
        { r with levels := levels, world := w' } cast' := by
  obtain ⟨t, hplain⟩ := h.serves.plain
  obtain ⟨args, env, hfaring⟩ := h.fares
  have hspares := Level.spares_of_fares hbuiltin hfaring
  cases hpass with
  | @moved l' w' interrupts hs =>
    obtain ⟨hcalm, hlogged⟩ := Level.logged_of_step hplain hspares hs
    have hinput : ∀ x ∈ cast.level.logged r.console r.world, x.readsInput = false := by
      intro x hx
      unfold Entry.readsInput
      split
      · cases Level.plain_of_does hspares (Level.does_of_step hs) _ _ hx
      · rfl
    have hlength : (cast.outer.map Prod.snd ++ [l']).length = cast.outer.length + 1 := by simp
    have hgoes := Level.goes_of_step hplain hinput hs
    rw [hlength]
    refine ⟨hcalm, hgoes, _, h.goOn (fun args env hf => hf.moved hplain hs)
      (Level.phase_of_moved hs) hgoes ?_ fun text done => reads_of_step hplain hs⟩
    rcases hlogged with hx | ⟨hsilent, hslack, -⟩
    · exact .inl hx
    · refine .inr ⟨hsilent, fun r next hp => ?_⟩
      rw [hp] at hslack
      cases hslack
  | @nested l' child w' hs =>
    have hlength : (cast.outer.map Prod.snd ++ [l', child]).length = cast.outer.length + 2 := by simp
    rw [hlength]
    exact ⟨rfl, (Level.does_of_nests hs).1.world ▸ .elsewhere rfl rfl, _, h.opens hbuiltin hs⟩
  | @executed l' hx =>
    obtain ⟨hfresh, hl'⟩ := Level.execute_eq_ok_iff.mp hx
    have hidle := ((Level.thrift_of_fares hfaring).waits hfresh).1
    have hlength : (cast.outer.map Prod.snd ++ [l']).length = cast.outer.length + 1 := by simp
    rw [hlength]
    have hgoes : r.world.Goes [] [] r.world := .elsewhere rfl rfl
    refine ⟨rfl, hgoes, _, h.goOn (fun args env hf => hf.executed hx) ?_ hgoes ?_ nofun⟩
    · rw [hl']
      exact ⟨nofun, rfl⟩
    · refine .inr ⟨rfl, ?_⟩
      rw [hidle]
      exact nofun
  | @left before o ho result =>
    obtain ⟨outer, last, houter, rfl, hlast⟩ := List.map_eq_append_iff.mp ho
    obtain ⟨p, rest, rfl, rfl, hrest⟩ := List.map_eq_cons_iff.mp hlast
    obtain rfl := List.map_eq_nil_iff.mp hrest
    have hlength : (outer.map Prod.snd ++ [p.2.leave result]).length = outer.length + 1 := by simp
    rw [hlength]
    exact ⟨rfl, .elsewhere rfl rfl, _, h.leaves houter result⟩

/-- **A step of a run** is told. -/
theorem told_step (hbuiltin : r.console.OnlyBuiltins) (h : Told items c r cast)
    (hs : r.step = .ok r') :
    r'.console = r.console ∧ r.world.Goes [] (r.entries.filterMap Entry.heard?) r'.world ∧
      ∃ cast', Told items (c.goOn r.entries r'.levels.length) r' cast' := by
  obtain ⟨levels, w', interrupts, hpass, rfl⟩ := passes_of_step h.levels h.outer_nests hs
  obtain ⟨rfl, hgoes, hcast⟩ := told_passes hbuiltin h hpass
  exact ⟨rfl, hgoes, hcast⟩

theorem called_cancelled (behind : List ExecutionState) (h : l.state.cancelled = true) :
    (l.called behind).2.state.cancelled = true := by
  rcases Level.called_snd l behind with he | ⟨-, he⟩ <;> rw [he]
  exact h

/-- **An interrupt** is told. -/
theorem told_interrupt (h : Told items c r cast) (i : Nat) :
    ∃ cast', Told items { c with interrupts := c.interrupts + 1 } (r.interruptAt i).2 cast' := by
  obtain ⟨args, env, hfaring⟩ := h.fares
  rcases interruptAt_cases h.levels i with
    he | ⟨behind, he⟩ | ⟨before, m, after, behind, hcut, he⟩
  · rw [he]
    exact ⟨cast, { h with hits := Nat.le_succ_of_le h.hits }⟩
  · rw [he]
    refine ⟨{ cast with
      story := cast.story.called cast.level (cast.level.called behind).2
      level := (cast.level.called behind).2 }, { h with
      levels := rfl
      fares := ⟨args, env, hfaring.called behind⟩
      innermost := ?_
      begun := ?_
      hits := ?_
      reads := ?_ }⟩
    · rw [Level.called_phase]
      exact h.innermost
    · rw [Level.called_phase]
      exact h.begun
    · have hhits := h.hits
      have hmore :=
        Bool.toNat_le ((cast.level.called behind).2.state.cancelled && !cast.level.state.cancelled)
      simp only [Cast.total, Story.called] at hhits ⊢
      omega
    · intro hshown
      rcases h.reads hshown with hc | hreads
      · exact .inl (called_cancelled behind hc)
      · exact .inr hreads
  · obtain ⟨outer, last, houter, rfl, hlast⟩ := List.map_eq_append_iff.mp hcut
    obtain ⟨p, rest, rfl, rfl, rfl⟩ := List.map_eq_cons_iff.mp hlast
    have hmem : ∀ q, q ∈ outer ∨ q ∈ rest → q ∈ cast.outer := by
      intro q hq
      rw [houter]
      simp only [List.mem_append, List.mem_cons]
      tauto
    obtain ⟨⟨args, env, hwaits⟩, hnests⟩ := h.waits p (by simp [houter])
    rw [he]
    have htotal := @Cast.total_stir cast outer rest p houter
      (p.1.called p.2 (p.2.called behind).2, (p.2.called behind).2)
    refine ⟨cast.stir outer rest (p.1.called p.2 (p.2.called behind).2, (p.2.called behind).2),
      { h with
        levels := by simp [Cast.stir]
        current := by simp [h.current, houter, Story.called, Cast.stir]
        waits := ?_
        begun := fun hnil => absurd hnil (List.append_ne_nil_of_right_ne_nil _ (by simp))
        shells := ?_
        steps := ?_
        hits := ?_ }⟩
    · intro q hq
      rcases List.mem_append.mp hq with hq | hq
      · exact h.waits q (hmem q (.inl hq))
      · rcases List.mem_cons.mp hq with rfl | hq
        · exact ⟨⟨args, env, hwaits.called behind⟩, by rw [Level.called_phase]; exact hnests⟩
        · exact h.waits q (hmem q (.inr hq))
    · have hshells := h.shells
      rw [houter] at hshells
      rw [htotal (n := 0) rfl, Nat.add_zero, ← hshells]
      simp [Cast.stir]
    · rw [htotal (n := 0) rfl]
      exact h.steps
    · rw [htotal rfl]
      exact Nat.add_le_add h.hits (Bool.toNat_le _)

/-- **A change around the run** is told. -/
theorem told_world (h : Told items c r cast) (hw : r.world.Stirs more w') :
    Told items { c with arrived := c.arrived ++ more } { r with world := w' } cast :=
  have hserves : w'.Serves (items ++ (c.arrived ++ more)) c.heard := by
    rw [← List.append_assoc]
    exact World.serves_of_stirs h.serves hw
  { h with
    serves := hserves
    reads := fun hshown => (h.reads hshown).imp id fun hreads => World.reads_of_stirs hreads hw }

/-- The innermost shell is the last one. -/
theorem Told.last (h : Told items c r cast) {before : List Level} (hl : r.levels = before ++ [l]) :
    before = cast.outer.map Prod.snd ∧ l = cast.level := by
  obtain ⟨hbefore, hlast⟩ := List.append_inj' (hl.symm.trans h.levels) rfl
  exact ⟨hbefore, List.singleton_inj.mp hlast⟩

/-- **A prompt that is shown to a shell that is interrupted** is told. -/
theorem told_prompt (h : Told items c r cast) {before : List Level} {text : String}
    {next : Answer (.prompt text) → Plan Next} (hl : r.levels = before ++ [l])
    (hp : l.phase = .own (.ask (.prompt text) next)) :
    ∃ cast', Told items
      (c.goOn [.asked (.prompt text) (r.world.startRead text).1] r.levels.length)
      { r with
        levels := before ++ [l.goto (.own (next (r.world.startRead text).1))]
        world := (r.world.startRead text).2 } cast' := by
  obtain ⟨t, hplain⟩ := h.serves.plain
  obtain ⟨rfl, rfl⟩ := h.last hl
  rw [h.length]
  generalize hshown : (r.world.startRead text).1 = a
  refine ⟨_, h.goOn (fun args env hf => hf.prompted hp a) ⟨nofun, rfl⟩ (.start text)
    (.inl ⟨_, rfl⟩) fun text' done he => .inr ?_⟩
  cases List.singleton_inj.mp he
  exact reads_of_shown hplain hshown

/-- **What the terminal answers to a shell that is interrupted** is told. -/
theorem told_first (h : Told items c r cast) {before : List Level} {text : String}
    {next : Answer (.event text) → Plan Next} {e : Answer (.event text)}
    (hl : r.levels = before ++ [l]) (hp : l.phase = .own (.ask (.event text) next))
    (he : (r.world.pollRead text).1.answer = some e) :
    ∃ cast', Told items (c.goOn [.asked (.event text) e] r.levels.length)
      { r with
        levels := before ++ [l.goto (.own (next e))]
        world := (r.world.pollRead text).2 } cast' := by
  obtain ⟨t, hplain⟩ := h.serves.plain
  obtain ⟨rfl, rfl⟩ := h.last hl
  rw [h.length]
  have hheard : (Entry.asked (.event text) e).heard? = some e := by
    cases htaken : (t.advance r.world.input).1.takeAnswer? with
    | none =>
      rw [World.pollRead_none hplain htaken] at he
      cases he
    | some taken =>
      obtain ⟨e', t'⟩ := taken
      rw [World.pollRead_some hplain htaken] at he
      cases he
      exact Level.heard?_of_takeAnswer? htaken text
  have hgoes : r.world.Goes [] ([Entry.asked (.event text) e].filterMap Entry.heard?)
      (r.world.pollRead text).2 := by
    have hpoll := World.Goes.poll (w := r.world) text
    rw [List.filterMap_cons_some hheard]
    rwa [he] at hpoll
  refine ⟨_, h.goOn (fun args env hf => hf.heard hp e ?_) ⟨nofun, rfl⟩ hgoes (.inl ⟨_, rfl⟩) nofun⟩
  rintro rfl
  cases hheard

/-! ## Main statement -/

/-- The outermost shell begins. -/
theorem told_start (ht : w.terminal = .plain t) (hp : t.pending = none)
    (hx : (ofShell console w args env).execute = .ok r₀) :
    r₀.console = console ∧ ∃ cast, Told w.input.rest {} r₀ cast := by
  obtain ⟨l, l', rest, hlevels, hl, rfl⟩ := execute_eq_ok hx
  obtain ⟨rfl, rfl⟩ := List.cons.inj hlevels
  obtain ⟨-, he⟩ := Level.execute_eq_ok_iff.mp hl
  obtain ⟨plan, hphase⟩ : ∃ plan, l'.phase = .own plan := ⟨_, congrArg Level.phase he⟩
  refine ⟨rfl, ⟨[], [], Story.goOn {} [], l'⟩,
    { levels := rfl
      ended := rfl
      current := rfl
      gone := List.forall_mem_nil _
      waits := List.forall_mem_nil _
      fares := ⟨args, env, .executed .start hl⟩
      innermost := by rw [hphase]; rfl
      begun := fun _ => by rw [hphase]; exact nofun
      shells := rfl
      steps := Nat.zero_le _
      hits := Nat.le_refl 0
      heard := .nil
      serves := ?_
      reads := fun hshown => absurd rfl hshown }⟩
  rw [List.append_nil]
  exact World.serves_start ht hp

/-- **What is told of a run** is made up of stories of its shells. -/
theorem told_of_chronicled (hbuiltin : console.OnlyBuiltins) (ht : w.terminal = .plain t)
    (hp : t.pending = none) (hx : (ofShell console w args env).execute = .ok r₀)
    (h : Chronicled r₀ c r) :
    r.console = console ∧ ∃ cast, Told w.input.rest c r cast := by
  induction h with
  | start => exact told_start ht hp hx
  | step _ hs ih =>
    obtain ⟨rfl, cast, htold⟩ := ih
    obtain ⟨hconsole, -, hcast⟩ := told_step hbuiltin htold hs
    exact ⟨hconsole, hcast⟩
  | interrupt _ i ih =>
    obtain ⟨rfl, cast, htold⟩ := ih
    exact ⟨rfl, told_interrupt htold i⟩
  | prompt _ hl hp ih =>
    obtain ⟨rfl, cast, htold⟩ := ih
    exact ⟨rfl, told_prompt htold hl hp⟩
  | first _ hl hp he ih =>
    obtain ⟨rfl, cast, htold⟩ := ih
    exact ⟨rfl, told_first htold hl hp he⟩
  | world _ hw ih =>
    obtain ⟨rfl, cast, htold⟩ := ih
    exact ⟨rfl, cast, told_world htold hw⟩

end Run

end CommandConsole
