import CommandConsole.Proofs.Session.Blind
import CommandConsole.Proofs.Stream.Translation

/-!
# Shells with carriage returns and without

Whoever deals with a run has its session execute, lets the run take steps, interrupts sessions, and
has lines and time arrive. A `Turn` is one such thing, and its `Sight` is what is seen of it: how a
call was answered, what a step added to the log of its session, and what was said in it.

Two shells of which one has carriage returns and the other has not are dealt with alike. All that is
seen is the same: the lines that the sessions read, the words that they hand on, what their commands
are answered and end with, and their own results. So are the calls on the sink, one by one, but for
the texts that sessions write: each goes there with carriage returns or without. Prompts go there
the terminal's own way. A terminal that plays a script also keeps what was written up to each of its
entries; that is in the calls already, and left out here.

A line and an interrupt may come at the same moment, and the same goes for a time and an interrupt.
Then either is noticed first; `race` is a step of a session that notices the interrupt too late.

Results: `blind_take` (one turn), `told_take` (what a turn leaves in the sink), `blind_takeAll`,
`told_takeAll` (any number of them). Main statement: `same_of_turns`.
-/

namespace CommandConsole

open Session

namespace Session

/-- What reaches a world from outside. -/
inductive Arrival where
  /-- The clock shows a time. -/
  | time (clock : Nat)
  | input (items : List Source.Item)
  | inputEnd
  | cue (cue : Cue)
  | scriptEnd

/-- What is done with a run. -/
inductive Turn where
  /-- Its outermost session is called to execute. -/
  | execute
  | step
  /-- A step in which what a session waits for comes before an interrupt that has come as well. -/
  | race
  /-- The session at a place of the chain is interrupted. -/
  | interrupt (place : Nat)
  | arrival (a : Arrival)

/-- What is seen of a turn. -/
inductive Sight where
  /-- The call to execute was refused or not. -/
  | called (refusal : Option Failure)
  /-- A session has added to its log, and something was said. -/
  | stepped (log : List Entry) (said : List Utterance)
  | blocked (deadline : Option Nat)
  /-- The interrupt had an effect or not. -/
  | interrupted (had : Bool)
  | nothing

/-- What was said in a turn. -/
def Sight.said : Sight → List Utterance
  | stepped _ said => said
  | _ => []

end Session

/-! ## Turns -/

/-- The world after something has reached it. -/
def World.receive (w : World) : Arrival → World
  | .time clock => { w with clock := max w.clock clock }
  | .input items => { w with input := w.input.feed items }
  | .inputEnd => { w with input := w.input.close }
  | .cue cue => w.onScript (·.feed cue)
  | .scriptEnd => w.onScript ScriptedTerminal.close

namespace Level

/-- Whether the session waits for something or an interrupt. -/
def awaits (l : Level) : Bool :=
  match l.phase with
  | .own (.ask (.prompt _) _) | .own (.ask (.event _) _) | .command (.ask (.wait _) _) _ => true
  | _ => false

/-- The session as if it was cancelled or not. -/
def marked (cancelled : Bool) (l : Level) : Level :=
  { l with state := { l.state with cancelled := cancelled } }

/-- Marks the innermost session of a chain. -/
def markLast (cancelled : Bool) : List Level → List Level
  | [] => []
  | [l] => [l.marked cancelled]
  | l :: m :: rest => l :: markLast cancelled (m :: rest)

end Level

namespace Run

/-- What is seen of a step. -/
def sightOf (log : List Entry) (said : List Utterance) : Except (Option Nat) Unit → Sight
  | .ok () => .stepped log said
  | .error deadline => .blocked deadline

/-- Takes a step, if there is one. -/
def watch (r : Run) : Sight × Run :=
  (sightOf r.entries r.said r.pace.1, r.pace.2)

/-- The run with its innermost session as if it was cancelled or not. -/
def mark (cancelled : Bool) (r : Run) : Run :=
  { r with levels := Level.markLast cancelled r.levels }

/-- Whether the innermost session waits and was interrupted. -/
def racing (r : Run) : Bool :=
  r.levels.getLast?.any fun l => l.awaits && l.state.cancelled

/-- Takes the step that its innermost session takes unless it notices that it was interrupted. -/
def race (r : Run) : Bool → Sight × Run
  | true => ((r.mark false).watch.1, (r.mark false).watch.2.mark true)
  | false => (.nothing, r)

/-- Does something with a run: what is seen of it, and the run after it. -/
def take (r : Run) : Turn → Sight × Run
  | .execute => (.called r.callExecute.1, r.callExecute.2)
  | .step => r.watch
  | .race => r.race r.racing
  | .interrupt place => (.interrupted (r.interruptAt place).1, (r.interruptAt place).2)
  | .arrival a => (.nothing, { r with world := r.world.receive a })

/-- Does several things with a run, one after another. -/
def takeAll (r : Run) : List Turn → List Sight × Run
  | [] => ([], r)
  | turn :: turns =>
    ((r.take turn).1 :: ((r.take turn).2.takeAll turns).1, ((r.take turn).2.takeAll turns).2)

/-! ## What is seen -/

variable {returns : Bool} {r : Run}

theorem blind_watch : Blind watch :=
  blind_entries.bind fun log => blind_said.bind fun said => blind_pace.map (sightOf log said)

theorem markLast_under (cancelled returns : Bool) (levels : List Level) :
    Level.markLast cancelled (levels.map (Level.under returns)) =
      (Level.markLast cancelled levels).map (Level.under returns) := by
  induction levels with
  | nil => rfl
  | cons l rest ih =>
    cases rest with
    | nil => rfl
    | cons m rest => exact congrArg (l.under returns :: ·) ih

theorem blind_mark (cancelled : Bool) : Blind fun r => ((), r.mark cancelled) :=
  blind_of_levels (F := fun _ levels => ((), Level.markLast cancelled levels))
    fun _ returns levels => by rw [markLast_under]

theorem blind_racing : Blind fun r => (r.racing, r) :=
  blind_look fun _ r _ => by
    simp only [racing, bare, List.getLast?_map, Option.any_map]
    rfl

theorem blind_race (goes : Bool) : Blind (race · goes) := by
  cases goes with
  | false => exact blind_pure Sight.nothing
  | true =>
    have hwatch : Blind fun r => (r.mark false).watch :=
      (blind_mark false).bind fun _ => blind_watch
    exact hwatch.bind fun sight => (blind_mark true).map fun _ => sight

theorem receive_bare (w : World) (a : Arrival) : w.bare.receive a = (w.receive a).bare := by
  obtain ⟨first, second, input, terminal, clock, epoch, shown⟩ := w
  cases a <;> cases terminal <;> rfl

theorem told_receive (returns : Bool) (w : World) (a : Arrival) :
    w.Told returns [] (w.receive a) := by
  obtain ⟨first, second, input, terminal, clock, epoch, shown⟩ := w
  cases a <;> cases terminal <;> exact ⟨rfl, rfl⟩

/-- **A turn** is blind. -/
theorem blind_take (turn : Turn) : Blind (take · turn) := by
  cases turn with
  | execute => exact blind_callExecute.map Sight.called
  | step => exact blind_watch
  | race => exact blind_racing.bind blind_race
  | interrupt place => exact (blind_interruptAt place).map Sight.interrupted
  | arrival a =>
    have hreceive := blind_of_world (receive_bare · a) (told_receive · · a)
    exact hreceive.map fun _ => Sight.nothing

theorem blind_takeAll (turns : List Turn) : Blind (takeAll · turns) := by
  induction turns with
  | nil => exact blind_pure []
  | cons turn turns ih => exact (blind_take turn).bind fun sight => ih.map (sight :: ·)

/-! ## What is said -/

theorem told_watch (h : r.Fits returns) : r.world.Told returns r.watch.1.said r.watch.2.world := by
  have hsaid : r.watch.1.said = r.pronounced := by
    rw [watch, pronounced, pace_eq]
    rcases r.move.1 with deadline | _ | _ <;> rfl
  rw [hsaid]
  exact told_pace h

/-- **A turn leaves** in the sink what is said in it. -/
theorem told_take (h : r.Fits returns) (turn : Turn) :
    r.world.Told returns (r.take turn).1.said (r.take turn).2.world := by
  cases turn with
  | execute =>
    rw [take, callExecute_eq]
    exact World.told_nil returns r.world
  | step => exact told_watch h
  | race =>
    rw [take]
    cases r.racing with
    | false => exact World.told_nil returns r.world
    | true => exact told_watch ((blind_mark false).fits returns r h)
  | interrupt place => exact World.told_nil returns r.world
  | arrival a => exact told_receive returns r.world a

theorem told_takeAll (h : r.Fits returns) (turns : List Turn) :
    r.world.Told returns ((r.takeAll turns).1.flatMap Sight.said) (r.takeAll turns).2.world := by
  induction turns generalizing r with
  | nil => exact World.told_nil returns r.world
  | cons turn turns ih =>
    exact (told_take h turn).trans (ih ((blind_take turn).fits returns r h))

/-! ## Main statement -/

/-- Two runs of the same sessions, under a shell with carriage returns or without, in worlds that
differ in nothing but what was written to the first sink. -/
structure Alike (returns returns' : Bool) (r r' : Run) : Prop where
  console : ∃ console : Console,
    r.console = console.withReturns returns ∧ r'.console = console.withReturns returns'
  levels : ∃ levels : List Level,
    r.levels = levels.map (Level.under returns) ∧ r'.levels = levels.map (Level.under returns')
  world : r.world.bare = r'.world.bare
  result : r.result? = r'.result?
  exitValue : r.exitValue = r'.exitValue

theorem alike_of_bare {returns' : Bool} {r' : Run} (h : r.Fits returns) (h' : r'.Fits returns')
    (hbare : r.bare = r'.bare) : Alike returns returns' r r' where
  console := by
    refine ⟨r.bare.console, h.console.symm, ?_⟩
    rw [hbare]
    exact h'.console.symm
  levels := by
    refine ⟨r.bare.levels, ?_, ?_⟩
    · rw [bare, map_under_under, h.levels]
    · rw [hbare, bare, map_under_under, h'.levels]
  world := congrArg Run.world hbare
  result := by rw [← result?_bare, hbare, result?_bare]
  exitValue := by rw [← exitValue_bare, hbare, exitValue_bare]

/-- The shell that has carriage returns or not, and is the same in all else. -/
def shellWith (console : Console) (w : World) (args : List String) (env : Environment)
    (returns : Bool) : Run :=
  ofShell (console.withReturns returns) w args env

theorem fits_shellWith (console : Console) (w : World) (args : List String) (env : Environment)
    (returns : Bool) : (shellWith console w args env returns).Fits returns :=
  ⟨rfl, rfl⟩

/-- Doing something with shells that differ in nothing but their carriage returns: what is seen of
it is the same, so are the sessions after it, and so are the calls on the sink but for the texts
that sessions write. Nobody writes to the other sink. -/
structure Same {α : Type} (shell : Bool → Run) (f : Run → α × Run) : Prop where
  seen : ∀ returns returns', (f (shell returns)).1 = (f (shell returns')).1
  alike : ∀ returns returns', Alike returns returns' (f (shell returns)).2 (f (shell returns')).2
  calls : ∃ said : List Utterance, ∀ returns, (f (shell returns)).2.world.first.log =
    (said.map (Utterance.call returns)).reverse ++ (shell returns).world.first.log
  second : ∀ returns, (f (shell returns)).2.world.second = (shell returns).world.second

theorem Blind.same {α : Type} {f : Run → α × Run} (hf : Blind f) (console : Console) (w : World)
    (args : List String) (env : Environment) : Same (shellWith console w args env) f := by
  have hfits := fits_shellWith console w args env
  have hbare (returns returns' : Bool) : (shellWith console w args env returns).bare =
      (shellWith console w args env returns').bare := rfl
  obtain ⟨said, hsaid⟩ := hf.told
  refine ⟨fun b b' => ?_, fun b b' => ?_, ?_, fun b => (hsaid b _ (hfits b)).second⟩
  · rw [hf.seen _ _ (hfits b), hf.seen _ _ (hfits b'), hbare b b']
  · refine alike_of_bare (hf.fits _ _ (hfits b)) (hf.fits _ _ (hfits b')) ?_
    rw [hf.bare _ _ (hfits b), hf.bare _ _ (hfits b'), hbare b b']
  · refine ⟨said (shellWith console w args env false).bare, fun b => ?_⟩
    exact (hsaid b _ (hfits b)).log

/-- **Carriage returns are transparent.** Take two shells that differ in nothing but that one has
carriage returns and the other has not, in the same world, and do the same things with both. What is
seen is the same: what their sessions read, hand on and are answered, what their commands end with,
and which calls are refused; and so are their results. The calls on the sink are the same, one by
one, and they are taken or refused alike: they are what was said in each turn, where a text that a
session writes goes there translated or as it is, and a prompt or a flush makes no difference. So it
is when the shells are run to their end. A translated text is a normal form of the text: it has no
bare newline, and carriage returns before newlines are all that it has more. -/
theorem same_of_turns (console : Console) (w : World) (args : List String) (env : Environment) :
    (∃ translated, Output.Normalizes translated ∧ ∀ text taken,
      (Utterance.said text taken).call true = .write (.text (translated text)) taken ∧
      (Utterance.said text taken).call false = .write (.text text) taken) ∧
    (∀ returns text taken,
      (Utterance.prompted text taken).call returns = .write (.text text) taken) ∧
    (∀ returns taken, (Utterance.flushed taken).call returns = .flush taken) ∧
    (∀ turns, Same (shellWith console w args env) (takeAll · turns)) ∧
    (∀ returns turns,
      ((shellWith console w args env returns).takeAll turns).2.world.first.log =
        ((((shellWith console w args env returns).takeAll turns).1.flatMap Sight.said).map
          (Utterance.call returns)).reverse ++ w.first.log) ∧
    Same (shellWith console w args env) executeToEnd := by
  refine ⟨⟨Text.withReturns, Output.normalizes_withReturns, fun text taken => ⟨rfl, rfl⟩⟩,
    fun returns text taken => rfl, fun returns taken => rfl,
    fun turns => (blind_takeAll turns).same console w args env, fun returns turns => ?_,
    blind_executeToEnd.same console w args env⟩
  exact (told_takeAll (fits_shellWith console w args env returns) turns).log

end Run

end CommandConsole
