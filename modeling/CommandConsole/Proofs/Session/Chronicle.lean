import CommandConsole.Proofs.Session.Play
import CommandConsole.Proofs.Session.Story
import Mathlib.Data.List.ModifyLast

/-!
# What is told of the shells of a run

A run of a shell may start others, each nested in the one before it. A `Chronicle` has the logs of
all of them: a shell that is started begins an empty log, the innermost one writes to its own, and
one that ends leaves its log behind. `Chronicled` is what may become of a run whose terminal is on
streams, with its chronicle: it takes steps, its sessions are interrupted, and something happens to
its world, but nobody else reads the input. A line and an interrupt may come at the same moment, and
then either is heard first.

Results: `passes_of_step` (what a step of a run is), `interruptAt_cases` (what an interrupt does).
-/

namespace CommandConsole

open Session Builtin Source Terminal

/-- What is told of a run. -/
structure Chronicle where
  /-- The logs of the shells that have ended. -/
  ended : List (List Entry) := []
  /-- The logs of the shells that have not, the outermost first. -/
  current : List (List Entry) := [[]]
  /-- What was heard from the terminal. -/
  heard : List (Except StreamFault Event) := []
  /-- What has come to the input. -/
  arrived : List Item := []
  steps : Nat := 0
  interrupts : Nat := 0

namespace Chronicle

/-- The logs of all shells that were ever started. -/
def logs (c : Chronicle) : List (List Entry) :=
  c.ended ++ c.current

/-- The innermost shell takes a step with some entries, after which there are `depth` shells. -/
def goOn (c : Chronicle) (entries : List Entry) (depth : Nat) : Chronicle :=
  let logs := c.current.modifyLast (· ++ entries)
  { c with
    ended := c.ended ++ logs.drop depth
    current := logs.take depth ++ List.replicate (depth - logs.length) []
    heard := c.heard ++ entries.filterMap Entry.heard?
    steps := c.steps + 1 }

variable {c : Chronicle} {front : List (List Entry)} {log log' : List Entry} {entries : List Entry}

/-- The innermost shell goes on. -/
theorem goOn_same (hc : c.current = front ++ [log]) : c.goOn entries (front.length + 1) =
    { c with
      current := front ++ [log ++ entries]
      heard := c.heard ++ entries.filterMap Entry.heard?
      steps := c.steps + 1 } := by
  rw [goOn, hc, List.modifyLast_concat]
  simp [List.take_of_length_le]

/-- The innermost shell starts another. -/
theorem goOn_opens (hc : c.current = front ++ [log]) : c.goOn [] (front.length + 2) =
    { c with current := front ++ [log, []], steps := c.steps + 1 } := by
  rw [goOn, hc, List.modifyLast_concat]
  simp [List.take_of_length_le]

/-- The innermost shell is gone. -/
theorem goOn_leaves (hc : c.current = front ++ [log]) : c.goOn [] front.length =
    { c with ended := c.ended ++ [log], current := front, steps := c.steps + 1 } := by
  rw [goOn, hc, List.modifyLast_concat]
  simp

end Chronicle

namespace Run

variable {console : Console} {w w' : World} {l l' m : Level} {outer before after levels : List Level}
  {entries : List Entry} {interrupts : Bool} {r r' : Run} {c : Chronicle} {items : List Item}

/-- What may become of a run whose terminal is on streams, with its chronicle. -/
inductive Chronicled (r₀ : Run) : Chronicle → Run → Prop
  | start : Chronicled r₀ {} r₀
  | step {c : Chronicle} {r r' : Run} (h : Chronicled r₀ c r) (hs : r.step = .ok r') :
      Chronicled r₀ (c.goOn r.entries r'.levels.length) r'
  | interrupt {c : Chronicle} {r : Run} (h : Chronicled r₀ c r) (i : Nat) :
      Chronicled r₀ { c with interrupts := c.interrupts + 1 } (r.interruptAt i).2
  /-- The prompt is shown, and may fail, though the shell is interrupted. -/
  | prompt {c : Chronicle} {r : Run} {before : List Level} {l : Level} {text : String}
      {next : Answer (.prompt text) → Plan Next} (h : Chronicled r₀ c r)
      (hl : r.levels = before ++ [l]) (hp : l.phase = .own (.ask (.prompt text) next)) :
      Chronicled r₀ (c.goOn [.asked (.prompt text) (r.world.startRead text).1] r.levels.length)
        { r with
          levels := before ++ [l.goto (.own (next (r.world.startRead text).1))]
          world := (r.world.startRead text).2 }
  /-- The terminal answers first, though the shell is interrupted. -/
  | first {c : Chronicle} {r : Run} {before : List Level} {l : Level} {text : String}
      {next : Answer (.event text) → Plan Next} {e : Answer (.event text)}
      (h : Chronicled r₀ c r) (hl : r.levels = before ++ [l])
      (hp : l.phase = .own (.ask (.event text) next))
      (he : (r.world.pollRead text).1.answer = some e) :
      Chronicled r₀ (c.goOn [.asked (.event text) e] r.levels.length)
        { r with
          levels := before ++ [l.goto (.own (next e))]
          world := (r.world.pollRead text).2 }
  /-- Something happens to the terminal, its input or the rest of the world. -/
  | world {c : Chronicle} {r : Run} {items : List Item} {w : World} (h : Chronicled r₀ c r)
      (hw : r.world.Stirs items w) :
      Chronicled r₀ { c with arrived := c.arrived ++ items } { r with world := w }

/-! ## Steps and interrupts of a chain -/

/-- A step of a chain whose last session has none nested in it, and the others wait. -/
inductive Passes (console : Console) (w : World) (outer : List Level) (l : Level) :
    List Entry → List Level → World → Bool → Prop
  | moved {l' : Level} {w' : World} {interrupts : Bool}
      (hs : l.step console w = .moved l' w' interrupts) :
      Passes console w outer l (l.logged console w) (outer ++ [l']) w' interrupts
  | nested {l' child : Level} {w' : World} (hs : l.step console w = .nests l' child w') :
      Passes console w outer l [] (outer ++ [l', child]) w' false
  | executed {l' : Level} (hx : l.execute console = .ok l') :
      Passes console w outer l [] (outer ++ [l']) w false
  /-- It has ended, or does not execute. -/
  | left {before : List Level} {o : Level} (ho : outer = before ++ [o])
      (result : Except Failure ExitCode) :
      Passes console w outer l [] (before ++ [o.leave result]) w false

theorem Passes.cons (h : Passes console w outer l entries levels w' interrupts) (o : Level) :
    Passes console w (o :: outer) l entries (o :: levels) w' interrupts := by
  cases h with
  | moved hs => exact .moved hs
  | nested hs => exact .nested hs
  | executed hx => exact .executed hx
  | @left before last ho result =>
    have ho : o :: outer = (o :: before) ++ [last] := congrArg (List.cons o) ho
    exact .left ho result

/-- **What a step of a chain is**, by where its last session stands. -/
theorem passes_of_stepped (houter : ∀ o ∈ outer, o.phase.nests = true)
    (hs : Stepped console w (outer ++ [l]) levels w' interrupts) :
    Passes console w outer l (entriesOf console w (outer ++ [l])) levels w' interrupts := by
  induction outer generalizing levels with
  | nil =>
    cases hs with
    | last hstep => exact .moved hstep
    | nest hstep =>
      have hsilent := (Level.does_of_nests hstep).1.silent
      rw [List.nil_append, entriesOf, hsilent]
      exact .nested hstep
  | cons o rest ih =>
    obtain ⟨-, hrest⟩ := List.forall_mem_cons.mp houter
    cases rest with
    | nil =>
      have hone : [o] = [] ++ [o] := rfl
      cases hs with
      | leave hm =>
        rw [List.singleton_append, entriesOf, hm]
        exact .left hone _
      | execute hm hx =>
        rw [List.singleton_append, entriesOf, hm]
        exact .executed hx
      | refuse hm hx =>
        rw [List.singleton_append, entriesOf, hm]
        exact .left hone _
      | inner hm h =>
        rw [List.singleton_append, entriesOf_inner hm]
        exact (ih hrest h).cons o
    | cons m rest =>
      have hm := hrest m List.mem_cons_self
      cases hs with
      | leave hp | execute hp | refuse hp =>
        rw [hp] at hm
        cases hm
      | inner hx h =>
        rw [List.cons_append, List.cons_append, entriesOf_inner hx]
        exact (ih hrest h).cons o

theorem passes_of_step (hl : r.levels = outer ++ [l]) (houter : ∀ o ∈ outer, o.phase.nests = true)
    (hs : r.step = .ok r') : ∃ levels w interrupts,
    Passes r.console r.world outer l r.entries levels w interrupts ∧
      r' = if interrupts then ({ r with levels := levels, world := w } : Run).interrupt.2
        else { r with levels := levels, world := w } := by
  obtain ⟨levels, w, interrupts, hstepped, he⟩ := stepped_of_step hs
  rw [hl] at hstepped
  refine ⟨levels, w, interrupts, ?_, he⟩
  rw [entries, hl]
  exact passes_of_stepped houter hstepped

/-- **What an interrupt does**: it calls one session, which may be none or the last one. -/
theorem interruptLevels_cases (outer : List Level) (l : Level) :
    (∃ behind, (interruptLevels (outer ++ [l])).2 = outer ++ [(l.called behind).2]) ∨
      ∃ before m after behind, outer = before ++ m :: after ∧
        (interruptLevels (outer ++ [l])).2 = before ++ (m.called behind).2 :: (after ++ [l]) := by
  induction outer with
  | nil =>
    refine .inl ⟨[], ?_⟩
    rw [List.nil_append, interruptLevels_cons]
    split <;> rfl
  | cons o rest ih =>
    rw [List.cons_append, interruptLevels_cons]
    split
    next hpasses =>
      -- The session passes the interrupt on, and is left alone.
      obtain ⟨hrunning, hlinked⟩ := Bool.and_eq_true_iff.mp hpasses
      rw [Level.called_eq, if_pos hrunning, if_pos hlinked]
      rcases ih with ⟨behind, he⟩ | ⟨before, m, after, behind, rfl, he⟩
      · exact .inl ⟨behind, by rw [he]; rfl⟩
      · exact .inr ⟨o :: before, m, after, behind, rfl, by rw [he]; rfl⟩
    · exact .inr ⟨[], o, rest, _, rfl, rfl⟩

theorem interruptAt_cases (hl : r.levels = outer ++ [l]) (i : Nat) :
    (r.interruptAt i).2 = r ∨
      (∃ behind, (r.interruptAt i).2 = { r with levels := outer ++ [(l.called behind).2] }) ∨
      ∃ before m after behind, outer = before ++ m :: after ∧
        (r.interruptAt i).2 =
          { r with levels := before ++ (m.called behind).2 :: (after ++ [l]) } := by
  rcases Nat.lt_or_ge outer.length i with hi | hi
  · have hlength : r.levels.length ≤ i := by
      rw [hl, List.length_append]
      exact hi
    refine .inl ?_
    rw [interruptAt, List.drop_of_length_le hlength, List.take_of_length_le hlength]
    simp [interruptLevels, ExecutionState.interrupt]
  · have hdrop : r.levels.drop i = outer.drop i ++ [l] := by
      rw [hl, List.drop_append_of_le_length hi]
    have htake : r.levels.take i = outer.take i := by
      rw [hl, List.take_append_of_le_length hi]
    have hat : (r.interruptAt i).2 =
        { r with levels := outer.take i ++ (interruptLevels (outer.drop i ++ [l])).2 } := by
      rw [← hdrop, ← htake]
      rfl
    rw [hat]
    rcases interruptLevels_cases (outer.drop i) l with
      ⟨behind, he⟩ | ⟨before, m, after, behind, hcut, he⟩
    · refine .inr (.inl ⟨behind, ?_⟩)
      rw [he, ← List.append_assoc, List.take_append_drop]
    · refine .inr (.inr ⟨outer.take i ++ before, m, after, behind, ?_, ?_⟩)
      · rw [List.append_assoc, ← hcut, List.take_append_drop]
      · rw [he, List.append_assoc]

end Run

end CommandConsole
