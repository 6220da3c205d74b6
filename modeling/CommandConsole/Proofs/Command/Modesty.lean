import CommandConsole.Command.Builtin
import CommandConsole.Proofs.Command.Deeds
import CommandConsole.Proofs.Command.Finding
import CommandConsole.Proofs.Session.Boundary

/-!
# How much the built-in commands ask for

A built-in command asks its session for little: whatever it is answered, it makes a few requests of
the kind that is answered at once or when a time has come, and starts one nested shell at most. It
reads no input, runs no other command and interrupts nothing. `Modest` says so of a script, with the
two numbers.

Main statement: `modest_perform`.
-/

namespace CommandConsole

open Command Session

namespace Command

variable {α β : Type}

/-- A request that is answered at once, or when a time has come. -/
inductive Request.Plain : Request → Prop
  | write (channel : Channel) (text : String) : Plain (.write channel text)
  | clock : Plain .clock
  | wait (deadline : Nat) : Plain (.wait (some deadline))
  | calendar : Plain .calendar
  | setExitValue (value : ExitCode) : Plain (.setExitValue value)

/-- A script makes at most `n` requests, and besides them starts at most `k` nested shells. -/
inductive Modest : Nat → Nat → Script α → Prop
  | done {n k : Nat} (x : α) : Modest n k (.done x)
  | ask {n k : Nat} {r : Request} {more : Answer r → Script α} (hr : r.Plain)
      (h : ∀ a, Modest n k (more a)) : Modest (n + 1) k (.ask r more)
  | nest {n k : Nat} {args : List String} {more : Answer (.nestShell args) → Script α}
      (h : ∀ a, Modest n k (more a)) : Modest n (k + 1) (.ask (.nestShell args) more)

variable {n k n' k' : Nat} {script : Script α}

theorem Modest.mono (h : Modest n k script) (hn : n ≤ n') (hk : k ≤ k') : Modest n' k' script := by
  induction h generalizing n' k' with
  | done x => exact .done x
  | ask hr _ ih =>
    obtain ⟨m, rfl⟩ := Nat.exists_eq_add_of_le' (Nat.le_trans (Nat.le_add_left 1 _) hn)
    exact .ask hr fun a => ih a (Nat.le_of_succ_le_succ hn) hk
  | nest _ ih =>
    obtain ⟨m, rfl⟩ := Nat.exists_eq_add_of_le' (Nat.le_trans (Nat.le_add_left 1 _) hk)
    exact .nest fun a => ih a hn (Nat.le_of_succ_le_succ hk)

/-- A script and what follows it ask for what both do. -/
theorem Modest.bind {f : α → Script β} (h : Modest n k script)
    (hf : ∀ x, Modest n' k' (f x)) : Modest (n + n') (k + k') (script.bind f) := by
  induction h with
  | done x => exact (hf x).mono (Nat.le_add_left _ _) (Nat.le_add_left _ _)
  | ask hr _ ih =>
    rw [Nat.add_right_comm]
    exact .ask hr ih
  | nest _ ih =>
    rw [Nat.add_right_comm]
    exact .nest ih

end Command

/-! ## The commands -/

namespace Builtin

variable {n k : Nat} {b : Binding} {inv : Invocation}

/-- Whether a command is one of the built-in ones. -/
def IsBuiltin (command : Command) : Prop :=
  command ∈ commands.map Prod.snd

/-- A write asks for one thing, whatever comes of it. -/
theorem modest_write {α : Type} {channel : Channel} {text : String}
    {more : Command.Answer (.write channel text) → Script α} (h : ∀ a, Modest n k (more a)) :
    Modest (n + 1) k (.ask (.write channel text) more) :=
  .ask (.write channel text) h

/-- Behind the last write of a body. -/
theorem modest_written {channel : Channel} {text : String} (code : ExitCode) :
    Modest (n + 1) k (do Action.write channel text; return code : Command.Action ExitCode).run := by
  refine modest_write fun a => ?_
  cases a <;> exact .done _

theorem modest_date : Modest 2 1 (date.body inv).run := by
  unfold date
  simp only
  split
  · exact .ask .calendar fun _ => modest_written 0
  · exact modest_written ExitCode.failed

theorem modest_echo : Modest 2 1 (echo.body inv).run :=
  modest_written 0

theorem modest_exit : Modest 2 1 (exit.body inv).run := by
  unfold exit
  simp only
  have hend : ∀ value, Modest 2 1 (endShell value).run := fun value =>
    .ask (.setExitValue value) fun _ => .done _
  split
  · exact hend 0
  · split
    · exact hend _
    · exact modest_written ExitCode.failed
  · exact modest_written ExitCode.failed

theorem modest_help : Modest 2 1 (help.body inv).run := by
  unfold help
  simp only
  split
  · refine modest_write fun a => ?_
    cases a with
    | ok => exact modest_written 0
    | error fault => exact .done _
  · split
    · exact modest_written 0
    · exact modest_written ExitCode.failed
  · exact modest_written ExitCode.failed

theorem modest_sleep : Modest 2 1 (sleep.body inv).run := by
  unfold sleep
  simp only
  split
  · split
    · refine .ask .clock fun start => .ask (.wait _) fun wake => ?_
      cases wake <;> exact .done _
    · exact modest_written ExitCode.failed
  · exact modest_written ExitCode.failed

theorem modest_subshell : Modest 2 1 (subshell.body inv).run := by
  unfold subshell
  simp only
  split
  · refine .nest fun result => ?_
    cases result <;> exact .done _
  · exact modest_written ExitCode.failed

theorem modest_body {command : Command} (h : IsBuiltin command) (inv : Invocation) :
    Modest 2 1 (command.body inv).run := by
  simp only [IsBuiltin, commands, List.map_cons, List.map_nil, List.mem_cons, List.not_mem_nil,
    or_false] at h
  rcases h with rfl | rfl | rfl | rfl | rfl | rfl | rfl
  · exact modest_date
  · exact modest_echo
  · exact modest_exit
  · exact modest_help
  · exact modest_exit
  · exact modest_sleep
  · exact modest_subshell

theorem modest_crossing (result : Except Failure ExitCode) : Modest 1 0 (crossing result) := by
  cases result with
  | ok code => exact .done _
  | error e =>
    by_cases he : e = .interrupted
    · subst he
      exact .done _
    · rw [crossing_error he, reportFailure_run]
      exact modest_write fun a => .done _

/-- **A built-in command** makes at most three requests and starts at most one nested shell, the
report of its failure included. -/
theorem modest_perform (h : IsBuiltin b.command) (inv : Invocation) :
    Modest 3 1 (b.perform inv).run := by
  rw [perform_run]
  exact (modest_body h _).bind modest_crossing

end Builtin

namespace Console

/-- The commands of a console are built-in ones, under whatever names. -/
def OnlyBuiltins (console : Console) : Prop :=
  ∀ name command, console.registry.lookup name = some command → Builtin.IsBuiltin command

theorem OnlyBuiltins.of_resolve {console : Console} (h : console.OnlyBuiltins)
    (words : List String) (b : Binding) (hb : console.resolve (.words words) = .ok b) :
    Builtin.IsBuiltin b.command := by
  cases resolve_eq_iff.mp hb with
  | words hfinds =>
    cases hfinds with
    | found hname => exact h _ _ hname

theorem onlyBuiltins_of_bundle {console : Console} (h : console.registry = ⟨[Builtin.bundle]⟩) :
    console.OnlyBuiltins := by
  intro name command hname
  rw [h, Builtin.lookup_bundle] at hname
  obtain ⟨before, after, he, -⟩ := List.lookup_eq_some_iff.mp hname
  refine List.mem_map.mpr ⟨(name, command), ?_, rfl⟩
  rw [he]
  exact List.mem_append_right _ List.mem_cons_self

end Console

end CommandConsole
