import CommandConsole.Command.Builtin
import CommandConsole.Command.Dispatch
import CommandConsole.Proofs.Command.Resolution

/-!
# What the built-in commands do in a shell

In a shell that nobody interrupts and whose streams do not fail, a built-in command either answers
with a code, or opens a nested shell and answers with its code, or has its own shell end with a
value. `deed?` says which, by the name and the arguments of the command alone.

`Concludes` is what the script of a command comes to there, whatever the clock shows: its result,
and the exit value of the shell before and after it.

Results: `lookup_bundle` (the commands of the bundle by name). Main statement: `does_of_command?`.
-/

namespace CommandConsole

open Command

/-! ## Scripts -/

/-- A script comes to a result and changes the exit value of its shell, or not, where writes do not
fail and waits end when their time has come. -/
inductive Concludes : Script (Except Failure ExitCode) → Option ExitCode →
    Except Failure ExitCode → Option ExitCode → Prop
  | done {result : Except Failure ExitCode} {value : Option ExitCode} :
      Concludes (.done result) value result value
  | write {channel : Channel} {text : String} {value value' : Option ExitCode}
      {more : Answer (.write channel text) → Script (Except Failure ExitCode)}
      {result : Except Failure ExitCode} (h : Concludes (more (.ok ())) value result value') :
      Concludes (.ask (.write channel text) more) value result value'
  | clock {more : Answer .clock → Script (Except Failure ExitCode)}
      {value value' : Option ExitCode} {result : Except Failure ExitCode}
      (h : ∀ time, Concludes (more time) value result value') :
      Concludes (.ask .clock more) value result value'
  | wait {deadline : Nat} {more : Answer (.wait (some deadline)) → Script (Except Failure ExitCode)}
      {value value' : Option ExitCode} {result : Except Failure ExitCode}
      (h : Concludes (more .elapsed) value result value') :
      Concludes (.ask (.wait (some deadline)) more) value result value'
  | calendar {more : Answer .calendar → Script (Except Failure ExitCode)}
      {value value' : Option ExitCode} {result : Except Failure ExitCode}
      (h : ∀ seconds, Concludes (more seconds) value result value') :
      Concludes (.ask .calendar more) value result value'
  | setExitValue {x : ExitCode} {more : Answer (.setExitValue x) → Script (Except Failure ExitCode)}
      {value value' : Option ExitCode} {result : Except Failure ExitCode}
      (h : Concludes (more ()) (some x) result value') :
      Concludes (.ask (.setExitValue x) more) value result value'

namespace Builtin

/-- What a built-in command does in a shell. -/
inductive Deed where
  /-- It ends with a code. -/
  | answers (code : ExitCode)
  /-- It runs a nested shell and ends with its code. -/
  | opens
  /-- It has its shell end with a value. -/
  | closes (value : ExitCode)
  deriving DecidableEq, Repr

/-- The exit value that `exit` and `quit` accept. -/
def accepted? : List String → Option ExitCode
  | [] => some 0
  | [text] => ExitCode.ofText? text
  | _ => none

/-- What `exit` and `quit` do: arguments that are no exit value are refused. -/
def exitDeed (args : List String) : Deed :=
  match accepted? args with
  | some value => .closes value
  | none => .answers 1

/-- What `help` does, where `known` are its topics. -/
def helpDeed (known : String → Bool) : List String → Deed
  | [] => .answers 0
  | [topic] => .answers (if known topic then 0 else 1)
  | _ => .answers 1

/-- What `sleep` does. -/
def sleepDeed : List String → Deed
  | [text] => .answers (if (Seconds.nanos? text).isSome then 0 else 1)
  | _ => .answers 1

/-- What the built-in command of a name does, where `known` are the topics of its help. -/
def deed? (known : String → Bool) (name : String) (args : List String) : Option Deed :=
  match name with
  | "date" => some (.answers (if args.isEmpty then 0 else 1))
  | "echo" => some (.answers 0)
  | "exit" => some (exitDeed args)
  | "help" => some (helpDeed known args)
  | "quit" => some (exitDeed args)
  | "sleep" => some (sleepDeed args)
  | "subshell" => some .opens
  | _ => none

/-- The value with which a command has its shell end. -/
def Deed.value? : Deed → Option ExitCode
  | .closes value => some value
  | _ => none

/-- The value with which `exit` and `quit`, and no other command, have their shell end. -/
def exitValue? (name : String) (args : List String) : Option ExitCode :=
  if name = "exit" ∨ name = "quit" then accepted? args else none

/-- **Only `exit` and `quit` have their shell end**, with the value that they accept. -/
theorem value?_of_deed? {known : String → Bool} {name : String} {args : List String} {deed : Deed}
    (h : deed? known name args = some deed) : deed.value? = exitValue? name args := by
  have hexit : (exitDeed args).value? = accepted? args := by
    unfold exitDeed
    cases accepted? args <;> rfl
  have hhelp : (helpDeed known args).value? = none := by
    unfold helpDeed
    split <;> rfl
  have hsleep : (sleepDeed args).value? = none := by
    unfold sleepDeed
    split <;> rfl
  unfold deed? at h
  split at h <;> cases h
  · rfl
  · rfl
  · exact hexit
  · exact hhelp
  · exact hexit
  · exact hsleep
  · rfl

/-- A script does a deed. -/
def Deed.Does (script : Script (Except Failure ExitCode)) : Deed → Prop
  | .answers code => ∀ value, Concludes script value (.ok code) value
  | .opens => ∃ args more, script = .ask (.nestShell args) more ∧
      ∀ code, more (.ok code) = .done (.ok code)
  | .closes x => ∀ value, Concludes script value (.ok x) (some x)

/-- The script of a command in a shell. -/
def scriptOf (inv : Invocation) (name : String) (args : List String) (command : Command) :
    Script (Except Failure ExitCode) :=
  ((⟨command, name, args⟩ : Binding).perform inv).run

variable {inv : Invocation} {name : String} {args : List String}

theorem does_date : Deed.Does (scriptOf inv "date" args date)
    (.answers (if args.isEmpty then 0 else 1)) := by
  intro value
  cases args with
  | nil => exact .calendar fun seconds => .write .done
  | cons arg rest => exact .write .done

theorem does_echo : Deed.Does (scriptOf inv "echo" args echo) (.answers 0) :=
  fun _ => .write .done

theorem does_exit : Deed.Does (scriptOf inv name args exit) (exitDeed args) := by
  match args with
  | [] => exact fun _ => .setExitValue .done
  | [text] =>
    cases hv : ExitCode.ofText? text with
    | some x =>
      simp only [exitDeed, accepted?, hv]
      intro value
      simp only [scriptOf, Binding.perform, exit, hv]
      exact .setExitValue .done
    | none =>
      simp only [exitDeed, accepted?, hv]
      intro value
      simp only [scriptOf, Binding.perform, exit, hv]
      exact .write .done
  | _ :: _ :: _ => exact fun _ => .write .done

theorem does_help {known : String → Bool}
    (hknown : ∀ topic, known topic = (inv.reference.lookup topic).isSome) :
    Deed.Does (scriptOf inv "help" args help) (helpDeed known args) := by
  match args with
  | [] => exact fun _ => .write (.write .done)
  | [topic] =>
    rw [helpDeed, hknown]
    intro value
    simp only [scriptOf, Binding.perform, help]
    cases inv.reference.lookup topic with
    | some h => exact .write .done
    | none => exact .write .done
  | _ :: _ :: _ => exact fun _ => .write .done

theorem does_sleep : Deed.Does (scriptOf inv "sleep" args sleep) (sleepDeed args) := by
  match args with
  | [] => exact fun _ => .write .done
  | [text] =>
    rw [sleepDeed]
    intro value
    simp only [scriptOf, Binding.perform, sleep]
    cases Seconds.nanos? text with
    | some nanos => exact .clock fun _ => .wait .done
    | none => exact .write .done
  | _ :: _ :: _ => exact fun _ => .write .done

theorem does_subshell (hshell : inv.shell.isSome = true) :
    Deed.Does (scriptOf inv "subshell" args subshell) .opens := by
  simp only [scriptOf, Binding.perform, subshell, hshell, if_true]
  exact ⟨args, _, rfl, fun _ => rfl⟩

/-! ## The commands by name -/

/-- Where each name is inserted once, its insertion is the entry of the list. -/
theorem insertsLast_iff_of_nodup {α : Type} {inserted : List (String × α)} {command : α}
    (h : (inserted.map Prod.fst).Nodup) :
    Bundle.InsertsLast inserted name command ↔ inserted.lookup name = some command := by
  induction inserted with
  | nil => simp [Bundle.InsertsLast]
  | cons x rest ih =>
    obtain ⟨key, c⟩ := x
    obtain ⟨hkey, hrest⟩ := List.nodup_cons.mp h
    rw [Bundle.insertsLast_cons, ih hrest, List.lookup_cons]
    by_cases hname : name = key
    · subst hname
      have hnone : ¬ Bundle.Inserts rest name := by
        rintro ⟨command', hmem⟩
        exact hkey (List.mem_map.mpr ⟨_, hmem, rfl⟩)
      have hlookup : rest.lookup name ≠ some command := fun hl =>
        hnone ((ih hrest).mpr hl).inserts
      simp [hnone, hlookup]
    · have hbeq : (name == key) = false := by simpa using hname
      simp [hbeq, Ne.symm hname]

/-- **The commands of the bundle by name.** -/
theorem lookup_bundle (name : String) :
    (⟨[bundle]⟩ : Registry Command).lookup name = command? name := by
  have hnodup : (commands.map Prod.fst).Nodup := by decide
  rw [Registry.lookup, List.findSome?_singleton]
  refine Option.ext fun command => ?_
  rw [bundle, Bundle.get?_ofList_eq_some_iff, insertsLast_iff_of_nodup hnodup]
  rfl

/-- **Every command of the bundle does its deed** in a shell, whatever else it is run with. -/
theorem does_of_command? (known : String → Bool) (args : List String) {command : Command}
    (h : command? name = some command) :
    ∃ deed, deed? known name args = some deed ∧ ∀ inv : Invocation, inv.shell.isSome = true →
      (∀ topic, known topic = (inv.reference.lookup topic).isSome) →
      deed.Does (scriptOf inv name args command) := by
  obtain ⟨before, after, he, -⟩ := List.lookup_eq_some_iff.mp h
  have hmem : (name, command) ∈ commands := by
    rw [he]
    exact List.mem_append_right _ List.mem_cons_self
  simp only [commands, List.mem_cons, Prod.mk.injEq, List.not_mem_nil, or_false] at hmem
  rcases hmem with ⟨rfl, rfl⟩ | ⟨rfl, rfl⟩ | ⟨rfl, rfl⟩ | ⟨rfl, rfl⟩ | ⟨rfl, rfl⟩ | ⟨rfl, rfl⟩ |
    ⟨rfl, rfl⟩
  · exact ⟨_, rfl, fun _ _ _ => does_date⟩
  · exact ⟨_, rfl, fun _ _ _ => does_echo⟩
  · exact ⟨_, rfl, fun _ _ _ => does_exit⟩
  · exact ⟨_, rfl, fun _ _ hknown => does_help hknown⟩
  · exact ⟨_, rfl, fun _ _ _ => does_exit⟩
  · exact ⟨_, rfl, fun _ _ _ => does_sleep⟩
  · exact ⟨_, rfl, fun _ hshell _ => does_subshell hshell⟩

/-- Other names do nothing. -/
theorem deed?_of_none {known : String → Bool} (h : command? name = none) :
    deed? known name args = none := by
  have hne : ∀ p ∈ commands, (name != p.1) = true := List.lookup_eq_none_iff.mp h
  unfold deed?
  split
  case h_8 => rfl
  all_goals simp [commands] at hne

end Builtin

end CommandConsole
