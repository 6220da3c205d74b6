import CommandConsole.Proofs.Command.Deeds
import CommandConsole.Proofs.Command.Resolution
import CommandConsole.Proofs.Stream.Contents
import CommandConsole.Session.Completion

/-!
# Finding the command of an input

An input is a command line or words that were split before. `Names` says what an input comes to, as
one rule for each way; where several failures are possible at once, the rules say which one it is:
a line that cannot be read or is unfinished comes before one without words, that before a registry
without commands, and that before an unknown name.

Results: `ofWords_eq_iff` and `resolve_eq_iff` (what words and inputs come to), `write_asLine` (a line
is one call, whatever it says), `finding_of_resolve` (what is reported). Main statement:
`found_of_input`.
-/

namespace CommandConsole

namespace Binding

/-- What words come to. -/
inductive Finds (registry : Registry Command) : List String → Except Failure Binding → Prop
  /-- There is no name to look up, whatever the registry has. -/
  | wordless : Finds registry [] (.error .emptyCommand)
  | commandless {name : String} {args : List String} (h : ∀ other, registry.lookup other = none) :
      Finds registry (name :: args) (.error .noCommands)
  | unknown {name other : String} {args : List String} (hother : registry.lookup other ≠ none)
      (h : registry.lookup name = none) :
      Finds registry (name :: args) (.error (.unknownCommand name))
  | found {name : String} {args : List String} {command : Command}
      (h : registry.lookup name = some command) :
      Finds registry (name :: args) (.ok ⟨command, name, args⟩)

variable {registry : Registry Command} {words : List String} {answer : Except Failure Binding}

theorem finds_ofWords (registry : Registry Command) (words : List String) :
    Finds registry words (ofWords registry words) := by
  cases words with
  | nil => exact .wordless
  | cons name args =>
    rw [ofWords]
    by_cases hempty : registry.isEmpty = true
    · rw [if_pos hempty]
      exact .commandless (Registry.isEmpty_iff.mp hempty)
    · rw [if_neg hempty]
      cases hname : registry.lookup name with
      | some command => exact .found hname
      | none =>
        rw [Registry.isEmpty_iff, Classical.not_forall] at hempty
        obtain ⟨other, hother⟩ := hempty
        exact .unknown hother hname

theorem ofWords_of_finds (h : Finds registry words answer) : ofWords registry words = answer := by
  cases h with
  | wordless => rfl
  | commandless hnone => exact if_pos (Registry.isEmpty_iff.mpr hnone)
  | unknown hother hname =>
    have hsome : ¬ registry.isEmpty = true := fun hempty =>
      hother (Registry.isEmpty_iff.mp hempty _)
    rw [ofWords, if_neg hsome, hname]
  | @found name args command hname =>
    have hsome : ¬ registry.isEmpty = true := by
      intro hempty
      rw [Registry.isEmpty_iff.mp hempty name] at hname
      cases hname
    rw [ofWords, if_neg hsome, hname]

theorem ofWords_eq_iff : ofWords registry words = answer ↔ Finds registry words answer := by
  constructor
  · rintro rfl
    exact finds_ofWords registry words
  · exact ofWords_of_finds

end Binding

namespace World

/-- A line is one call on its sink, whatever it says. -/
theorem write_asLine (w : World) (outlet : Outlet) (text : String) :
    (w.write outlet (Text.asLine text)).2 = w.setSink outlet.sink
      ((w.sink outlet.sink).called (outlet.output.translate (text ++ "\n"))
        (w.sink outlet.sink).takesNext) := by
  have hne : outlet.output.translate (Text.asLine text) ≠ "" := by
    rw [ne_eq, Output.translate_eq_empty_iff]
    exact Text.asLine_ne text
  rw [write, Output.write]
  exact congrArg (w.setSink outlet.sink) (Sink.write_eq_called hne)

end World

namespace Console

open Binding

/-- What an input comes to. -/
inductive Names (console : Console) : CommandInput → Except Failure Binding → Prop
  | words {words : List String} {answer : Except Failure Binding}
      (h : Finds console.registry words answer) : Names console (.words words) answer
  | line {text : String} {words : List String} {answer : Except Failure Binding}
      (hread : console.reader text = .ok (.complete words))
      (h : Finds console.registry words answer) : Names console (.line text) answer
  /-- The report is at the end of the line, counted in characters. -/
  | unfinished {text : String} (hread : console.reader text = .ok .needsMore) :
      Names console (.line text) (.error (.malformed ⟨text.length, "incomplete command"⟩))
  | malformed {text : String} {report : CommandLine.Malformed}
      (hread : console.reader text = .error report) :
      Names console (.line text) (.error (.malformed report))

variable {console : Console} {input : CommandInput} {answer : Except Failure Binding} {w : World}
  {err : Outlet}

theorem resolve_line {text : String} {words : List String}
    (h : console.reader text = .ok (.complete words)) :
    console.resolve (.line text) = console.resolve (.words words) := by
  rw [resolve, Binding.resolve, wordsOf, h]
  rfl

theorem names_resolve (console : Console) (input : CommandInput) :
    Names console input (console.resolve input) := by
  cases input with
  | words words => exact .words (finds_ofWords console.registry words)
  | line text =>
    cases hread : console.reader text with
    | error report =>
      rw [resolve, Binding.resolve, wordsOf, hread]
      exact .malformed hread
    | ok outcome =>
      cases outcome with
      | complete words =>
        rw [resolve_line hread]
        exact .line hread (finds_ofWords console.registry words)
      | needsMore =>
        rw [resolve, Binding.resolve, wordsOf, hread]
        exact .unfinished hread

theorem resolve_of_names (h : Names console input answer) : console.resolve input = answer := by
  cases h with
  | words h => exact ofWords_of_finds h
  | line hread h => exact (resolve_line hread).trans (ofWords_of_finds h)
  | unfinished hread | malformed hread =>
    rw [resolve, Binding.resolve, wordsOf, hread]
    rfl

/-- **What an input comes to.** -/
theorem resolve_eq_iff : console.resolve input = answer ↔ Names console input answer := by
  constructor
  · rintro rfl
    exact names_resolve console input
  · exact resolve_of_names

/-! ## What is reported -/

/-- What finding a command does to a world: nothing if there is one, and else one write call, which
may fail. -/
inductive Finding (w : World) (err : Outlet) :
    Except Failure Binding → Option Binding → World → Prop
  | found (b : Binding) : Finding w err (.ok b) (some b) w
  | reported (e : Failure) : Finding w err (.error e) none
      (w.setSink err.sink ((w.sink err.sink).called (err.output.translate (e.describe ++ "\n"))
        (w.sink err.sink).takesNext))

theorem finding_of_resolve (console : Console) (w : World) (err : Outlet) (input : CommandInput) :
    Finding w err (console.resolve input) (console.findCommand w err input).1
      (console.findCommand w err input).2 := by
  rw [findCommand]
  cases console.resolve input with
  | ok b => exact .found b
  | error e =>
    rw [World.write_asLine]
    exact .reported e

/-- **Lines and words are found alike, and each failure is reported once**, for every reader and
every registry. What an input comes to is what `Names` says. A line and the words it is read as come
to the same, and so do the one-shot sessions made from them: they are the same run, or are refused
with the same report. Finding a command answers none exactly if the input names none, also if the
report of it cannot be written. -/
theorem found_of_input (console : Console) :
    (∀ input answer, console.resolve input = answer ↔ Names console input answer) ∧
    (∀ text words, console.reader text = .ok (.complete words) →
      console.resolve (.line text) = console.resolve (.words words) ∧
      ∀ w out err env, Run.ofCommand console w out err env (.line text) =
        Run.ofCommand console w out err env (.words words)) ∧
    (∀ w err input, Finding w err (console.resolve input) (console.findCommand w err input).1
      (console.findCommand w err input).2) := by
  refine ⟨fun input answer => resolve_eq_iff, fun text words hread => ?_,
    finding_of_resolve console⟩
  have hsame := resolve_line hread
  refine ⟨hsame, fun w out err env => ?_⟩
  rw [Run.ofCommand, Run.ofCommand, findCommand, findCommand, hsame]

/-! ### A report that cannot be written -/

/-- A console with the built-in commands. -/
def plainConsole : Console where
  registry := ⟨[Builtin.bundle]⟩

/-- A world in which no error can be written. -/
def deafWorld : World where
  second := { faults := .writesFrom 0 ⟨"broken pipe"⟩ }

/-- A line and its words are found alike, and the report of a name that is not there is given up
after one call. -/
theorem found_unreported :
    CommandLine.read "echo \"a b\"" = .ok (.complete ["echo", "a b"]) ∧
    plainConsole.resolve (.line "echo \"a b\"") = plainConsole.resolve (.words ["echo", "a b"]) ∧
    plainConsole.resolve (.words ["walk"]) = .error (.unknownCommand "walk") ∧
    (plainConsole.findCommand deafWorld ⟨.second, {}⟩ (.words ["walk"])).1 = none ∧
    (plainConsole.findCommand deafWorld ⟨.second, {}⟩ (.words ["walk"])).2.second.log =
      [.write (.text "Error: command \"walk\" not found\n") false] := by
  obtain ⟨hresolve, hlines, hfinding⟩ := found_of_input plainConsole
  have hread : plainConsole.reader "echo \"a b\"" = .ok (.complete ["echo", "a b"]) := by rfl
  have hname : plainConsole.registry.lookup "walk" = none := Builtin.lookup_bundle "walk"
  have hother : plainConsole.registry.lookup "echo" ≠ none := by
    rw [show plainConsole.registry.lookup "echo" = _ from Builtin.lookup_bundle "echo"]
    exact Option.some_ne_none _
  have hunknown : plainConsole.resolve (.words ["walk"]) = .error (.unknownCommand "walk") :=
    (hresolve _ _).mpr (.words (.unknown hother hname))
  have hreported := hfinding deafWorld ⟨.second, {}⟩ (.words ["walk"])
  rw [hunknown] at hreported
  have hone (found : Option Binding) (w : World)
      (h : Finding deafWorld ⟨.second, {}⟩ (.error (.unknownCommand "walk")) found w) :
      found = none ∧
        w.second.log = [.write (.text "Error: command \"walk\" not found\n") false] := by
    cases h
    exact ⟨rfl, by decide +kernel⟩
  exact ⟨hread, (hlines _ _ hread).1, hunknown, hone _ _ hreported⟩

end Console

end CommandConsole
