import CommandConsole.Console
import CommandConsole.Stream.Source
import CommandConsole.Toml.Document

/-!
# Settings

A settings file is a TOML document with a log level and two groups: `shell`, how shells show
themselves, and `activity`, how long to wait for work to stop. Whatever a file leaves out keeps its
standard value, and so does everything if there is no file. Keys that mean nothing are passed over;
a setting of the wrong kind is a failure, as is a file that cannot be read.

Results: `load_missing` (no file, standard settings), `load_not_text`.
-/

namespace CommandConsole

/-- What a path leads to. -/
inductive FileContents where
  | missing
  /-- Something that the system does not read as a file. -/
  | unreadable (fault : StreamFault)
  | bytes (content : List UInt8)
  deriving DecidableEq, Repr

/-- A directory in place of a file. -/
def FileContents.directory : FileContents :=
  .unreadable ⟨"Is a directory (os error 21)"⟩

/-- The settings of the program. -/
structure Settings where
  logLevel : String := "info"
  shell : ShellSettings := {}
  /-- How long to wait for the worker of an activity when closing it, in milliseconds. -/
  shutdownWait : Nat := 1000
  deriving DecidableEq, Repr, Inhabited

namespace Settings

open CommandConsole.Toml

/-- The value of one setting of a group, if it has one: by its name in a table, by its place in a
list. A moment is a group that sets nothing, and no other value is a group. -/
def member? (place : Nat) (name : String) : Value → Option (Option Value)
  | .table _ es => some (es.lookup name)
  | .list items => some items[place]?
  | .tables earlier last => some (earlier ++ [.table .header last])[place]?
  | .moment _ => some none
  | _ => none

/-- Reads one setting of a group, given its standard value. -/
def setting? {α : Type} (group : Value) (place : Nat) (name : String) (kind : Value → Option α)
    (standard : α) : Option α := do
  match ← member? place name group with
  | none => return standard
  | some value => kind value

/-- A text. -/
def text? : Value → Option String
  | .text s => some s
  | _ => none

/-- A truth value. -/
def boolean? : Value → Option Bool
  | .boolean b => some b
  | _ => none

/-- A whole number that is not negative. -/
def count? : Value → Option Nat
  | .integer n => if 0 ≤ n then some n.toNat else none
  | _ => none

/-- The settings of shells. -/
def shell? (group : Value) : Option ShellSettings := do
  let standard : ShellSettings := {}
  return {
    greeting := ← setting? group 0 "greeting" text? standard.greeting
    prompt := ← setting? group 1 "prompt" text? standard.prompt
    continuationPrompt := ← setting? group 2 "continuation_prompt" text? standard.continuationPrompt
    crlf := ← setting? group 3 "crlf" boolean? standard.crlf }

/-- The settings of activities. -/
def shutdownWait? (group : Value) : Option Nat :=
  setting? group 0 "shutdown_wait_ms" count? ({} : Settings).shutdownWait

/-- The settings in a document. -/
def ofDocument? (entries : Entries) : Option Settings := do
  let standard : Settings := {}
  let root := Value.table .header entries
  return {
    logLevel := ← setting? root 0 "log_level" text? standard.logLevel
    shell := ← setting? root 1 "shell" shell? standard.shell
    shutdownWait := ← setting? root 2 "activity" shutdownWait? standard.shutdownWait }

/-- The failure of a file that cannot be read as text. -/
def unreadable (fault : StreamFault) : Failure :=
  .configuration ("Failed to read config file: " ++ fault.text)

/-- The failure of a file that holds no settings. -/
def refused (path : String) : Failure :=
  .configuration ("Configuration error in " ++ path ++ ":\n  not a settings document")

/-- Loads the settings from what a path leads to. -/
def load (path : String) : FileContents → Except Failure Settings
  | .missing => .ok {}
  | .unreadable fault => .error (unreadable fault)
  | .bytes content =>
    match Text.Utf8.decode? content with
    | none => .error (unreadable Source.notText)
    | some text =>
      match (document? text).bind ofDocument? with
      | none => .error (refused path)
      | some settings => .ok settings

@[simp] theorem load_missing (path : String) : load path .missing = .ok {} := rfl

theorem load_not_text {path : String} {content : List UInt8}
    (h : Text.Utf8.decode? content = none) :
    load path (.bytes content) = .error (unreadable Source.notText) := by
  simp [load, h]

end Settings

end CommandConsole
