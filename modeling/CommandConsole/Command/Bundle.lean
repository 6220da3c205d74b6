import Std.Data.TreeMap

/-!
# Bundles

A bundle is a described group of commands, at most one for each name, in the order of the names'
code points. What a command is does not matter here, so a bundle can hold commands or only their
help.
-/

namespace CommandConsole

/-- Commands by name under one description. -/
structure Bundle (α : Type) where
  description : String
  commands : Std.TreeMap String α := ∅

namespace Bundle

variable {α β : Type}

/-- Adds a command; an earlier one of the same name is replaced. -/
def insert (b : Bundle α) (name : String) (command : α) : Bundle α :=
  { b with commands := b.commands.insert name command }

/-- The bundle of some commands; the last one of a name counts. -/
def ofList (description : String) (commands : List (String × α)) : Bundle α :=
  commands.foldl (fun b (name, command) => b.insert name command) ⟨description, ∅⟩

/-- The command of a name. -/
def get? (b : Bundle α) (name : String) : Option α :=
  b.commands[name]?

/-- The commands in name order. -/
def toList (b : Bundle α) : List (String × α) :=
  b.commands.toList

/-- The names in order. -/
def names (b : Bundle α) : List String :=
  b.commands.keys

/-- The number of commands. -/
def size (b : Bundle α) : Nat :=
  b.commands.size

/-- Whether the bundle has no command. -/
def isEmpty (b : Bundle α) : Bool :=
  b.commands.isEmpty

/-- The bundle with something else in place of each command. -/
def map (f : α → β) (b : Bundle α) : Bundle β :=
  ⟨b.description, b.commands.map fun _ a => f a⟩

end Bundle

end CommandConsole
