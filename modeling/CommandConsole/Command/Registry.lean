import CommandConsole.Command.Bundle

/-!
# Registries

A registry is a list of bundles, first come first served: a name means the command of the first
bundle that has it.
-/

namespace CommandConsole

/-- Bundles in order of priority. -/
structure Registry (α : Type) where
  bundles : List (Bundle α) := []

/-- Whoever contributes a bundle: its description, and its commands in the order they are defined
in. -/
structure Provider (α : Type) where
  description : String
  commands : List (String × α)

/-- The bundle of a provider. -/
def Provider.bundle {α : Type} (p : Provider α) : Bundle α :=
  Bundle.ofList p.description p.commands

namespace Registry

variable {α β : Type}

/-- The registry of one bundle of some commands. -/
def ofCommands (description : String) (commands : List (String × α)) : Registry α :=
  ⟨[Bundle.ofList description commands]⟩

/-- The registry with the bundle of each provider, in their order. -/
def discover (providers : List (Provider α)) : Registry α :=
  ⟨providers.map Provider.bundle⟩

/-- Adds a bundle behind all others. -/
def push (r : Registry α) (b : Bundle α) : Registry α :=
  ⟨r.bundles ++ [b]⟩

/-- The command of a name in the first bundle that has one. -/
def lookup (r : Registry α) (name : String) : Option α :=
  r.bundles.findSome? (·.get? name)

/-- Each name that can be looked up, with its command, in name order. -/
def commands (r : Registry α) : List (String × α) :=
  (r.bundles.foldl
    (fun all b => b.toList.foldl (fun all (name, command) => all.insertIfNew name command) all)
    (∅ : Std.TreeMap String α)).toList

/-- Whether no name can be looked up. -/
def isEmpty (r : Registry α) : Bool :=
  r.bundles.all (·.isEmpty)

/-- The registry with something else in place of each command. -/
def map (f : α → β) (r : Registry α) : Registry β :=
  ⟨r.bundles.map (·.map f)⟩

end Registry

end CommandConsole
