import Std.Data.TreeMap

/-!
# Environment

The variables that a command can see: names with one value each, in the order of the names' code
points.
-/

namespace CommandConsole

/-- Variables by name. -/
structure Environment where
  vars : Std.TreeMap String String := ∅

namespace Environment

/-- The environment of some pairs; the last value given to a name counts. -/
def ofList (pairs : List (String × String)) : Environment :=
  ⟨pairs.foldl (fun vars (name, value) => vars.insert name value) ∅⟩

/-- The value of a variable. -/
def get? (e : Environment) (name : String) : Option String :=
  e.vars[name]?

/-- The variables in name order. -/
def toList (e : Environment) : List (String × String) :=
  e.vars.toList

/-- The number of variables. -/
def size (e : Environment) : Nat :=
  e.vars.size

/-- Whether no variable is set. -/
def isEmpty (e : Environment) : Bool :=
  e.vars.isEmpty

instance : BEq Environment where
  beq a b := a.toList == b.toList

end Environment

end CommandConsole
