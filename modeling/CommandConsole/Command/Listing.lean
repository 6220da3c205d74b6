import CommandConsole.Command.Help
import CommandConsole.Command.Registry

/-!
# Listing the commands

A listing has one section for each bundle that shows a name no earlier bundle has: the bundle's
description, and a row for each such name with its summary, the summaries in one column.
-/

namespace CommandConsole.Registry

/-- The commands of a bundle whose names are in no bundle before it. -/
def visible (seen : List String) (b : Bundle Help) : List (String × Help) :=
  b.toList.filter fun (name, _) => !seen.contains name

/-- A text with spaces after it up to a width in characters. -/
def padTo (width : Nat) (s : String) : String :=
  s ++ String.ofList (List.replicate (width - s.length) ' ')

/-- The row of one command. -/
def row (width : Nat) (name : String) (h : Help) : String :=
  "  " ++ padTo width name ++ "  " ++ h.summary ++ "\n"

/-- The section of a bundle that shows some commands; none if it shows no command. -/
def listingSection (description : String) (shown : List (String × Help)) : String :=
  if shown.isEmpty then ""
  else
    let width := (shown.map fun (name, _) => name.length).foldl max 0
    "=== " ++ description ++ "\n\n" ++
      String.join (shown.map fun (name, h) => row width name h) ++ "\n"

/-- The sections of some bundles behind others that have the names `seen`. -/
def listingFrom (seen : List String) : List (Bundle Help) → String
  | [] => ""
  | b :: rest =>
    listingSection b.description (visible seen b) ++ listingFrom (seen ++ b.names) rest

/-- The listing of all commands that can be looked up. -/
def listing (r : Registry Help) : String :=
  listingFrom [] r.bundles

end CommandConsole.Registry
