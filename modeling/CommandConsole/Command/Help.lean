import CommandConsole.Text.Blank
import CommandConsole.Text.Line

/-!
# Help on a command

Each command has a line of arguments, a summary and a longer text. `Help.details` lays them out
under three headings, every line of a text indented by four spaces, so that no line of a text can
be taken for a heading.

Results: `indent_synopsis` (`details` shows the same line of arguments as `usageLine`).
-/

namespace CommandConsole

/-- What a command says about itself. -/
structure Help where
  usage : Option String := none
  summary : String := ""
  detail : String := ""
  deriving DecidableEq, Repr, Inhabited

namespace Help

/-- A command's name and its arguments, if there are any to show. -/
def synopsis (name : String) (usage : Option String) : String :=
  match usage with
  | none => name
  | some u => if u.isEmpty then name else name ++ " " ++ u

theorem synopsis_some {arguments : String} (h : arguments ≠ "") (name : String) :
    synopsis name (some arguments) = name ++ " " ++ arguments := by
  rw [synopsis, if_neg]
  simpa using h

/-- The line that reports wrong arguments. -/
def usageLine (name : String) (usage : Option String) : String :=
  "Usage: " ++ synopsis name usage

/-- What each line of a text is set in by. -/
def margin : String :=
  "    "

/-- The lines of a text without blanks around it, each with the margin before it. -/
def indent (text : String) : String :=
  let lines := Text.lines (Text.trim text.toList)
  "\n".intercalate (lines.map fun line => margin ++ String.ofList line)

/-- The full help on a command. -/
def details (h : Help) (name : String) : String :=
  let usage :=
    match h.usage with
    | none => name
    | some arguments => name ++ " " ++ arguments
  "Summary:\n" ++ indent h.summary ++ "\nUsage:\n" ++ indent usage ++
    "\nDescription:\n" ++ indent h.detail ++ "\n"

/-- Empty arguments leave a blank behind the name, which the indented text does not show. -/
theorem indent_synopsis (name : String) (usage : Option String) :
    indent (synopsis name usage) =
      indent (usage.elim name fun arguments => name ++ " " ++ arguments) := by
  cases usage with
  | none => rfl
  | some arguments =>
    by_cases hempty : arguments = ""
    · have hblank : (name ++ " " ++ "").toList = name.toList ++ [' '] := by simp
      subst hempty
      simp only [indent, synopsis, Option.elim_some, hblank, Text.trim_concat (c := ' ') rfl]
      rfl
    · rw [synopsis_some hempty]
      rfl

end Help

end CommandConsole
