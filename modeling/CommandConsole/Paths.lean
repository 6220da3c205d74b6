/-!
# Where files are

The settings file and the log file lie in the directories that the user's variables name for such
files, or in the usual places below the home directory. A variable counts only if it holds an
absolute path. Where there is no home directory either, the settings are looked for in the current
directory and the log goes where temporary files go.

-/

namespace CommandConsole

/-- What the user's variables say about directories. -/
structure Directories where
  home : Option String := none
  config : Option String := none
  state : Option String := none
  deriving DecidableEq, Repr, Inhabited

namespace Directories

/-- A path with one more name at its end. -/
def join (base name : String) : String :=
  if base.isEmpty ∨ base.toList.getLast? = some '/' then base ++ name else base ++ "/" ++ name

/-- Whether a path starts at the root. -/
def isAbsolute (path : String) : Bool :=
  path.toList.head? = some '/'

/-- The directory that a variable names, or else one below the home directory. -/
def chosen (d : Directories) (named : Option String) (below : String) : Option String :=
  (named.filter isAbsolute).or (d.home.map (join · below))

/-- The directory for settings. -/
def configDir? (d : Directories) : Option String :=
  d.chosen d.config ".config"

/-- The directory for what programs leave behind. -/
def stateDir? (d : Directories) : Option String :=
  d.chosen d.state ".local/state"

/-- The settings file that is used if no other is named. -/
def settingsFile (d : Directories) : String :=
  join (join (d.configDir?.getD ".") "ctk") "config.toml"

/-- The log file. -/
def logFile (d : Directories) : String :=
  match d.stateDir?.or d.configDir? with
  | some base => join (join base "ctk") "ctk.log"
  | none => "/tmp/ctk.log"

/-- The directory that holds the log file. -/
def logDirectory (d : Directories) : String :=
  match d.stateDir?.or d.configDir? with
  | some base => join base "ctk"
  | none => "/tmp"

end Directories

end CommandConsole
