import CommandConsole.Command.Dispatch

/-!
# Options

The program's arguments: options, and then words. An option is set once. One that takes a value has
it attached or takes the next argument for it, unless that is an option, too; an argument that only
looks like one and is none is a word or a value like any other. From the first word on, or after
`--`, everything is a word.

An option that takes the next argument is set when the argument after that is an option, or at the
end; what is wrong with it shows only then.

Results: `ofArguments_nil` (no arguments, no options), `job_list` (a listing comes before all else).
-/

namespace CommandConsole

/-- What the arguments ask for. -/
structure Options where
  words : List String := []
  command : Option String := none
  config : Option String := none
  logFile : Bool := false
  list : Bool := false
  deriving DecidableEq, Repr, Inhabited

/-- What the program does. -/
inductive Job where
  | shell
  | list
  | perform (input : CommandInput)

namespace Options

/-- Why the arguments end the program. -/
inductive Stop where
  | help
  | version
  /-- A value is missing or is none that the option takes. -/
  | invalidValue
  /-- An option has a value attached that takes none. -/
  | tooManyValues
  /-- Options given twice, or that exclude one another. -/
  | conflict
  deriving DecidableEq, Repr

/-- An option that takes a value. -/
inductive Setting where
  | command
  | config
  deriving DecidableEq, Repr

/-- An option that takes none. -/
inductive Switch where
  | logFile
  | list
  | help
  | version
  deriving DecidableEq, Repr

/-- An option. -/
inductive Name where
  | setting (s : Setting)
  | switch (s : Switch)
  deriving DecidableEq, Repr

/-- The option with a long name. -/
def Name.ofLong? : String → Option Name
  | "command" => some (.setting .command)
  | "config" => some (.setting .config)
  | "log-file" => some (.switch .logFile)
  | "list" => some (.switch .list)
  | "help" => some (.switch .help)
  | "version" => some (.switch .version)
  | _ => none

/-- The option with a name of one character. -/
def Name.ofShort? : Char → Option Name
  | 'c' => some (.setting .command)
  | 'h' => some (.switch .help)
  | 'V' => some (.switch .version)
  | _ => none

/-- What an argument is, by its looks. -/
inductive Argument where
  | separator
  /-- Switches, and at most one option with a value after them; its value may be attached. -/
  | options (switches : List Switch) (last : Option (Setting × Option String))
  /-- A switch with a value attached. -/
  | overfull
  | plain
  deriving DecidableEq, Repr

namespace Argument

/-- An argument after two dashes. -/
def ofLong (body : List Char) : Argument :=
  let attached :=
    match body.dropWhile (· ≠ '=') with
    | [] => none
    | _ :: value => some (String.ofList value)
  match Name.ofLong? (String.ofList (body.takeWhile (· ≠ '='))), attached with
  | none, _ => plain
  | some (.setting s), _ => options [] (some (s, attached))
  | some (.switch s), none => options [s] none
  | some (.switch _), some _ => overfull

/-- Names of one character each. The rest of the argument after one that takes a value is that
value. -/
def ofNames : List Char → List Switch × Option (Setting × Option String)
  | [] => ([], none)
  | c :: rest =>
    match Name.ofShort? c with
    | some (.setting s) => ([], some (s, if rest.isEmpty then none else some (String.ofList rest)))
    | some (.switch s) => (s :: (ofNames rest).1, (ofNames rest).2)
    | none => ofNames rest

/-- An argument after one dash: options if every character names one. -/
def ofShort (body : List Char) : Argument :=
  if body.all fun c => (Name.ofShort? c).isSome then
    options (ofNames body).1 (ofNames body).2
  else plain

/-- What an argument is. -/
def ofText (text : String) : Argument :=
  match text.toList with
  | ['-', '-'] => separator
  | '-' :: '-' :: body => ofLong body
  | ['-'] => plain
  | '-' :: body => ofShort body
  | _ => plain

end Argument

/-- Sets an option that takes a value. -/
def set (o : Options) (s : Setting) : Option String → Except Stop Options
  | none => .error .invalidValue
  | some value =>
    match s with
    | .command =>
      if o.command.isSome then .error .conflict else .ok { o with command := some value }
    | .config =>
      if o.config.isSome then .error .conflict
      else if value.isEmpty then .error .invalidValue
      else .ok { o with config := some value }

/-- Turns a switch on. -/
def turnOn (o : Options) : Switch → Except Stop Options
  | .logFile => if o.logFile then .error .conflict else .ok { o with logFile := true }
  | .list => if o.list then .error .conflict else .ok { o with list := true }
  | .help => .error .help
  | .version => .error .version

/-- The arguments read so far: what is set, and an option that will be, with its value once that
has come. -/
structure Progress where
  options : Options := {}
  pending : Option (Setting × Option String) := none

namespace Progress

/-- Sets what is pending. -/
def settle (p : Progress) : Except Stop Options :=
  match p.pending with
  | none => .ok p.options
  | some (s, value) => p.options.set s value

/-- Takes some options. -/
def take (p : Progress) (switches : List Switch) (last : Option (Setting × Option String)) :
    Except Stop Progress := do
  let p ← switches.foldlM (fun (p : Progress) s => do return ⟨← (← p.settle).turnOn s, none⟩) p
  match last with
  | none => return p
  | some (s, none) => return ⟨← p.settle, some (s, none)⟩
  | some (s, some value) => return ⟨← (← p.settle).set s (some value), none⟩

/-- Takes words, the last of all arguments. -/
def takeWords (p : Progress) (words : List String) : Except Stop Options :=
  p.settle.map ({ · with words := words })

/-- Reads arguments to their end. -/
def read (p : Progress) : List String → Except Stop Options
  | [] => p.settle
  | text :: rest =>
    match Argument.ofText text with
    | .separator => p.takeWords rest
    | .overfull => .error .tooManyValues
    | .options switches last => do (← p.take switches last).read rest
    | .plain =>
      match p.pending with
      | some (s, none) => read { p with pending := some (s, some text) } rest
      | _ => p.takeWords (text :: rest)

end Progress

/-- Whether options exclude one another. -/
def excluded (o : Options) : Bool :=
  (o.command.isSome && !o.words.isEmpty) || (o.list && (o.command.isSome || !o.words.isEmpty))

/-- The options that the arguments give. The settings file may also be named by a variable. -/
def ofArguments (args : List String) (configVariable : Option String) : Except Stop Options := do
  let o ← Progress.read {} args
  let o ←
    match o.config, configVariable with
    | none, some value => o.set .config (some value)
    | _, _ => pure o
  if o.excluded then throw .conflict else return o

/-- What the program is to do. -/
def job (o : Options) : Job :=
  if o.list then .list
  else
    match o.command with
    | some line => .perform (.line line)
    | none => if o.words.isEmpty then .shell else .perform (.words o.words)

/-- Whether the log goes to a file: that of a shell always does. -/
def logsToFile (o : Options) : Bool :=
  o.logFile ||
    match o.job with
    | .shell => true
    | _ => false

theorem ofArguments_nil : ofArguments [] none = .ok {} := rfl

theorem job_list {o : Options} (h : o.list = true) : o.job = .list := by
  simp [job, h]

namespace Stop

/-- The exit code of a program that its arguments end. -/
def code : Stop → Nat
  | help | version => 0
  | _ => 2

/-- The form of the program's arguments. -/
def usage : String :=
  "Usage: ctk [OPTIONS] [COMMAND]..."

/-- The text on the program and its arguments. -/
def helpText : String :=
  "\n".intercalate [
    "Console sessions with cancellable lifecycles, a quoting command-line parser and " ++
      "bundle-based command dispatch",
    "",
    usage,
    "",
    "Arguments:",
    "  [COMMAND]...  Command and arguments to execute (omit for an interactive shell)",
    "",
    "Options:",
    "  -c, --command <STRING>  Command line to parse and execute",
    "      --config <PATH>     Config file path [env: CTK_CONFIG=]",
    "      --log-file          Write logs to the log file even in exec mode",
    "      --list              List available commands and exit",
    "  -h, --help              Print help",
    "  -V, --version           Print version",
    ""]

/-- The text of a refusal. -/
def refusal (reason : String) : String :=
  "error: " ++ reason ++ "\n\n" ++ usage ++ "\n\nFor more information, try '--help'.\n"

/-- What the program writes when its arguments end it. -/
def text : Stop → String
  | help => helpText
  | version => "ctk 0.1.0\n"
  | invalidValue => refusal "an option has no value that it takes"
  | tooManyValues => refusal "an option has a value and takes none"
  | conflict => refusal "the arguments cannot be used together"

end Stop

end Options

end CommandConsole
