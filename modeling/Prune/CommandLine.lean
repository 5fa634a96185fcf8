import Prune.Project

/-!
# The command line

The commands of the program (`Command`) and how they are given by arguments (`CommandLine.parse`).
The first argument names the command. An option that takes a value has it in the next argument, or
attached to it; short options may share an argument; behind two hyphens no argument is an option.
The first fault in the order of the arguments decides. The value of an option counts as met only
where the next argument is taken up.
-/

namespace Prune

/-- A command of the program. -/
inductive Command where
  /-- Reports the lines that would be removed. -/
  | check (settings : Settings)
  /-- Processes all source files, and with `apply` set writes the results. -/
  | build (settings : Settings) (apply : Bool) (outDir : Option String)
  /-- Processes a file and prints the result. -/
  | print (settings : Settings) (file : String)
  /-- Makes a configuration file. -/
  | init
  /-- Serves the tools for agents. -/
  | serve
deriving DecidableEq, Repr, Inhabited

namespace CommandLine

/-- Why arguments give no command. -/
inductive UsageError where
  | unknownArgument
  | unknownCommand
  | missingArgument
  | invalidValue
  | unneededValue
  | repeated
  /-- Help was asked for. -/
  | help
  /-- The version was asked for. -/
  | version
deriving DecidableEq, Repr, Inhabited

/-- What an argument can be about. -/
inductive Key where
  | define
  | enable
  | disable
  | sourceRoot
  | verbose
  | apply
  | outDir
  | file
  | help
  | version
deriving DecidableEq, Repr, Inhabited

namespace Key

/-- The long name of an option. -/
def long? : Key → Option String
  | .define => some "define"
  | .enable => some "enable"
  | .disable => some "disable"
  | .sourceRoot => some "source-root"
  | .verbose => some "verbose"
  | .apply => some "apply"
  | .outDir => some "out-dir"
  | .file => none
  | .help => some "help"
  | .version => some "version"

/-- The short name of an option. -/
def short? : Key → Option Char
  | .define => some 'D'
  | .verbose => some 'v'
  | .help => some 'h'
  | .version => some 'V'
  | _ => none

/-- Whether an option takes a value. -/
def takesValue : Key → Bool
  | .define | .enable | .disable | .sourceRoot | .outDir => true
  | _ => false

/-- Whether an option may be given several times. -/
def repeats : Key → Bool
  | .define | .enable | .disable => true
  | _ => false

/-- Whether a value is a path, which cannot be empty. -/
def isPath : Key → Bool
  | .sourceRoot | .outDir | .file => true
  | _ => false

end Key

/-- The arguments that a command takes. -/
structure Shape where
  options : List Key
  /-- What an argument that is no option is about. -/
  operand : Option Key := none
deriving Repr, Inhabited

/-- The option with a given long name. -/
def Shape.long? (s : Shape) (name : String) : Option Key :=
  s.options.find? fun key => key.long? == some name

/-- The option with a given short name. -/
def Shape.short? (s : Shape) (name : Char) : Option Key :=
  s.options.find? fun key => key.short? == some name

/-- What was given by the arguments so far. -/
structure Given where
  /-- The options and the operand with their values, in the order of the arguments. -/
  values : List (Key × String) := []
  /-- What waits to be taken up, with its value if that was met. -/
  pending : Option (Key × Option String) := none
  /-- Whether the operand was met. -/
  hasOperand : Bool := false
deriving Inhabited

namespace Given

/-- Whether an option was taken up. -/
def has (g : Given) (key : Key) : Bool :=
  g.values.any fun v => v.1 == key

/-- Takes up a value. -/
def record (g : Given) (key : Key) (value : String) : Except UsageError Given :=
  if !key.repeats && g.has key then .error .repeated
  else if key.isPath && value.isEmpty then .error .invalidValue
  else .ok { g with values := g.values ++ [(key, value)] }

/-- Takes up what waits. -/
def settle (g : Given) : Except UsageError Given :=
  match g.pending with
  | none => .ok g
  | some (_, none) => .error .invalidValue
  | some (key, some value) => { g with pending := none }.record key value

/-- Takes up an option without a value. -/
def flag (g : Given) (key : Key) : Except UsageError Given := do
  let g ← g.settle
  match key with
  | .help => .error .help
  | .version => .error .version
  | key => g.record key ""

/-- Takes up an option with its value, or lets it wait for one. -/
def option (g : Given) (key : Key) (value : Option String) : Except UsageError Given := do
  let g ← g.settle
  match value with
  | some value => g.record key value
  | none => return { g with pending := some (key, none) }

/-- The values that were given for a key. -/
def valuesOf (g : Given) (key : Key) : List String :=
  (g.values.filter fun v => v.1 == key).map (·.2)

end Given

/-- Takes up an argument that starts with two hyphens, which are left out. -/
def longArgument (s : Shape) (g : Given) (text : List Char) : Except UsageError Given :=
  let (name, rest) := text.span (· != '=')
  let value := if rest.isEmpty then none else some (String.ofList rest.tail)
  match s.long? (String.ofList name) with
  | none => .error .unknownArgument
  | some key =>
    if key.takesValue then g.option key value
    else if value.isSome then .error .unneededValue
    else g.flag key

/-- Takes up an argument that starts with one hyphen, which is left out. -/
def shortArgument (s : Shape) (g : Given) : List Char → Except UsageError Given
  | [] => .ok g
  | c :: cs =>
    match s.short? c with
    | none => .error .unknownArgument
    | some key =>
      if key.takesValue then
        match cs with
        | [] => g.option key none
        | '=' :: value => g.option key (some (String.ofList value))
        | value => g.option key (some (String.ofList value))
      else
        match g.flag key with
        | .error e => .error e
        | .ok g => shortArgument s g cs

/-- Takes up an argument that is no option. -/
def operandArgument (s : Shape) (g : Given) (arg : String) : Except UsageError Given :=
  match s.operand with
  | none => .error .unknownArgument
  | some key =>
    if g.hasOperand then .error .unknownArgument
    else do
      let g ← g.settle
      return { g with pending := some (key, some arg), hasOperand := true }

/-- Takes up the arguments of a command; `operandsOnly` is set behind two hyphens. -/
def takeAll (s : Shape) (g : Given) (operandsOnly : Bool) :
    List String → Except UsageError Given
  | [] => g.settle
  | arg :: args =>
    let taken : Except UsageError Given :=
      if operandsOnly then operandArgument s g arg
      else
        match arg.toList with
        | '-' :: '-' :: text => if text.isEmpty then .ok g else longArgument s g text
        | '-' :: c :: text => shortArgument s g (c :: text)
        | _ =>
          match g.pending with
          | some (key, none) => .ok { g with pending := some (key, some arg) }
          | _ => operandArgument s g arg
    match taken with
    | .error e => .error e
    | .ok g => takeAll s g (operandsOnly || arg == "--") args

/-- The options that all commands on projects share. -/
def settingsKeys : List Key :=
  [.define, .enable, .disable, .sourceRoot, .verbose, .help]

/-- The settings that were given. -/
def settingsOf (g : Given) : Settings :=
  { defines := g.valuesOf .define, enables := g.valuesOf .enable, disables := g.valuesOf .disable,
    sourceRoot := (g.valuesOf .sourceRoot).head?, verbose := g.has .verbose }

/-- The names of the commands. -/
def commandNames : List String := ["check", "build", "print", "init", "serve"]

/-- The command with a given name that further arguments give. -/
def parseCommand (name : String) (args : List String) : Except UsageError Command := do
  match name with
  | "check" =>
    let g ← takeAll ⟨settingsKeys, none⟩ {} false args
    return .check (settingsOf g)
  | "build" =>
    let g ← takeAll ⟨settingsKeys ++ [.apply, .outDir], none⟩ {} false args
    return .build (settingsOf g) (g.has .apply) (g.valuesOf .outDir).head?
  | "print" =>
    let g ← takeAll ⟨settingsKeys, some .file⟩ {} false args
    match g.valuesOf .file with
    | file :: _ => return .print (settingsOf g) file
    | [] => .error .missingArgument
  | "init" =>
    let _ ← takeAll ⟨[.help], none⟩ {} false args
    return .init
  | "serve" =>
    let _ ← takeAll ⟨[.help], none⟩ {} false args
    return .serve
  | _ => .error .unknownCommand

/-- What comes of asking for help on commands. -/
def helpOn : List String → UsageError
  | [] => .help
  | [name] => if name == "help" || commandNames.contains name then .help else .unknownCommand
  | _ => .unknownCommand

/-- The command that arguments give; none if there are no arguments. -/
def parse : List String → Except UsageError (Option Command)
  | [] => .ok none
  | arg :: args =>
    let shape : Shape := ⟨[.help, .version], none⟩
    let isCommand (name : String) : Bool := name == "help" || commandNames.contains name
    if arg == "help" then .error (helpOn args)
    else if commandNames.contains arg then (parseCommand arg args).map some
    else
      match arg.toList with
      | ['-', '-'] =>
        match args with
        | [] => .ok none
        | name :: _ => .error (if isCommand name then .unknownArgument else .unknownCommand)
      | '-' :: '-' :: text => (longArgument shape {} text).map fun _ => none
      | '-' :: c :: text => (shortArgument shape {} (c :: text)).map fun _ => none
      | _ => .error .unknownCommand

/-- The name and the version of the program. -/
def versionText : String := "ifdef 0.1.0\n"

/-- How the program is used. -/
def usage : String :=
  "Conditional compilation for JavaScript and TypeScript via #if directives in comments\n\n"
    ++ "Usage: ifdef [COMMAND]\n\n"
    ++ "Commands:\n"
    ++ "  check   Report the line ranges every file would lose\n"
    ++ "  build   Preprocess all source files into the output directory\n"
    ++ "  print   Preprocess one file and print the result\n"
    ++ "  init    Initialize a new .ifdefrc.json configuration file\n"
    ++ "  serve   Start MCP server for AI coding agents\n"
    ++ "  help    Print this message\n\n"
    ++ "Options of check, build and print:\n"
    ++ "  -D, --define <NAME[=VALUE]>      Define a symbol\n"
    ++ "      --enable <NAME>              Enable a custom directive\n"
    ++ "      --disable <NAME>             Disable a custom directive\n"
    ++ "      --source-root <SOURCE_ROOT>  Project root directory\n"
    ++ "  -v, --verbose                    Enable verbose output\n\n"
    ++ "Options of build:\n"
    ++ "      --apply                      Actually write files\n"
    ++ "      --out-dir <OUT_DIR>          Output directory\n"

end CommandLine

end Prune
