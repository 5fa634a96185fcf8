import Prune.Config.Load
import Prune.Define
import Prune.Process
import Prune.Scan

/-!
# Projects

A project is a configuration together with the directory that its paths start from (`Project`).
What is given on the command line (`Settings`) comes before what the configuration file says
(`Project.ofConfig`). The source files of a project (`Project.scan`) are processed one by one
(`Project.processFile`); the output goes to `Project.outDir`, where a file has the same path as
below the root (`Project.relativePath`).
-/

namespace Prune

/-- What the user says about a project besides its configuration file. -/
structure Settings where
  defines : List String := []
  enables : List String := []
  disables : List String := []
  sourceRoot : Option String := none
  verbose : Bool := false
deriving DecidableEq, Repr, Inhabited

/-- The directory from which the configuration file is looked for. -/
def Settings.searchDirectory (s : Settings) : String :=
  s.sourceRoot.getD "."

/-- A project. -/
structure Project where
  config : Config
  /-- The directory that the paths of the configuration start from. -/
  root : String
deriving Inhabited

/-- Why a file was not processed. -/
inductive FileError where
  | unreadable (path : String) (fault : FileTree.Fault)
  | unparsable (path : String)
  /-- The program crashed on the file. -/
  | crash (path : String)
deriving DecidableEq, Repr, Inhabited

/-- What an error is called. -/
def FileError.message : FileError → String
  | .unreadable path fault => "Failed to read file: " ++ path ++ ": " ++ fault.message
  | .unparsable path => "Failed to parse " ++ path
  | .crash path => "Cut inside a character of " ++ path

/-- The error that a mishap with a file is. -/
def FileError.ofMishap (path : String) : Mishap → FileError
  | .unparsable => .unparsable path
  | .crash => .crash path

/-- What became of the files of a project. -/
structure ProjectRun where
  processed : List (String × Processed)
  failures : List (String × FileError)
deriving Inhabited

/-- The files that change, with what became of them. -/
def ProjectRun.changed (r : ProjectRun) : List (String × Processed) :=
  r.processed.filter fun p => p.2.output.changed

/-- The first file that the program crashed on. -/
def ProjectRun.crash? (r : ProjectRun) : Option String :=
  r.failures.findSome? fun f =>
    match f.2 with
    | .crash path => some path
    | _ => none

/-- The number of files that were looked at. -/
def ProjectRun.fileCount (r : ProjectRun) : Nat :=
  r.processed.length + r.failures.length

namespace Project

/-- Symbols with further definitions, of which the last one of a name counts. -/
def define (symbols : Condition.Symbols) (texts : List String) :
    Except Define.Error Condition.Symbols :=
  texts.foldlM (fun symbols text => do
    let (name, value) ← Define.parse text
    return symbols.put name value) symbols

/-- Switches with the given ones turned on or off. -/
def turn (switches : Switches) (names : List String) (flag : Bool) : Switches :=
  names.foldl (fun switches name => switches.putSorted (Text.lower name) flag) switches

/-- The project that a configuration and the settings give. -/
def ofConfig (config : Config) (settings : Settings) : Except Define.Error Project := do
  let symbols ← define config.symbols settings.defines
  let switches := turn (turn config.switches settings.enables true) settings.disables false
  return {
    config := { config with symbols := symbols, switches := switches },
    root := settings.sourceRoot.getD config.sourceRoot }

/-- What decides which branches stay in the files of a project. -/
def options (p : Project) : Options :=
  { symbols := p.config.symbols, switches := p.config.switches }

/-- A path of the configuration, starting from the root of the project. Where the root is the
working directory the path stays as it is written. -/
def pathOf (p : Project) (path : String) : String :=
  if Path.isAbsolute path || (Path.parts p.root).all (· == .current) then path
  else Path.join p.root ((Path.rest? path ".").getD path)

/-- The directory that the output goes to. -/
def outDir (p : Project) : String :=
  p.pathOf p.config.outDir

/-- The path of a file as seen from the root of the project. -/
def relativePath (p : Project) (path : String) : String :=
  Path.ofParts ((Path.parts ((Path.rest? path p.root).getD path)).filter (· != .current))

/-- What is scanned for the files of a project: all but the output. -/
def scanRequest (p : Project) : ScanRequest :=
  let output := if Path.isAbsolute p.config.outDir then [] else [p.config.outDir]
  { base := p.root, includes := p.config.includes, ignores := p.config.ignores ++ output,
    extensions := p.config.extensions }

/-- The source files of a project. -/
def scan (p : Project) (t : FileTree) : Scan :=
  Prune.scan t p.scanRequest

/-- Processes a file. -/
def processFile (p : Project) (t : FileTree) (path : String) : Except FileError Processed :=
  match t.readText path with
  | .error fault => .error (.unreadable path fault)
  | .ok text => (tryProcess text path p.options).mapError (.ofMishap path)

/-- Processes the given files. -/
def processFiles (p : Project) (t : FileTree) (paths : List String) : ProjectRun :=
  let results := paths.map fun path => (path, p.processFile t path)
  { processed := results.filterMap fun (path, result) => result.toOption.map (path, ·),
    failures := results.filterMap fun (path, result) =>
      match result with
      | .ok _ => none
      | .error e => some (path, e) }

/-- The path that the output for a file is written to. -/
def outputPath (p : Project) (path : String) : String :=
  Path.join p.outDir (p.relativePath path)

end Project

end Prune
