import Prune.CommandLine
import Prune.Report

/-!
# Running commands

A command runs in a world (`World`) that has a file tree and takes what is printed. What the
commands do are sessions (`Session`): they change the world, and may end in trouble, in which case
the world stays as it is then. `Command.run` carries out a command, and `runProgram` does what the
program does with its arguments.
-/

namespace Prune

/-- What a command finds and changes. -/
structure World where
  tree : FileTree
  /-- What was printed. -/
  out : String := ""
  /-- What was printed on the channel for messages. -/
  err : String := ""
  palette : Palette := {}
deriving Inhabited

/-- Why a command was given up. -/
inductive Trouble where
  | config (e : Config.LoadError)
  | define (e : Define.Error)
  | makeDirectory (path : String) (fault : FileTree.Fault)
  | writeFile (path : String) (fault : FileTree.Fault)
  | file (fault : FileTree.Fault)
  /-- The program crashed on a file. -/
  | crash (path : String)
  /-- The tools for agents are not served here. -/
  | serve
deriving Repr, Inhabited

/-- What a trouble is called. -/
def Trouble.message : Trouble → String
  | .config e => e.message
  | .define e => e.message
  | .makeDirectory path fault => "Failed to create directory: " ++ path ++ ": " ++ fault.message
  | .writeFile path fault => "Failed to write file: " ++ path ++ ": " ++ fault.message
  | .file fault => fault.message
  | .crash path => (FileError.crash path).message
  | .serve => "Serve command should be handled before run_cli()"

/-- What is printed when a command was given up. -/
def Trouble.report : Trouble → String
  | .crash path => (Trouble.crash path).message ++ "\n"
  | trouble => "Error: " ++ trouble.message ++ "\n"

/-- The code that the program ends with when a command was given up. -/
def Trouble.code : Trouble → Nat
  | .crash _ => 101
  | _ => 2

/-- How a command ended. -/
inductive Status where
  | success
  /-- Some files could not be processed. -/
  | failure
deriving DecidableEq, Repr, Inhabited

/-- The code that a program ends with. -/
def Status.code : Status → Nat
  | .success => 0
  | .failure => 1

/-- The status after a number of failures. -/
def Status.ofFailures (count : Nat) : Status :=
  if count == 0 then .success else .failure

/-- A course of actions in a world. -/
abbrev Session (α : Type) := EStateM Trouble World α

namespace Session

/-- Prints a text. -/
def print (text : String) : Session Unit :=
  modify fun w => { w with out := w.out ++ text }

/-- Prints a text on the channel for messages. -/
def tell (text : String) : Session Unit :=
  modify fun w => { w with err := w.err ++ text }

/-- The file tree. -/
def tree : Session FileTree :=
  return (← get).tree

/-- The palette. -/
def palette : Session Palette :=
  return (← get).palette

/-- The project that the settings name. -/
def openProject (settings : Settings) : Session Project := do
  match Config.load (← tree) settings.searchDirectory with
  | .error e => throw (.config e)
  | .ok loaded =>
    if settings.verbose && !loaded.fromFile then
      tell ("Note: No " ++ Config.fileName ++ " found, using default configuration\n")
    match Project.ofConfig loaded.config settings with
    | .error e => throw (.define e)
    | .ok project => return project

/-- The source files of a project; what was passed over is told. -/
def scan (project : Project) (verbose : Bool) : Session (List String) := do
  let found := project.scan (← tree)
  let palette ← palette
  if verbose then
    tell (String.join (found.warnings.map fun w => Report.warning palette w.message))
  if found.skipped != 0 then
    tell (Report.warning palette (toString found.skipped ++ " path(s) skipped due to access errors"
      ++ if verbose then "" else " (use -v for details)"))
  return found.files

/-- Processes all source files of a project. A crash on one of them is one of the program. -/
def processAll (project : Project) (verbose : Bool) : Session ProjectRun := do
  let files ← scan project verbose
  let run := project.processFiles (← tree) files
  match run.crash? with
  | some path => throw (.crash path)
  | none => return run

/-- Tells which conditions of a file have no value. -/
def tellConditions (path : String) (processed : Processed) : Session Unit := do
  tell (Report.conditionFailures (← palette) path
    (processed.failures.map fun (condition, failure) => (condition, failure.message)))

/-- Tells which files could not be processed. -/
def tellFailures (verbose : Bool) (run : ProjectRun) : Session Unit := do
  tell (Report.failures (← palette) verbose (run.failures.map fun f => f.2.message))

/-- Reports the lines that would be removed. -/
def check (settings : Settings) : Session Status := do
  let project ← openProject settings
  let run ← processAll project settings.verbose
  let palette ← palette
  for (file, processed) in run.processed do
    let path := project.relativePath file
    if settings.verbose then tellConditions path processed
    print (Report.ranges palette path processed)
  tellFailures settings.verbose run
  let ranged := run.processed.filter fun p => !p.2.ranges.isEmpty
  print (Report.checkSummary palette run.fileCount
    (ranged.flatMap fun p => p.2.ranges).length ranged.length)
  return .ofFailures run.failures.length

/-- Writes the output for a file. -/
def writeOutput (project : Project) (file : String) (processed : Processed) : Session Unit := do
  let path := project.outputPath file
  match Path.parent? path with
  | none => pure ()
  | some directory =>
    let (tree, fault) := (← tree).makeDirectories directory
    modify fun w => { w with tree := tree }
    match fault with
    | some fault => throw (.makeDirectory directory fault)
    | none => pure ()
  match (← tree).write path processed.output.code with
  | .error fault => throw (.writeFile path fault)
  | .ok tree => modify fun w => { w with tree := tree }

/-- Processes all source files, and with `apply` set writes the results. -/
def build (settings : Settings) (apply : Bool) (outDir : Option String) : Session Status := do
  let project ← openProject settings
  let config := project.config
  let project := { project with config := { config with outDir := outDir.getD config.outDir } }
  let run ← processAll project settings.verbose
  if settings.verbose then
    for (file, processed) in run.processed do
      tellConditions (project.relativePath file) processed
  let palette ← palette
  if apply then
    for (file, processed) in run.processed do
      writeOutput project file processed
  else
    print (Report.changes palette
      (run.changed.map fun (file, processed) => (project.relativePath file, processed.output)))
  tellFailures settings.verbose run
  print (Report.buildSummary palette run.processed.length run.changed.length project.outDir apply)
  return .ofFailures run.failures.length

/-- Processes a file and prints the result. -/
def printFile (settings : Settings) (file : String) : Session Status := do
  let project ← openProject settings
  match project.processFile (← tree) file with
  | .error (.crash path) => throw (.crash path)
  | .error e =>
    tell (Report.error (← palette) e.message)
    return .failure
  | .ok processed =>
    if settings.verbose then tellConditions file processed
    print processed.output.code
    return .success

/-- Makes a configuration file. -/
def init : Session Status := do
  let tree ← tree
  let palette ← palette
  if tree.isPresent Config.fileName then
    tell (Report.refusal palette (Config.fileName ++ " already exists"))
    return .failure
  else
    match tree.write Config.fileName Config.defaultText with
    | .error fault => throw (.file fault)
    | .ok tree =>
      modify fun w => { w with tree := tree }
      print (Report.success palette ("Created " ++ Config.fileName))
      return .success

end Session

/-- Carries out a command; without one help is printed. -/
def Command.run : Option Command → Session Status
  | none => do
    Session.print CommandLine.usage
    return .success
  | some (.check settings) => Session.check settings
  | some (.build settings apply outDir) => Session.build settings apply outDir
  | some (.print settings file) => Session.printFile settings file
  | some .init => Session.init
  | some .serve => throw .serve

/-- The files that a command reads, besides the configuration file. -/
def Command.files : Command → Session (List String)
  | .check settings | .build settings _ _ => do
    Session.scan (← Session.openProject settings) false
  | .print _ file => return [file]
  | .init | .serve => return []

/-- What the program does with its arguments: the world after it, and the code it ends with. -/
def runProgram (args : List String) (world : World) : World × Nat :=
  match CommandLine.parse args with
  | .error .help => ({ world with out := world.out ++ CommandLine.usage }, 0)
  | .error .version => ({ world with out := world.out ++ CommandLine.versionText }, 0)
  | .error _ => ({ world with err := world.err ++ CommandLine.usage }, 2)
  | .ok command =>
    match (Command.run command).run world with
    | .ok status world => (world, status.code)
    | .error trouble world =>
      ({ world with err := world.err ++ trouble.report }, trouble.code)

end Prune
