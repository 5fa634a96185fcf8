import Prune.Condition.Basic
import Prune.Directive
import Prune.Glob.Pattern
import Prune.Json.Printer

/-!
# Configurations

The configuration of a project (`Config`): the symbols and the switches, which files are source
files, and where the output goes. The fields that a configuration file does not give have the values
of `Config.default`. A configuration may be read and still be of no use (`Config.fault?`).
-/

namespace Prune

/-- The configuration of a project. -/
structure Config where
  /-- The values that conditions see. -/
  symbols : Condition.Symbols := []
  /-- The switches, sorted by name. -/
  switches : Switches := []
  /-- The directories, files and patterns that are scanned. -/
  includes : List String := ["src"]
  /-- The paths and patterns that are not scanned. -/
  ignores : List String := []
  /-- The extensions of source files. -/
  extensions : List String := ["js", "jsx", "mjs", "cjs", "ts", "tsx", "mts", "cts"]
  /-- The directory that the output is written to. -/
  outDir : String := "./dist"
  /-- The directory that all other paths start from. -/
  sourceRoot : String := "./"
deriving Inhabited

namespace Config

/-- The configuration of a project without a configuration file. -/
def default : Config := {}

/-- Why a configuration is of no use. -/
inductive Fault where
  | ignorePattern (pattern : String) (fault : Glob.Fault)
  | includePattern (pattern : String) (fault : Glob.Fault)
  | extension (text : String)
deriving DecidableEq, Repr, Inhabited

/-- What a fault is called, without its cause. -/
def Fault.headline : Fault → String
  | .ignorePattern pattern _ => "Invalid glob pattern in 'ignores': \"" ++ pattern ++ "\""
  | .includePattern pattern _ => "Invalid glob pattern in 'includes': \"" ++ pattern ++ "\""
  | .extension text =>
    "Invalid entry in 'extensions': \"" ++ text ++ "\" (use e.g. \"js\", without the dot)"

/-- What a fault is called, with its cause. -/
def Fault.message (f : Fault) : String :=
  match f with
  | .ignorePattern _ fault | .includePattern _ fault => f.headline ++ ": " ++ fault.message
  | .extension _ => f.headline

/-- The fault of a pattern. -/
def patternFault? (pattern : String) : Option Glob.Fault :=
  match Glob.parse pattern with
  | .ok _ => none
  | .error fault => some fault

/-- The first fault of a configuration: ignores come before includes, and these before
extensions. An include without wildcards is a path and cannot be wrong. -/
def fault? (c : Config) : Option Fault :=
  (c.ignores.findSome? fun p => (patternFault? p).map (.ignorePattern p))
    <|> ((c.includes.filter Glob.isPattern).findSome? fun p =>
      (patternFault? p).map (.includePattern p))
    <|> (c.extensions.find? fun e => e.isEmpty || e.toList.head? == some '.').map .extension

/-- A configuration as a JSON value. -/
def toJson (c : Config) : Json :=
  let texts (items : List String) : Json := .array (items.map .string)
  .object [("symbols", .object c.symbols),
    ("directives", .object (c.switches.map fun (name, flag) => (name, .bool flag))),
    ("includes", texts c.includes), ("ignores", texts c.ignores),
    ("extensions", texts c.extensions), ("outDir", .string c.outDir),
    ("sourceRoot", .string c.sourceRoot)]

/-- The text of the configuration file that a new project starts with. -/
def defaultText : String :=
  default.toJson.pretty

end Config

end Prune
