import Prune.Config.Reader
import Prune.FileTree
import Prune.Text.Quoted

/-!
# Configuration files

The configuration file of a directory is the one in it or in the nearest directory above it; a
directory with a repository in it ends the search (`Config.find?`). `Config.load` reads it.
-/

namespace Prune.Config

/-- The name of configuration files. -/
def fileName : String := ".ifdefrc.json"

/-- The first configuration file in directories, of which one with a repository is the last that
counts. -/
def findAmong? (t : FileTree) : List String → Option String
  | [] => none
  | directory :: others =>
    let path := Path.join directory fileName
    if t.isPresent path then some path
    else if t.isPresent (Path.join directory ".git") then none
    else findAmong? t others

/-- The configuration file of a directory. -/
def find? (t : FileTree) (directory : String) : Option String :=
  findAmong? t (Path.ancestors directory)

/-- Why a configuration cannot be loaded. -/
inductive LoadError where
  | unreadable (path : String) (fault : FileTree.Fault)
  | unparsable (path : String)
  | invalid (fault : Fault)
deriving Repr, Inhabited

/-- What an error is called, without its cause. -/
def LoadError.headline : LoadError → String
  | .unreadable path _ => "Failed to read config file: " ++ Text.quote path
  | .unparsable path => "Failed to parse config file: " ++ Text.quote path
  | .invalid fault => fault.headline

/-- What an error is called, with its cause. -/
def LoadError.message (e : LoadError) : String :=
  match e with
  | .unreadable _ fault => e.headline ++ ": " ++ fault.message
  | .unparsable _ => e.headline
  | .invalid fault => fault.message

/-- A configuration, and whether a file gave it. -/
structure Loaded where
  config : Config
  fromFile : Bool
deriving Inhabited

/-- The configuration of a directory. -/
def load (t : FileTree) (directory : String) : Except LoadError Loaded :=
  match find? t directory with
  | none => .ok ⟨default, false⟩
  | some path =>
    match t.readText path with
    | .error fault => .error (.unreadable path fault)
    | .ok text =>
      match read text with
      | .error _ => .error (.unparsable path)
      | .ok config =>
        match config.fault? with
        | some fault => .error (.invalid fault)
        | none => .ok ⟨config, true⟩

end Prune.Config
