import Prune.Glob.Search

/-!
# Scanning for source files

`scan` gives the source files below a directory: those that the includes reach, with one of the
given extensions, and without those that the ignores name. An include names a directory, a file or a
pattern; no includes at all mean the directory itself. An ignore that is no pattern names a path
together with all below it, and one that is a pattern is compared with paths as they are spelled.
-/

namespace Prune

/-- What was passed over by a scan. -/
inductive ScanWarning where
  | ignorePattern (pattern : String) (fault : Glob.Fault)
  | includePattern (pattern : String) (fault : Glob.Fault)
  | includeMissing (path : String)
  | inaccessible (path : String) (fault : FileTree.Fault)
deriving Repr, Inhabited

/-- What a warning says. -/
def ScanWarning.message : ScanWarning → String
  | .ignorePattern pattern fault =>
    "Invalid ignore pattern '" ++ pattern ++ "': " ++ fault.message
  | .includePattern pattern fault =>
    "Invalid glob pattern '" ++ pattern ++ "': " ++ fault.message
  | .includeMissing path => "Include path does not exist: " ++ path
  | .inaccessible path fault =>
    "Cannot access path: IO error for operation on " ++ path ++ ": " ++ fault.message

/-- What a scan looks for. -/
structure ScanRequest where
  base : String
  includes : List String
  ignores : List String
  extensions : List String
deriving Repr, Inhabited

/-- What a scan found. -/
structure Scan where
  /-- The paths of the source files, sorted and without repetitions. -/
  files : List String
  /-- The number of paths that could not be looked into. -/
  skipped : Nat
  warnings : List ScanWarning
deriving Inhabited

/-- Texts sorted, each of them once. -/
def sortedSet (texts : List String) : List String :=
  (sortBy (fun a b => !(b < a)) texts).eraseReps

namespace ScanRequest

/-- The paths that are ignored together with all below them. -/
def ignoredPaths (r : ScanRequest) : List String :=
  (r.ignores.filter fun p => !Glob.isPattern p).map (Path.join r.base)

/-- The patterns among the ignores. -/
def ignorePatterns (r : ScanRequest) : List (String × Except Glob.Fault (List Glob.Token)) :=
  (r.ignores.filter Glob.isPattern).map fun p => (p, Glob.parse p)

/-- Whether a path is ignored. -/
def ignoresPath (r : ScanRequest) (path : String) : Bool :=
  r.ignoredPaths.any (Path.isUnder path)
    || r.ignorePatterns.any fun (_, parsed) =>
      match parsed with
      | .ok tokens => Glob.accepts tokens path.toList
      | .error _ => false

/-- Whether a path has one of the extensions that are looked for. -/
def hasExtension (r : ScanRequest) (path : String) : Bool :=
  (Path.extension? path).any r.extensions.contains

/-- The paths that an include starts from. -/
def rootsOf (r : ScanRequest) (t : FileTree) (entry : String) : List String × List ScanWarning :=
  let path := Path.join r.base entry
  if Glob.isPattern entry then
    match Glob.search t path with
    | .ok paths => (paths, [])
    | .error fault => ([], [.includePattern entry fault])
  else if t.isPresent path then ([path], [])
  else ([], [.includeMissing path])

/-- The paths that a scan starts from. -/
def roots (r : ScanRequest) (t : FileTree) : List String × List ScanWarning :=
  if r.includes.isEmpty then ([r.base], [])
  else
    let found := r.includes.map (r.rootsOf t)
    (found.flatMap (·.1), found.flatMap (·.2))

/-- Whether a scan takes in a path that it comes by. -/
def takes (r : ScanRequest) (t : FileTree) (path : String) : Bool :=
  !r.ignoresPath path && t.isFile path && r.hasExtension path

end ScanRequest

/-- The source files of a file tree. -/
def scan (t : FileTree) (r : ScanRequest) : Scan :=
  let broken := r.ignorePatterns.filterMap fun (pattern, parsed) =>
    match parsed with
    | .ok _ => none
    | .error fault => some (ScanWarning.ignorePattern pattern fault)
  let (roots, missing) := r.roots t
  let walked := roots.map fun root => (root, t.walk root)
  let inaccessible := walked.filterMap fun (root, found) =>
    match found with
    | .ok _ => none
    | .error fault => some (ScanWarning.inaccessible root fault)
  let paths := walked.flatMap fun (_, found) =>
    match found with
    | .ok paths => paths
    | .error _ => []
  { files := sortedSet (paths.filter (r.takes t)),
    skipped := inaccessible.length,
    warnings := broken ++ missing ++ inaccessible }

end Prune
