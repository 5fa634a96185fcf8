import Prune.Path
import Prune.Sort

/-!
# File trees

A file tree (`FileTree`) gives the files, directories and symbolic links at places below a root, and
the working directory that relative paths start from. A path is located by going down its pieces one
by one (`FileTree.locate`): links are replaced by what they lead to, at most `maxLinks` of them. On
this rest the questions about a path (`isFile`, `isDirectory`, `isPresent`), the reading of files
(`readText`), the paths below a directory (`walk`) and the changes (`makeDirectories`, `write`).
-/

namespace Prune

/-- The names on the way from the root of a file tree to a place in it. -/
abbrev Place := List String

/-- What stands at a place. -/
inductive Entry where
  | file (content : ByteArray)
  | directory
  | link (target : String)
deriving Inhabited

/-- Whether two entries are of one kind and hold the same. -/
def Entry.same : Entry → Entry → Bool
  | .file a, .file b => a.data == b.data
  | .directory, .directory => true
  | .link a, .link b => a == b
  | _, _ => false

/-- The entries of a file tree below its root, each at a place of its own. -/
structure FileTree where
  entries : List (Place × Entry)
  workingDirectory : Place
deriving Inhabited

namespace FileTree

/-- Why a path cannot be used. -/
inductive Fault where
  | missing
  | exists
  | notDirectory
  | isDirectory
  | links
  | notText
  | zeroCharacter
deriving DecidableEq, Repr, Inhabited

/-- What a fault is called. -/
def Fault.message : Fault → String
  | .missing => "No such file or directory (os error 2)"
  | .exists => "File exists (os error 17)"
  | .notDirectory => "Not a directory (os error 20)"
  | .isDirectory => "Is a directory (os error 21)"
  | .links => "Too many levels of symbolic links (os error 40)"
  | .notText => "stream did not contain valid UTF-8"
  | .zeroCharacter => "file name contained an unexpected NUL byte"

/-- What stands at a place. -/
def entryAt? (t : FileTree) (place : Place) : Option Entry :=
  if place.isEmpty then some .directory
  else (t.entries.find? fun e => e.1 == place).map (·.2)

/-- Puts an entry at a place of a list of entries. -/
def putEntry (place : Place) (entry : Entry) : List (Place × Entry) → List (Place × Entry)
  | [] => [(place, entry)]
  | e :: rest =>
    if e.1 == place then (place, entry) :: rest else e :: putEntry place entry rest

/-- Puts an entry at a place. -/
def put (t : FileTree) (place : Place) (entry : Entry) : FileTree :=
  { t with entries := putEntry place entry t.entries }

/-! ## Locating paths -/

/-- Where a path leads. -/
inductive Target where
  | entry (place : Place) (entry : Entry)
  /-- Nothing stands at the place, but what it lies in is a directory. With `asDirectory` set the
  path ends in a slash. -/
  | vacant (place : Place) (asDirectory : Bool)
deriving Inhabited

/-- The number of links that a path may lead through. -/
def maxLinks : Nat := 40

/-- The pieces of a path. -/
def piecesOf (path : String) : List String :=
  (Path.splitChars (· == '/') path.toList).map String.ofList

/-- Where the pieces of a path lead from a directory, `follow` being the way on where a link is
replaced by the pieces of its target. A link that ends the path stays if `followLast` is not
set. -/
def descend (t : FileTree) (followLast : Bool)
    (follow : Place → List String → Except Fault Target) :
    Place → List String → Except Fault Target
  | place, [] => .ok (.entry place .directory)
  | place, piece :: rest =>
    if piece == "" || piece == "." then descend t followLast follow place rest
    else if piece == ".." then descend t followLast follow place.dropLast rest
    else
      let next := place ++ [piece]
      match t.entryAt? next with
      | none =>
        if rest.all (· == "") then .ok (.vacant next !rest.isEmpty) else .error .missing
      | some .directory => descend t followLast follow next rest
      | some (.file content) =>
        if rest.isEmpty then .ok (.entry next (.file content)) else .error .notDirectory
      | some (.link target) =>
        if rest.isEmpty && !followLast then .ok (.entry next (.link target))
        else if target.isEmpty then .error .missing
        else follow (if Path.isAbsolute target then [] else place) (piecesOf target ++ rest)

/-- Where the pieces of a path lead from a directory through less than the given number of links. -/
def locateFrom (t : FileTree) (followLast : Bool) :
    Nat → Place → List String → Except Fault Target
  | 0, _, _ => .error .links
  | links + 1, place, pieces => descend t followLast (locateFrom t followLast links) place pieces

/-- Where a path leads. -/
def locate (t : FileTree) (followLast : Bool) (path : String) : Except Fault Target :=
  if path.isEmpty then .error .missing
  else if path.toList.any (·.toNat == 0) then .error .zeroCharacter
  else
    locateFrom t followLast (maxLinks + 1)
      (if Path.isAbsolute path then [] else t.workingDirectory) (piecesOf path)

/-- The place and the entry that a path leads to. -/
def find (t : FileTree) (followLast : Bool) (path : String) : Except Fault (Place × Entry) :=
  match t.locate followLast path with
  | .error fault => .error fault
  | .ok (.vacant _ _) => .error .missing
  | .ok (.entry place entry) => .ok (place, entry)

/-- Whether a path leads to something. -/
def isPresent (t : FileTree) (path : String) : Bool :=
  (t.find true path).isOk

/-- Whether a path leads to something, a link that leads nowhere included. -/
def isNamed (t : FileTree) (path : String) : Bool :=
  (t.find false path).isOk

/-- Whether a path leads to a directory. -/
def isDirectory (t : FileTree) (path : String) : Bool :=
  match t.find true path with
  | .ok (_, .directory) => true
  | _ => false

/-- Whether a path leads to a file. -/
def isFile (t : FileTree) (path : String) : Bool :=
  match t.find true path with
  | .ok (_, .file _) => true
  | _ => false

/-! ## Reading -/

/-- The text of the file that a path leads to. -/
def readText (t : FileTree) (path : String) : Except Fault String :=
  match t.find true path with
  | .error fault => .error fault
  | .ok (_, .file content) =>
    match String.fromUTF8? content with
    | some text => .ok text
    | none => .error .notText
  | .ok _ => .error .isDirectory

/-- The names in the directory at a place, sorted. -/
def namesAt (t : FileTree) (place : Place) : List String :=
  let names := t.entries.filterMap fun e =>
    match e.1.reverse with
    | name :: above => if above.reverse == place then some name else none
    | [] => none
  sortBy (fun a b => !(b < a)) names

/-- The names in the directory that a path leads to, sorted. -/
def names (t : FileTree) (path : String) : List String :=
  match t.find true path with
  | .ok (place, .directory) => t.namesAt place
  | _ => []

/-- The ways from a place down to those below it. -/
def below (t : FileTree) (place : Place) : List (List String) :=
  t.entries.filterMap fun e =>
    if place.isPrefixOf e.1 && place.length < e.1.length then some (e.1.drop place.length) else none

/-- A path and all paths below it. Links are not followed, except the one that the path itself may
be. -/
def walk (t : FileTree) (path : String) : Except Fault (List String) :=
  let spelled (place : Place) : List String :=
    path :: (t.below place).map fun way => Path.join path (String.intercalate "/" way)
  match t.find false path with
  | .error fault => .error fault
  | .ok (place, .directory) => .ok (spelled place)
  | .ok (_, .file _) => .ok [path]
  | .ok (_, .link _) =>
    match t.find true path with
    | .error fault => .error fault
    | .ok (place, .directory) => .ok (spelled place)
    | .ok _ => .ok [path]

/-! ## Changes -/

/-- Makes a directory in one that is there. -/
def makeDirectory (t : FileTree) (path : String) : Except Fault FileTree :=
  match t.locate false path with
  | .error fault => .error fault
  | .ok (.entry _ _) => .error .exists
  | .ok (.vacant place _) => .ok (t.put place .directory)

/-- Makes a directory unless it is there, with those above it, which are given with it, the nearest
first. What was made stays even if not all can be. -/
def makeMissing (t : FileTree) : List String → FileTree × Option Fault
  | [] => (t, none)
  | path :: above =>
    let settle (t : FileTree) : FileTree × Option Fault :=
      match t.makeDirectory path with
      | .ok made => (made, none)
      | .error fault => (t, if t.isDirectory path then none else some fault)
    if path.isEmpty then (t, none)
    else
      match t.makeDirectory path with
      | .error .missing =>
        match makeMissing t above with
        | (made, none) => settle made
        | failed => failed
      | _ => settle t

/-- Makes a directory unless it is there, with those above it. -/
def makeDirectories (t : FileTree) (path : String) : FileTree × Option Fault :=
  t.makeMissing (Path.ancestors path)

/-- Writes a file. -/
def write (t : FileTree) (path text : String) : Except Fault FileTree :=
  match t.locate true path with
  | .error fault => .error fault
  | .ok (.entry place (.file _)) => .ok (t.put place (.file text.toUTF8))
  | .ok (.entry _ _) => .error .isDirectory
  | .ok (.vacant place asDirectory) =>
    if asDirectory then .error .isDirectory else .ok (t.put place (.file text.toUTF8))

end FileTree

end Prune
