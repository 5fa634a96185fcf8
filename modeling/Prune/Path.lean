/-!
# Paths

A path is a text whose parts slashes separate (`Path.parts`). Empty parts do not count, and neither
does a part that is a single point, unless the path starts with it. Two paths are the same when
their parts are.
-/

namespace Prune.Path

/-- A part of a path. -/
inductive Part where
  /-- The slash at the front of a path. -/
  | root
  /-- The directory that a path starts from, written by a single point. -/
  | current
  /-- The directory above, written by two points. -/
  | parent
  | name (text : String)
deriving DecidableEq, Repr, Inhabited

/-- The pieces of a text between characters that pass a test. -/
def splitChars (isSeparator : Char → Bool) : List Char → List (List Char)
  | [] => [[]]
  | c :: cs =>
    match splitChars isSeparator cs with
    | [] => [[c]]
    | piece :: pieces => if isSeparator c then [] :: piece :: pieces else (c :: piece) :: pieces

/-- The part that a piece between slashes is, if it counts. -/
def ofPiece? (piece : List Char) : Option Part :=
  if piece == [] || piece == ['.'] then none
  else if piece == ['.', '.'] then some .parent
  else some (.name (String.ofList piece))

/-- The parts of a path. -/
def parts (path : String) : List Part :=
  let pieces := splitChars (· == '/') path.toList
  let counted := pieces.filterMap ofPiece?
  match path.toList with
  | '/' :: _ => .root :: counted
  | _ => if pieces.head? == some ['.'] then .current :: counted else counted

/-- How a part is written. -/
def Part.text : Part → String
  | .root => "/"
  | .current => "."
  | .parent => ".."
  | .name text => text

/-- The path with given parts. -/
def ofParts : List Part → String
  | .root :: rest => "/" ++ String.intercalate "/" (rest.map Part.text)
  | parts => String.intercalate "/" (parts.map Part.text)

/-- Whether a path starts from the root. -/
def isAbsolute (path : String) : Bool :=
  path.toList.head? == some '/'

/-- A path that starts where another leads. -/
def join (base path : String) : String :=
  if isAbsolute path || base.isEmpty then path
  else if base.toList.getLast? == some '/' then base ++ path
  else base ++ "/" ++ path

/-- The last part of a path, if it is a name. -/
def fileName? (path : String) : Option String :=
  match (parts path).getLast? with
  | some (.name text) => some text
  | _ => none

/-- The part of a file name behind its last point, if there is a point elsewhere than in front. -/
def extensionOf? (name : String) : Option String :=
  let behind := (name.toList.reverse.takeWhile (· != '.')).reverse
  if behind.length + 1 < name.length then some (String.ofList behind) else none

/-- The part of the file name of a path behind its last point. -/
def extension? (path : String) : Option String :=
  (fileName? path).bind extensionOf?

/-! ## Paths above and below

What stands between the parts of a path stays as it is written; only at the ends of a result the
pieces that do not count are left out.
-/

/-- The text of a path with given pieces. -/
def ofPieces (pieces : List (List Char)) : String :=
  String.ofList (List.intercalate ['/'] pieces)

/-- Whether a piece that does not stand in front counts as no part. -/
def isIdle (piece : List Char) : Bool :=
  piece == [] || piece == ['.']

/-- The pieces of a path, last first, without the idle ones at its end. The piece in front stays. -/
def trimIdle : List (List Char) → List (List Char)
  | piece :: next :: rest =>
    if isIdle piece then trimIdle (next :: rest) else piece :: next :: rest
  | pieces => pieces

/-- The path without its last part, if it has a part that is not the root. -/
def parent? (path : String) : Option String :=
  match trimIdle (splitChars (· == '/') path.toList).reverse with
  | [] => none
  | [front] => if front.isEmpty then none else some ""
  | _ :: rest =>
    match trimIdle rest with
    | [[]] => some "/"
    | pieces => some (ofPieces pieces.reverse)

/-- A path and those above it, the nearest first, for at most `fuel` steps. -/
def ancestorsFrom : Nat → String → List String
  | 0, _ => []
  | fuel + 1, path =>
    path :: match parent? path with
      | some above => ancestorsFrom fuel above
      | none => []

/-- A path and those above it, the nearest first. -/
def ancestors (path : String) : List String :=
  ancestorsFrom (path.length + 1) path

/-- What is left of pieces behind the first `n` that count. -/
def dropParts : Nat → List (List Char) → List (List Char)
  | 0, pieces => pieces
  | _, [] => []
  | n + 1, piece :: pieces => if isIdle piece then dropParts (n + 1) pieces else dropParts n pieces

/-- What remains of a path behind the parts of another that it starts with. -/
def rest? (path base : String) : Option String :=
  if (parts base).isPrefixOf (parts path) then
    let pieces := splitChars (· == '/') path.toList
    match parts base with
    | [] => some path
    | part :: others =>
      let behind :=
        match part with
        | .root | .current => dropParts others.length pieces.tail
        | _ => dropParts (others.length + 1) pieces
      let body := behind.dropWhile isIdle
      some (ofPieces (body.reverse.dropWhile isIdle).reverse)
  else none

/-- Whether a path starts with the parts of another. -/
def isUnder (path base : String) : Bool :=
  (parts base).isPrefixOf (parts path)

end Prune.Path
