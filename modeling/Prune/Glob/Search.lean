import Prune.FileTree
import Prune.Glob.Pattern

/-!
# Paths that a pattern stands for

`Glob.search` gives the paths in a file tree that a pattern stands for, directory by directory and
sorted by name in each. A pattern is taken apart at its slashes; a part without wildcards is looked
up, and for any other part the names in a directory are compared with it. Two stars stand for
directories at any depth, links to directories included, and at the end of a pattern for these
directories themselves. A pattern that ends in a slash stands for directories alone.
-/

namespace Prune.Glob

/-- The text that a part of a pattern spells out, if it holds no wildcards. -/
def literal? : List Token → Option (List Char)
  | [] => some []
  | .char c :: ts => (literal? ts).map (c :: ·)
  | _ :: _ => none

/-- Whether a part of a pattern stands for any number of parts of a path. -/
def isDeep (part : List Token) : Bool :=
  part == [.parts]

/-- The path of a name in a directory; the working directory itself is not spelled out. -/
def childPath (directory name : String) : String :=
  if Path.parts directory == [.current] then name else Path.join directory name

/-- The special names that a part of a pattern stands for if it starts with a point. -/
def specialNames (part : List Token) : List String :=
  if part.head? == some (.char '.') then
    ["..", "."].filter fun name => accepts part name.toList
  else []

/-- The paths from a directory on that the parts of a pattern stand for, at most `fuel` directories
deep. -/
def searchFrom (t : FileTree) (directoriesOnly : Bool) :
    Nat → List (List Token) → String → List String
  | 0, _, _ => []
  | _, [], _ => []
  | fuel + 1, part :: parts, path =>
    let onward (parts : List (List Token)) (next : String) : List String :=
      if !parts.isEmpty then searchFrom t directoriesOnly fuel parts next
      else if directoriesOnly && !t.isDirectory next then []
      else [next]
    let plain (parts : List (List Token)) (name : String) : List String :=
      match parts with
      | [] => []
      | part :: parts =>
        if accepts part name.toList then onward parts (childPath path name) else []
    match literal? part with
    | some chars =>
      let name := String.ofList chars
      let next := childPath path name
      let isThere :=
        if name == "." || name == ".." then t.isDirectory path else t.isNamed next
      if isThere then onward parts next else []
    | none =>
      if !t.isDirectory path then []
      else
        let special := (specialNames part).flatMap fun name => onward parts (Path.join path name)
        special ++ (t.names path).flatMap fun name =>
          if isDeep part then
            let child := childPath path name
            let parts := parts.dropWhile isDeep
            let isDirectory := t.isDirectory child
            (if !parts.isEmpty then plain parts name else if isDirectory then [child] else [])
              ++ (if isDirectory then searchFrom t directoriesOnly fuel (part :: parts) child
                else [])
          else plain (part :: parts) name

/-- The parts of a pattern, each as a pattern of its own. -/
def partPatterns (pattern : List Char) : Except Fault (List (List Token)) :=
  let pieces := Path.splitChars (· == '/') pattern
  let pieces := if pieces.getLast? == some [] then pieces.dropLast else pieces
  pieces.mapM fun piece => parse (String.ofList piece)

/-- The number of directories that bounds a search: along a path one goes deeper in the tree or
through a link. -/
def maxDepth (t : FileTree) (parts : List (List Token)) : Nat :=
  parts.length + (FileTree.maxLinks + 2) * (t.entries.length + 2)

/-- The paths in a file tree that a pattern stands for. -/
def search (t : FileTree) (pattern : String) : Except Fault (List String) := do
  let _ ← parse pattern
  let chars := pattern.toList
  let (start, chars) := if Path.isAbsolute pattern then ("/", chars.tail) else (".", chars)
  let parts ← partPatterns chars
  return searchFrom t (chars.getLast? == some '/') (maxDepth t parts) parts start

end Prune.Glob
