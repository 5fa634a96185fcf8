import Prune.Session

/-!
# The program

Takes down the file tree around the working directory and around the root that the arguments name,
runs the program on it (`runProgram`), prints what it printed and writes back what it changed. Of
the files only those that the command reads are taken down with their content.
-/

namespace Prune

/-- The absolute path of a place. -/
def Place.path (place : Place) : String :=
  "/" ++ String.intercalate "/" place

/-- The place of an absolute path. -/
def Place.ofPath (path : String) : Place :=
  (FileTree.piecesOf path).filter (· != "")

/-- The content of a file, if it can be read. -/
def readBytes (path : String) : IO ByteArray := do
  try IO.FS.readBinFile path catch _ => return .empty

/-- The entries below a directory. Only configuration files have their content. -/
partial def entriesBelow (place : Place) : IO (List (Place × Entry)) := do
  let found ← try (← IO.FS.realPath place.path).readDir catch _ => pure #[]
  let mut entries := []
  for e in found do
    let here := place ++ [e.fileName]
    let kind ← try pure (← e.path.symlinkMetadata).type catch _ => pure .other
    match kind with
    | .dir => entries := (here, .directory) :: (← entriesBelow here) ++ entries
    | .file =>
      let content ← if e.fileName == Config.fileName then readBytes here.path else pure .empty
      entries := (here, .file content) :: entries
    | .symlink =>
      let target ← try pure (← IO.FS.realPath here.path).toString catch _ => pure ""
      entries := (here, .link target) :: entries
    | .other => pure ()
  return entries

/-- The directories on the way to a place, with what the search for a configuration file finds in
them. -/
def entriesAbove (place : Place) : IO (List (Place × Entry)) := do
  let mut entries := []
  for n in List.range place.length do
    let above : Place := place.take n
    entries := (above ++ (place.drop n).take 1, .directory) :: entries
    for name in [Config.fileName, ".git"] do
      let here : Place := above ++ [name]
      if ← (← IO.FS.realPath above.path).join name |>.pathExists then
        entries := (here, .file (← readBytes here.path)) :: entries
  return entries

/-- The root that a command names. -/
def Command.root? : Command → Option String
  | .check settings | .build settings _ _ | .print settings _ => settings.sourceRoot
  | .init | .serve => none

/-- The file tree that a command is about. -/
def takeDown (command : Option Command) : IO FileTree := do
  let home := Place.ofPath (← IO.currentDir).toString
  let root ← match command.bind Command.root? with
    | none => pure home
    | some path => try pure (Place.ofPath (← IO.FS.realPath path).toString) catch _ => pure home
  let around (place : Place) : IO (List (Place × Entry)) :=
    return (← entriesAbove place) ++ (← entriesBelow place)
  let others ← if home.isPrefixOf root then pure [] else around root
  let tree : FileTree := ⟨others ++ (← around home), home⟩
  match command with
  | none => return tree
  | some command =>
    match command.files.run { tree := tree } with
    | .error _ _ => return tree
    | .ok files _ =>
      files.foldlM (fun tree file => do
        match tree.find true file with
        | .ok (place, .file _) => return tree.put place (.file (← readBytes file))
        | _ => return tree) tree

/-- Writes back what changed in a file tree. -/
def writeBack (before after : FileTree) : IO Unit := do
  for (place, entry) in after.entries do
    if !(before.entryAt? place).any entry.same then
      match entry with
      | .directory => IO.FS.createDirAll place.path
      | .file content => IO.FS.writeBinFile place.path content
      | .link _ => pure ()

end Prune

open Prune in
/-- Runs the program. -/
def main (args : List String) : IO UInt32 := do
  let tree ← takeDown (CommandLine.parse args).toOption.join
  let stdout ← IO.getStdout
  let colored := (← stdout.isTty) && (← IO.getEnv "NO_COLOR").isNone
  let (world, code) := runProgram args { tree := tree, palette := ⟨colored⟩ }
  writeBack tree world.tree
  stdout.putStr world.out
  (← IO.getStderr).putStr world.err
  return code.toUInt32
