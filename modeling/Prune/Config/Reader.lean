import Prune.Config.Basic
import Prune.Json.Reader

/-!
# Reading configurations

`Config.read` reads the text of a configuration file: an object with a member for each field that is
given, or an array of the fields in their order. Members of other names are passed over. The first
fault in the order of the text decides what is wrong.
-/

namespace Prune.Config

open Json

/-- The fields of a configuration. -/
inductive Field where
  | symbols
  | directives
  | includes
  | ignores
  | extensions
  | outDir
  | sourceRoot
deriving DecidableEq, Repr, Inhabited

/-- The fields in their order. -/
def Field.all : List Field :=
  [.symbols, .directives, .includes, .ignores, .extensions, .outDir, .sourceRoot]

/-- The name of a field. -/
def Field.name : Field → String
  | .symbols => "symbols"
  | .directives => "directives"
  | .includes => "includes"
  | .ignores => "ignores"
  | .extensions => "extensions"
  | .outDir => "outDir"
  | .sourceRoot => "sourceRoot"

/-- The field with a given name. -/
def Field.ofName? (name : String) : Option Field :=
  Field.all.find? fun field => field.name == name

/-- Reads the value of a field into a configuration. -/
def Field.read (c : Config) : Field → Reader Config
  | .symbols =>
    return { c with symbols := ← Reader.object Table.put (Reader.value (Reader.maxDepth - 2)) }
  | .directives => return { c with switches := ← Reader.object Table.putSorted Reader.bool }
  | .includes => return { c with includes := ← Reader.array Reader.string }
  | .ignores => return { c with ignores := ← Reader.array Reader.string }
  | .extensions => return { c with extensions := ← Reader.array Reader.string }
  | .outDir => return { c with outDir := ← Reader.string }
  | .sourceRoot => return { c with sourceRoot := ← Reader.string }

/-- Reads a member into a configuration, the fields that were given being known. -/
def readMember (s : Config × List Field) (name : String) : Reader (Config × List Field) := do
  match Field.ofName? name with
  | none =>
    Reader.colon
    Reader.skip (← Reader.remaining)
    return s
  | some field =>
    if s.2.contains field then Reader.fail .mismatch
    else
      Reader.colon
      return (← field.read s.1, field :: s.2)

/-- Reads the fields of a configuration behind an opening bracket; `first` says whether none was
read so far. -/
def readItems (first : Bool) (c : Config) : List Field → Reader Config
  | [] => close c
  | field :: fields => do
    match ← Reader.peek with
    | some ']' => close c
    | some ',' =>
      if first then Reader.fail .malformed
      else
        Reader.advance
        match ← Reader.peek with
        | some ']' => Reader.fail .malformed
        | _ => readItems false (← field.read c) fields
    | _ => if first then readItems false (← field.read c) fields else Reader.fail .malformed
where
  /-- Takes the closing bracket. -/
  close (c : Config) : Reader Config := do
    match ← Reader.peek with
    | some ']' => Reader.advance; return c
    | _ => Reader.fail .malformed

/-- Reads a configuration. -/
def reader : Reader Config := do
  match ← Reader.peek with
  | some '[' => Reader.advance; readItems true default Field.all
  | some c =>
    if Reader.isOpenBrace c then
      Reader.advance
      return (← Reader.members readMember (← Reader.remaining) true (default, [])).1
    else Reader.mismatch
  | none => Reader.mismatch

/-- The configuration that a text gives. -/
def read (text : String) : Except Json.Fault Config :=
  reader.run text

end Prune.Config
