import Prune.Project

/-!
# Tools for agents

Agents ask for the configuration of a project, for the lines that a source text would lose, for the
text that is left of it, and for the value of a condition (`Agent.call`). Parameters and results are
JSON values. Parameters are given by name or in their order; those that a tool does not know are
passed over, and optional ones may be null.
-/

namespace Prune.Agent

/-- A tool. -/
inductive Tool where
  | getConfig
  | resolveRanges
  | preprocessSource
  | evaluate
deriving DecidableEq, Repr, Inhabited

/-- The name of a tool. -/
def Tool.name : Tool → String
  | .getConfig => "get_config"
  | .resolveRanges => "resolve_ranges"
  | .preprocessSource => "preprocess_source"
  | .evaluate => "evaluate"

/-- The tool with a given name. -/
def Tool.ofName? (name : String) : Option Tool :=
  [Tool.getConfig, .resolveRanges, .preprocessSource, .evaluate].find? fun tool => tool.name == name

/-- The names of the parameters of a tool in their order. -/
def Tool.parameters : Tool → List String
  | .getConfig => ["projectRootPath"]
  | .resolveRanges | .preprocessSource => ["source", "filePath", "symbols", "directives"]
  | .evaluate => ["expression", "symbols"]

/-- Why a tool gives no result. -/
inductive Error where
  /-- The parameters do not fit the tool. -/
  | parameters
  | config (e : Config.LoadError)
  | unparsable (path : String)
  /-- The tool crashes and does not answer. -/
  | crash (path : String)
deriving Repr, Inhabited

/-- The code of an error. -/
def Error.code : Error → Int
  | .parameters | .unparsable _ => -32602
  | .config _ | .crash _ => -32603

/-- What an error is called. -/
def Error.message : Error → String
  | .parameters => "Invalid params"
  | .config e => "Failed to load config: " ++ e.headline
  | .unparsable path => (FileError.unparsable path).message
  | .crash path => (FileError.crash path).message

/-! ## Parameters -/

/-- The parameters of a tool by name. -/
def arguments (tool : Tool) : Json → Except Error (Table Json)
  | .object members => .ok members
  | .array items =>
    if items.length ≤ tool.parameters.length then .ok (tool.parameters.zip items)
    else .error .parameters
  | _ => .error .parameters

/-- The text of a parameter that must be given. -/
def requiredText (args : Table Json) (name : String) : Except Error String :=
  match args.get? name with
  | some (.string text) => .ok text
  | _ => .error .parameters

/-- What is read from a parameter that may be left out or null. -/
def optional {α : Type} (args : Table Json) (name : String) (read : Json → Option α)
    (other : α) : Except Error α :=
  match args.get? name with
  | none | some .null => .ok other
  | some value =>
    match read value with
    | some a => .ok a
    | none => .error .parameters

/-- The text that a value is. -/
def text? : Json → Option String
  | .string s => some s
  | _ => none

/-- The symbols that a value gives. -/
def symbols? : Json → Option Condition.Symbols
  | .object members => some members
  | _ => none

/-- The switches that a value gives. -/
def switches? : Json → Option Switches
  | .object members =>
    members.foldlM (fun (switches : Switches) (name, value) =>
      match value with
      | .bool flag => some (switches.putSorted name flag)
      | _ => none) []
  | _ => none

/-! ## Results -/

/-- The ranges of a text, each with the directive that opened it. -/
def rangesJson (p : Processed) : Json :=
  .array (p.ranges.map fun r =>
    .object [("start", .number (.int r.first)), ("end", .number (.int r.last)),
      ("directive", ((p.directiveAt? r.first).map fun d => .string d.render).getD .null)])

/-- The conditions of a text that have no value. -/
def failuresJson (p : Processed) : Json :=
  .array (p.failures.map fun (condition, failure) =>
    .object [("expression", .string condition), ("message", .string failure.message)])

/-- What a text loses. -/
def lossJson (p : Processed) : Json :=
  .object [("directiveCount", .number (.int p.directives.length)), ("ranges", rangesJson p),
    ("evalFailures", failuresJson p)]

/-- What is left of a text. -/
def outputJson (p : Processed) : Json :=
  let o := p.output
  .object [("code", .string o.code), ("changed", .bool o.changed),
    ("stats", .object [("removedNodes", .number (.int o.removed)),
      ("splicedElements", .number (.int o.spliced)),
      ("strippedComments", .number (.int o.stripped))]),
    ("ranges", rangesJson p), ("evalFailures", failuresJson p)]

/-- The value of a condition. -/
def valueJson (symbols : Condition.Symbols) (condition : String) : Json :=
  match Condition.evaluate symbols condition with
  | .ok value =>
    .object [("result", .bool value.truthy), ("valueType", .string value.typeName),
      ("error", .null)]
  | .error failure =>
    .object [("result", .bool false), ("valueType", .null), ("error", .string failure.message)]

/-- The processed text that the parameters of a tool ask for. -/
def processed (args : Table Json) : Except Error Processed := do
  let source ← requiredText args "source"
  let path ← optional args "filePath" text? "input.tsx"
  let symbols ← optional args "symbols" symbols? []
  let switches ← optional args "directives" switches? []
  match tryProcess source path ⟨symbols, switches⟩ with
  | .ok p => return p
  | .error .unparsable => .error (.unparsable path)
  | .error .crash => .error (.crash path)

/-- The result of a tool. -/
def call (t : FileTree) (tool : Tool) (parameters : Json) : Except Error Json := do
  let args ← arguments tool parameters
  match tool with
  | .getConfig =>
    match Config.load t (← requiredText args "projectRootPath") with
    | .error e => .error (.config e)
    | .ok loaded =>
      return .object [("fromFile", .bool loaded.fromFile), ("config", loaded.config.toJson)]
  | .resolveRanges => return lossJson (← processed args)
  | .preprocessSource => return outputJson (← processed args)
  | .evaluate =>
    let condition ← requiredText args "expression"
    return valueJson (← optional args "symbols" symbols? []) condition

/-- What agents are told about the tools. -/
def instructions : String :=
  "ifdef MCP lets AI agents inspect and apply comment-directive conditional compilation "
    ++ "(// #if EXPR, #elif, #else, #endif and custom #name directives) in JS/TS sources.\n\n"
    ++ "Available tools:\n"
    ++ "1. get_config - Get project configuration (symbols, directives, paths)\n"
    ++ "2. resolve_ranges - See which line ranges a source would lose\n"
    ++ "3. preprocess_source - Get the transformed source\n"
    ++ "4. evaluate - Check what a single condition evaluates to\n\n"
    ++ "Recommended Workflow:\n"
    ++ "1. Use get_config to learn the project's symbols and directive switches\n"
    ++ "2. Pass them to resolve_ranges or preprocess_source along with the file content\n"
    ++ "3. Use evaluate to debug a condition that behaves unexpectedly"

end Prune.Agent
