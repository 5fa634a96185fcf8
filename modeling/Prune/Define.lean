import Prune.Condition.Basic
import Prune.Json.Reader

/-!
# Definitions of symbols

A symbol is defined by its name, an equals sign and its value, or by its name alone, which makes it
true (`Define.parse`). A value that is no JSON is a text.
-/

namespace Prune.Define

/-- What can be wrong with a definition, whose text is given. -/
inductive Error where
  | noName (text : String)
  | notIdentifier (text name : String)
deriving DecidableEq, Repr, Inhabited

/-- What an error is called. -/
def Error.message : Error → String
  | .noName text => "Invalid symbol definition \"" ++ text ++ "\": missing name"
  | .notIdentifier text name =>
    "Invalid symbol definition \"" ++ text ++ "\": \"" ++ name ++ "\" is not an identifier"

/-- The letters of ASCII and two signs that may start a name. -/
def isNameStart (c : Char) : Bool :=
  c.isAlpha || c == '_' || c == '$'

/-- Whether a text is a name that conditions can mention. -/
def isName : List Char → Bool
  | [] => false
  | c :: cs => isNameStart c && cs.all fun c => isNameStart c || c.isDigit

/-- The value that the text behind an equals sign gives. -/
def valueOf (text : List Char) : Json :=
  match Json.parse (String.ofList (Text.trimChars text)) with
  | .ok value => value
  | .error _ => .string (String.ofList text)

/-- The name and the value that a definition gives to a symbol. -/
def parse (text : String) : Except Error (String × Json) :=
  let (front, behind) := text.toList.span (· != '=')
  let name := Text.trimChars front
  let value := if behind.isEmpty then .bool true else valueOf behind.tail
  if name.isEmpty then .error (.noName text)
  else if !isName name then .error (.notIdentifier text (String.ofList name))
  else .ok (String.ofList name, value)

end Prune.Define
