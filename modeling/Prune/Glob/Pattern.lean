/-!
# Patterns for paths

A pattern is a text in which a question mark stands for any character, a star for any characters,
two stars that make up a whole part of a path for any number of parts, and brackets for one
character out of a class (`Glob.parse`). `Glob.accepts` says which texts a pattern stands for. A
star also stands for slashes.
-/

namespace Prune.Glob

/-- A member of a class of characters. -/
inductive Member where
  | single (c : Char)
  | range (first last : Char)
deriving DecidableEq, Repr, Inhabited

/-- Whether a character is meant by a member of a class. -/
def Member.contains : Member → Char → Bool
  | .single c, x => x == c
  | .range first last, x => first ≤ x && x ≤ last

/-- A piece of a pattern. -/
inductive Token where
  | char (c : Char)
  /-- Any character. -/
  | any
  | within (members : List Member)
  | except (members : List Member)
  /-- Any characters. -/
  | sequence
  /-- Any parts of a path. -/
  | parts
deriving DecidableEq, Repr, Inhabited

/-- What can be wrong with a pattern. -/
inductive Cause where
  /-- More than two stars in a row. -/
  | stars
  /-- Two stars beside other characters in a part of a path. -/
  | partialStars
  /-- A bracket that is not closed. -/
  | range
deriving DecidableEq, Repr, Inhabited

/-- A fault of a pattern, and the character at which it was found. -/
structure Fault where
  position : Nat
  cause : Cause
deriving DecidableEq, Repr, Inhabited

/-- What a cause is called. -/
def Cause.message : Cause → String
  | .stars => "wildcards are either regular `*` or recursive `**`"
  | .partialStars => "recursive wildcards must form a single path component"
  | .range => "invalid range pattern"

/-- What a fault is called. -/
def Fault.message (f : Fault) : String :=
  "Pattern syntax error near position " ++ toString f.position ++ ": " ++ f.cause.message

/-- The members that the text between two brackets gives. -/
def members : List Char → List Member
  | a :: '-' :: b :: rest => .range a b :: members rest
  | a :: rest => .single a :: members rest
  | [] => []

/-- The class that a bracket opens, the characters behind the bracket being given, and the number of
these that it takes up. The first character of a class belongs to it even if it is a bracket. -/
def bracket? : List Char → Option (Token × Nat)
  | '!' :: first :: rest =>
    (rest.findIdx? (· == ']')).map fun n => (.except (members (first :: rest.take n)), n + 3)
  | ['!'] => none
  | first :: rest =>
    (rest.findIdx? (· == ']')).map fun n => (.within (members (first :: rest.take n)), n + 2)
  | [] => none

/-- What stars stand for of which one was met at a position, the characters around it being given,
and the number of those behind it that belong to them. -/
def stars (position : Nat) (before : Option Char) (behind : List Char) :
    Except Fault (Token × Nat) :=
  match behind with
  | '*' :: '*' :: _ => .error ⟨position + 2, .stars⟩
  | '*' :: rest =>
    if before.all (· == '/') then
      match rest with
      | [] => .ok (.parts, 1)
      | '/' :: _ => .ok (.parts, 2)
      | _ => .error ⟨position + 2, .partialStars⟩
    else .error ⟨position - 1, .partialStars⟩
  | _ => .ok (.sequence, 0)

/-- The tokens of a pattern from a position on, of which the first `skip` characters belong to the
token before. -/
def tokens (position : Nat) (before : Option Char) : Nat → List Char → Except Fault (List Token)
  | _, [] => .ok []
  | skip + 1, c :: cs => tokens (position + 1) (some c) skip cs
  | 0, c :: cs =>
    let go (token : Token) (skip : Nat) : Except Fault (List Token) :=
      (tokens (position + 1) (some c) skip cs).map (token :: ·)
    match c with
    | '?' => go .any 0
    | '*' =>
      match stars position before cs with
      | .error fault => .error fault
      | .ok (token, skip) => go token skip
    | '[' =>
      match bracket? cs with
      | none => .error ⟨position, .range⟩
      | some (token, skip) => go token skip
    | c => go (.char c) 0

/-- The tokens of a pattern. -/
def parse (pattern : String) : Except Fault (List Token) :=
  tokens 0 none 0 pattern.toList

/-- Whether a text is meant as a pattern: brackets alone do not make it one. -/
def isPattern (text : String) : Bool :=
  text.toList.any fun c => c == '*' || c == '?'

/-! ## Matching -/

/-- Whether a token stands for a character. -/
def Token.contains : Token → Char → Bool
  | .char c, x => x == c
  | .any, _ => true
  | .within members, x => members.any (·.contains x)
  | .except members, x => !members.any (·.contains x)
  | .sequence, _ | .parts, _ => false

/-- Whether a property holds of some end of a text. -/
def someEnd (p : List Char → Bool) : List Char → Bool
  | [] => p []
  | c :: cs => p (c :: cs) || someEnd p cs

/-- Whether a property holds of what follows some slash of a text, or of the empty end. -/
def someRest (p : List Char → Bool) : List Char → Bool
  | [] => p []
  | c :: cs => (c == '/' && p cs) || someRest p cs

/-- Whether a pattern stands for a text. -/
def accepts : List Token → List Char → Bool
  | [], cs => cs.isEmpty
  | .sequence :: ts, cs => someEnd (accepts ts) cs
  | .parts :: ts, cs => accepts ts cs || someRest (accepts ts) cs
  | _ :: _, [] => false
  | t :: ts, c :: cs => t.contains c && accepts ts cs

end Prune.Glob
