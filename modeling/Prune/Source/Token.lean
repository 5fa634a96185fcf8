import Prune.Source.Tree

/-!
# Tokens

The tokens of a source text (`Token`). A token knows where it stands, what stands between it and the
token before, and the text from it on and behind it, so that a reader who expects something else at
its place can read the same text anew.
-/

namespace Prune.Source

/-- The kind of a token. -/
inductive Token.Kind where
  /-- A name or a word of the grammar, and whether it is `plain`: a word that starts with an escape
  is a name whatever it spells. -/
  | word (text : String) (plain : Bool)
  | number (x : Float)
  | bigint
  | string (value : Option String)
  | punct (text : String)
  /-- The mark that opens a template. -/
  | backquote
  /-- The end of the text. -/
  | stop
  /-- What is no token; reading can go on behind it. -/
  | bad
deriving DecidableEq, Repr, Inhabited

/-- A token. -/
structure Token where
  kind : Token.Kind
  span : Span
  /-- Whether a line ends between the token and the one before. -/
  newline : Bool
  /-- The comments between the token and the one before. -/
  comments : List Comment
  /-- The text from the token on. -/
  front : List Char
  /-- The text behind the token. -/
  rest : List Char
  /-- Whether the token or the gap before it breaks a rule that reading can go on after. -/
  flawed : Bool
deriving Repr, Inhabited

namespace Token

/-- The characters of a token. -/
def text (t : Token) : String :=
  String.ofList (t.front.take (t.front.length - t.rest.length))

/-- Whether a token is a given mark. -/
def isPunct (t : Token) (text : String) : Bool :=
  match t.kind with
  | .punct p => p == text
  | _ => false

/-- The word that a token is. -/
def word? (t : Token) : Option String :=
  match t.kind with
  | .word w _ => some w
  | _ => none

/-- The word that a token is, unless it can only be a name. -/
def keyword? (t : Token) : Option String :=
  match t.kind with
  | .word w false => some w
  | _ => none

/-- Whether a token is a given word of the grammar. -/
def isWord (t : Token) (text : String) : Bool :=
  t.keyword? == some text

/-- Whether a token is one of some words of the grammar. -/
def isAnyWord (t : Token) (texts : List String) : Bool :=
  t.keyword?.any texts.contains

/-- Whether a token is one of some marks. -/
def isAnyPunct (t : Token) (texts : List String) : Bool :=
  match t.kind with
  | .punct p => texts.contains p
  | _ => false

end Token

/-- The words that are never names. -/
def reservedWords : List String :=
  ["break", "case", "catch", "class", "const", "continue", "debugger", "default", "delete", "do",
    "else", "enum", "export", "extends", "false", "finally", "for", "function", "if", "import",
    "in", "instanceof", "new", "null", "return", "super", "switch", "this", "throw", "true", "try",
    "typeof", "var", "void", "while", "with"]

/-- The words that are no names in modules. -/
def moduleWords : List String :=
  ["await", "implements", "interface", "let", "package", "private", "protected", "public", "static",
    "yield"]

/-- Whether a word is never a name. -/
def isReserved (word : String) : Bool :=
  reservedWords.contains word

/-- Whether a word is no name in a module or a script. -/
def isReservedIn (modular : Bool) (word : String) : Bool :=
  isReserved word || (modular && moduleWords.contains word)

/-- The marks of more than one character that no mark extends but those listed before it, without
the ones that start with a greater sign. -/
def longPuncts : List String :=
  ["...", "===", "!==", "**=", "<<=", "&&=", "||=", "??=", "=>", "==", "!=", "<=", "++", "--", "<<",
    "&&", "||", "??", "?.", "+=", "-=", "*=", "/=", "%=", "&=", "|=", "^=", "**"]

/-- The marks of more than one character that start with a greater sign. -/
def greaterPuncts : List String :=
  [">>>=", ">>>", ">>=", ">>", ">="]

/-- The marks of one character. -/
def shortPuncts : List Char :=
  [Char.ofNat 0x7B, Char.ofNat 0x7D, '(', ')', '[', ']', '.', ';', ',', '<', '>', '+', '-', '*',
    '/', '%', '&', '|', '^', '!', '~', '?', ':', '=', '@', '#']

end Prune.Source
