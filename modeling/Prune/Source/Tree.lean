/-!
# Syntax trees

The syntax trees of source texts (`Tree`). A node has a kind, a span of bytes of the text and parts.
Where the grammar has a list of members that can be taken out one by one, the parts hold a series,
and the rule of the series (`Rule`) says what taking out a member means.

The kind of a node names the construct and says what its parts do not: operators, words that tell
constructs of one form apart, and the texts of literals.  Left out are words and marks that matter to
types alone, such as `abstract` or a question mark behind a name.
-/

namespace Prune.Source

/-- The bytes of a text from `lo` on and before `hi`. -/
structure Span where
  lo : Nat
  hi : Nat
deriving DecidableEq, Repr, Inhabited

/-- Whether a span lies inside another. -/
def Span.inside (s t : Span) : Bool :=
  t.lo ≤ s.lo && s.hi ≤ t.hi

/-- A comment: its text between the marks, and the span with the marks. -/
structure Comment where
  text : String
  span : Span
deriving DecidableEq, Repr, Inhabited

/-- How a member or a call hangs on what stands before it. -/
inductive Link where
  /-- By a point, a bracket or a parenthesis alone. -/
  | plain
  /-- By a question mark and a point. -/
  | optional
  /-- By a point, a bracket or a parenthesis behind an optional link of the same chain. -/
  | chained
deriving DecidableEq, Repr, Inhabited

/-- Where a markup element stands. -/
inductive Place where
  /-- Where an expression may stand. -/
  | expression
  /-- Among the children of an element. -/
  | child
  /-- As the value of an attribute, without braces. -/
  | attribute
deriving DecidableEq, Repr, Inhabited

/-- What it means to take a member out of a series. -/
inductive Rule where
  /-- The member is deleted. -/
  | block
  /-- The member is the only one, and an empty block takes its place. -/
  | lone
  /-- The member is deleted with the comma behind it. -/
  | list
  /-- As in a list, but not all members can go. -/
  | declarators
  /-- The member is deleted with the comma or semicolon behind it. -/
  | members
  /-- The member is deleted; directives in braces go, and elements collapse. -/
  | children
deriving DecidableEq, Repr, Inhabited

/-- The forms of statements. -/
inductive Statement where
  | expression | block | empty | debugger | branch
  /-- A loop with a condition, which may be checked before the first round. -/
  | loop (checksFirst : Bool)
  /-- A counted loop, and which of the three parts its head has. -/
  | counted (starts checks steps : Bool)
  /-- A loop over the items or the names of something, with the word between both. -/
  | each (word : String) (waits : Bool)
  | switch | case
  /-- A jump, with its word. -/
  | jump (word : String)
  | labelled | throwing | guarded | handler | scoped
deriving DecidableEq, Repr, Inhabited

/-- The forms of declarations. -/
inductive Declaration where
  /-- A declaration of variables, with its word. -/
  | bindings (word : String)
  | declarator
  | function (isAsync isGenerator : Bool)
  | classDecl
  /-- A member of a class, with the words and the mark in front of its name. -/
  | member (words : List String)
  | staticBlock | heritage
  /-- A parameter, with the words in front of it. -/
  | parameter (words : List String)
  | decorator | interface | typeAlias | enumeration | enumerator
  /-- A namespace, with its name if that is no part. -/
  | space (name : String)
  /-- An import, with its words and the text that names the module. -/
  | imports (words : List String)
  /-- An export, with its words and the text that names the module. -/
  | exports (words : List String)
  /-- The names that are imported or exported together. -/
  | specifier (words : List String)
deriving DecidableEq, Repr, Inhabited

/-- The forms of types. -/
inductive TypeForm where
  /-- A word that is a type. -/
  | keyword (word : String)
  | reference
  /-- A literal, as it is written. -/
  | literal (text : String)
  /-- A type behind a word that is an operator. -/
  | operator (word : String)
  | infer | array | indexed | function | conditional
  | union | intersection | record | mapped | tuple | element | parenthesized | template | query
  | imported | predicate | member | index | parameters | parameter | arguments | ascription
deriving DecidableEq, Repr, Inhabited

/-- The forms of patterns. -/
inductive Pattern where
  | array | object | defaulted | rest | property
deriving DecidableEq, Repr, Inhabited

/-- The forms of the pieces of markup other than elements and fragments. -/
inductive Markup where
  /-- The first tag of an element, with its name. -/
  | tag (name : String)
  | endTag
  /-- An attribute, with its name. -/
  | attribute (name : String)
  | spreadAttribute | container | emptyContainer | spreadChild
  /-- Text between children, without its blanks. -/
  | text (content : String)
deriving DecidableEq, Repr, Inhabited

/-- The kind of a node. -/
inductive Kind where
  | name (text : String)
  | privateName (text : String)
  | null
  | boolean (b : Bool)
  | number (x : Float)
  /-- An integer of any size, as it is written. -/
  | bigint (text : String)
  /-- A literal of a text, which has none when its surrogates are not in pairs. -/
  | string (value : Option String)
  /-- A regular expression, as it is written. -/
  | regex (text : String)
  /-- A template: pieces of text with expressions between each two. -/
  | template
  /-- A piece of the text of a template, which has none when it holds a bad escape. -/
  | piece (value : Option String)
  | tagged
  | thisValue
  | superValue
  /-- A word behind another that is no object, with both. -/
  | metaProperty (text : String)
  | array
  | hole
  | spread
  | object
  /-- A property with a name and a value. -/
  | property
  /-- A property whose name is its value. -/
  | shorthand
  /-- A property whose name is its value, with a default: part of a pattern alone. -/
  | defaultedShorthand
  /-- A property that is a function, with the words and the mark in front of its name. -/
  | method (words : List String)
  | computedName
  | unary (op : String)
  /-- An operator that changes its operand, behind which it may stand. -/
  | update (op : String) (isPrefix : Bool)
  | binary (op : String)
  | assign (op : String)
  | conditional
  | sequence
  | paren
  | member (link : Link)
  | index (link : Link)
  | call (link : Link)
  | new
  /-- A call that loads a module, with the word that says when. -/
  | importCall (phase : String)
  | arrow (isAsync : Bool)
  | function (isAsync isGenerator : Bool)
  | classExpr
  | await
  | yield (delegates : Bool)
  /-- An expression with a type, with the mark or the words of the cast or the assertion. -/
  | typed (op : String)
  /-- An expression with type arguments. -/
  | instantiation
  /-- The place of an expression that is missing. -/
  | missing
  | pattern (form : Pattern)
  | statement (form : Statement)
  | declaration (form : Declaration)
  | type (form : TypeForm)
  | element (place : Place)
  | fragment (place : Place)
  | markup (form : Markup)
  /-- The whole text. -/
  | file
deriving DecidableEq, Repr, Inhabited

/-- A syntax tree. -/
inductive Tree where
  | node (kind : Kind) (span : Span) (parts : List Tree)
  | series (rule : Rule) (items : List Tree)
deriving Repr, Inhabited

namespace Tree

/-- The span of a tree; a series has none of its own. -/
def span : Tree → Span
  | node _ span _ => span
  | series _ _ => ⟨0, 0⟩

/-- The kind of a tree that is a node. -/
def kind? : Tree → Option Kind
  | node kind _ _ => some kind
  | series _ _ => none

/-- The parts of a node, or the items of a series. -/
def parts : Tree → List Tree
  | node _ _ parts => parts
  | series _ items => items

end Tree

/-- A text with its tree and its comments, in the order in which they stand. -/
structure Parsed where
  tree : Tree
  comments : List Comment
deriving Repr, Inhabited

end Prune.Source
