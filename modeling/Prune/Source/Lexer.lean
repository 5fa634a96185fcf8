import Prune.Number.Decimal
import Prune.Source.Token
import Prune.Text.Bytes
import Prune.Text.Letters
import Prune.Text.Units

/-!
# Reading tokens

The gap before a token (`Gap.read`), with the comments in it, and the token behind it
(`Token.read`). A slash is read as a mark of its own, and so are the quote that opens a template and
the number sign of a private name: whether a regular expression, a piece of a template or a text of
markup begins at some place is for the grammar to decide, which then reads them by `regexEnd`,
`Piece.read`, `markupText` and `markupString`. A greater sign is read alone, and `Token.glue` joins
those that form one operator.

All readers walk through the characters of the text and count the bytes they take.
-/

namespace Prune.Source

open Text (byteLength)

/-- The characters that end a line. -/
def isLineEnd (c : Char) : Bool :=
  c == '\n' || c == '\r' || c.toNat == 0x2028 || c.toNat == 0x2029

/-- The characters other than ends of lines that separate tokens. -/
def isGapBlank (c : Char) : Bool :=
  let n := c.toNat
  n == 9 || n == 11 || n == 12 || n == 0x20 || n == 0x85 || n == 0xA0 || n == 0xFEFF || n == 0x1680
    || (0x2000 ≤ n && n ≤ 0x200B) || n == 0x202F || n == 0x205F || n == 0x3000

/-! ## Gaps -/

/-- What stands between two tokens. -/
structure Gap where
  /-- The comments, in the order in which they stand. -/
  comments : List Comment
  /-- Whether a line ends in the gap. -/
  newline : Bool
  flawed : Bool
  /-- Where the gap ends. -/
  pos : Nat
  /-- The text behind the gap. -/
  rest : List Char
deriving Repr, Inhabited

/-- What a gap is being read as; texts of comments are held last character first. -/
inductive Gap.Mode where
  | blank
  /-- A comment up to the end of the line; `skip` characters of its mark are still to come. -/
  | line (lo skip : Nat) (text : List Char)
  /-- A comment up to a closing mark; `skip` characters of its opening mark are still to come. -/
  | block (lo skip : Nat) (text : List Char)
  /-- The last character of a closing mark. -/
  | closing (lo : Nat) (text : List Char)

/-- Adds a comment whose text is given last character first. -/
def Gap.push (comments : List Comment) (text : List Char) (lo hi : Nat) : List Comment :=
  ⟨String.ofList text.reverse, ⟨lo, hi⟩⟩ :: comments

/-- Reads a gap from the position `pos` on, where `comments` are the ones read, last first. -/
def Gap.readFrom (mode : Gap.Mode) (comments : List Comment) (newline flawed : Bool) (pos : Nat) :
    List Char → Gap
  | [] =>
    match mode with
    | .blank => ⟨comments.reverse, newline, flawed, pos, []⟩
    | .line lo _ text => ⟨(Gap.push comments text lo pos).reverse, newline, flawed, pos, []⟩
    | .block _ _ _ | .closing _ _ => ⟨comments.reverse, newline, true, pos, []⟩
  | c :: cs =>
    let next := pos + c.utf8Size
    match mode with
    | .blank =>
      if isLineEnd c then Gap.readFrom .blank comments true flawed next cs
      else if isGapBlank c then Gap.readFrom .blank comments newline flawed next cs
      else if c == '/' && cs.head? == some '/' then
        Gap.readFrom (.line pos 1 []) comments newline flawed next cs
      else if c == '/' && cs.head? == some '*' then
        Gap.readFrom (.block pos 1 []) comments newline flawed next cs
      else if c == '<' && ['!', '-', '-'].isPrefixOf cs then
        Gap.readFrom (.line (pos + 1) 3 []) comments newline flawed next cs
      else if c == '-' && newline && ['-', '>'].isPrefixOf cs then
        Gap.readFrom (.line (pos + 3) 2 []) comments newline flawed next cs
      else ⟨comments.reverse, newline, flawed, pos, c :: cs⟩
    | .line lo skip text =>
      if isLineEnd c then
        Gap.readFrom .blank (Gap.push comments text lo pos) true flawed next cs
      else if 0 < skip then
        Gap.readFrom (.line lo (skip - 1) text) comments newline flawed next cs
      else Gap.readFrom (.line lo 0 (c :: text)) comments newline flawed next cs
    | .block lo skip text =>
      let newline := newline || isLineEnd c
      if 0 < skip then Gap.readFrom (.block lo (skip - 1) text) comments newline flawed next cs
      else if c == '*' && cs.head? == some '/' then
        Gap.readFrom (.closing lo text) comments newline flawed next cs
      else Gap.readFrom (.block lo 0 (c :: text)) comments newline flawed next cs
    | .closing lo text =>
      Gap.readFrom .blank (Gap.push comments text lo next) newline flawed next cs

/-- Reads the gap at the position `pos`. -/
def Gap.read (newline : Bool) (pos : Nat) (cs : List Char) : Gap :=
  Gap.readFrom .blank [] newline false pos cs

/-! ## Escapes -/

/-- The number that exactly `n` hexadecimal digits at the front of a text write. -/
def hexDigits? : Nat → Nat → List Char → Option Nat
  | 0, value, _ => some value
  | n + 1, value, c :: cs =>
    (Number.digitValue? 16 c).bind fun d => hexDigits? n (value * 16 + d) cs
  | _ + 1, _, [] => none

/-- What a unicode escape denotes, given by the text behind its letter: a code point and the number
of characters it takes. -/
def codePoint? (cs : List Char) : Option (Nat × Nat) :=
  if cs.head? == some (Char.ofNat 0x7B) then
    let digits := cs.tail.takeWhile fun c => (Number.digitValue? 16 c).isSome
    let value := Number.ofDigits 16 digits
    if !digits.isEmpty && value ≤ 0x10FFFF
        && (cs.tail.drop digits.length).head? == some (Char.ofNat 0x7D) then
      some (value, digits.length + 2)
    else none
  else (hexDigits? 4 0 cs).map (·, 4)

/-- The code units of a code point, which may be half of a surrogate pair. -/
def codePointUnits (n : Nat) : List Nat :=
  if n < 0x10000 then [n]
  else [0xD800 + (n - 0x10000) / 0x400, 0xDC00 + (n - 0x10000) % 0x400]

/-- What stands behind a backslash. -/
inductive Escape where
  /-- The escape denotes code units and takes `count` characters. -/
  | units (units : List Nat) (count : Nat)
  /-- An octal number, which texts may hold and templates may not. -/
  | octal (unit count : Nat)
  | bad
deriving Repr

/-- The octal digits of an escape: at most three, and two when the first is above three. -/
def octalDigits (cs : List Char) : List Char :=
  let limit := if cs.head?.any (· ≤ '3') then 3 else 2
  (cs.take limit).takeWhile fun c => '0' ≤ c && c ≤ '7'

/-- Reads an escape from the text behind its backslash. -/
def Escape.read : List Char → Escape
  | [] => .bad
  | c :: cs =>
    if c == 'n' then .units [10] 1
    else if c == 'r' then .units [13] 1
    else if c == 't' then .units [9] 1
    else if c == 'b' then .units [8] 1
    else if c == 'v' then .units [11] 1
    else if c == 'f' then .units [12] 1
    else if c == 'x' then
      match hexDigits? 2 0 cs with
      | some n => .units [n] 3
      | none => .bad
    else if c == 'u' then
      match codePoint? cs with
      | some (n, count) => .units (codePointUnits n) (count + 1)
      | none => .bad
    else if c == '\r' && cs.head? == some '\n' then .units [] 2
    else if isLineEnd c then .units [] 1
    else if '0' ≤ c && c ≤ '7' then
      if c == '0' && !cs.head?.any (fun d => '0' ≤ d && d ≤ '7') then .units [0] 1
      else
        let digits := octalDigits (c :: cs)
        .octal (Number.ofDigits 8 digits) digits.length
    else .units (Text.charUnits c) 1

/-- The text of code units, last unit first. -/
def textOfUnits? (units : List Nat) : Option String :=
  (Text.ofUnits? units.reverse).map String.ofList

/-! ## Texts -/

/-- A part of a text that was read: its kind, what follows it, the number of its bytes, and whether
it is flawed. -/
structure Lexeme where
  kind : Token.Kind
  rest : List Char
  size : Nat
  flawed : Bool := false
deriving Repr, Inhabited

/-- Reads a literal of a text up to a quote. `units` are the code units read, last first, and `skip`
characters belong to an escape that was read. -/
def stringFrom (quote : Char) (size skip : Nat) (units : List Nat) : List Char → Lexeme
  | [] => { kind := .string (textOfUnits? units), rest := [], size := size, flawed := true }
  | c :: cs =>
    let next := size + c.utf8Size
    if 0 < skip then stringFrom quote next (skip - 1) units cs
    else if c == quote then { kind := .string (textOfUnits? units), rest := cs, size := next }
    else if c == '\n' || c == '\r' then
      { kind := .string (textOfUnits? units), rest := c :: cs, size := size, flawed := true }
    else if c == '\\' then
      match Escape.read cs with
      | .units us count => stringFrom quote next count (us.reverse ++ units) cs
      | .octal unit count => stringFrom quote next count (unit :: units) cs
      | .bad => { kind := .bad, rest := cs, size := next }
    else stringFrom quote next 0 ((Text.charUnits c).reverse ++ units) cs

/-- A piece of the text of a template. -/
structure Piece where
  /-- The text, if the piece holds no bad escape and no half of a surrogate pair alone. -/
  value : Option String
  /-- Whether the piece holds no bad escape. -/
  valid : Bool
  /-- Whether a hole for an expression follows it rather than the end of the template. -/
  hole : Bool
  rest : List Char
  /-- The number of bytes, the mark that ends the piece included. -/
  size : Nat
deriving Repr, Inhabited

/-- Reads a piece of a template up to a hole or the end of the template; none when the text ends
first. `units` are the code units read, last first, or nothing behind a bad escape; `skip`
characters belong to an escape that was read. -/
def Piece.readFrom (size skip : Nat) (units : Option (List Nat)) : List Char → Option Piece
  | [] => none
  | c :: cs =>
    let next := size + c.utf8Size
    if 0 < skip then Piece.readFrom next (skip - 1) units cs
    else if c.toNat == 0x60 then
      some
        { value := units.bind textOfUnits?, valid := units.isSome, hole := false, rest := cs,
          size := next }
    else if c == '$' && cs.head? == some (Char.ofNat 0x7B) then
      some
        { value := units.bind textOfUnits?, valid := units.isSome, hole := true, rest := cs.tail,
          size := next + 1 }
    else if c == '\\' then
      match Escape.read cs with
      | .units us count => Piece.readFrom next count (units.map (us.reverse ++ ·)) cs
      | .octal _ count => Piece.readFrom next count none cs
      | .bad => Piece.readFrom next (min 1 cs.length) none cs
    else if c == '\r' then
      Piece.readFrom next (if cs.head? == some '\n' then 1 else 0) (units.map (10 :: ·)) cs
    else Piece.readFrom next 0 (units.map ((Text.charUnits c).reverse ++ ·)) cs

/-- Reads a piece of a template. -/
def Piece.read (cs : List Char) : Option Piece :=
  Piece.readFrom 0 0 (some []) cs

/-- Reads the body of a regular expression behind its slash up to the slash that ends it: what
follows, and the number of bytes. A slash in a class of characters does not end it. -/
def regexBody (size : Nat) (escaped inClass : Bool) : List Char → Option (List Char × Nat)
  | [] => none
  | c :: cs =>
    let next := size + c.utf8Size
    if isLineEnd c then none
    else if escaped then regexBody next false inClass cs
    else if c == '\\' then regexBody next true inClass cs
    else if c == '[' then regexBody next false true cs
    else if c == ']' then regexBody next false false cs
    else if c == '/' && !inClass then some (cs, next)
    else regexBody next false inClass cs

/-- Reads a regular expression behind its slash, flags included: what follows, the number of bytes,
and whether its flags are flawed. -/
def regexEnd (cs : List Char) : Option (List Char × Nat × Bool) :=
  (regexBody 0 false false cs).map fun (rest, size) =>
    let flags :=
      if rest.head?.any Text.isIdentStart then rest.takeWhile Text.isIdentPart else []
    let known := flags.all fun c => ['d', 'g', 'i', 'm', 's', 'u', 'v', 'y'].contains c
    (rest.drop flags.length, size + byteLength flags, !known || !flags.Nodup)

/-- The rest of the line of a regular expression that does not end, behind its slash: what follows,
and the number of bytes. -/
def openRegex (cs : List Char) : List Char × Nat :=
  let line := cs.takeWhile fun c => !isLineEnd c
  (cs.drop line.length, byteLength line)

/-- Reads the text of markup up to a brace or a less sign: what follows, and the number of
bytes. -/
def markupText (cs : List Char) : List Char × Nat :=
  let text := cs.takeWhile fun c => !(c == '<' || c.toNat == 0x7B)
  (cs.drop text.length, byteLength text)

/-- Reads the value of an attribute behind its quote, which has no escapes and may hold ends of
lines. -/
def markupString (quote : Char) (cs : List Char) : Option (List Char × Nat) :=
  let text := cs.takeWhile (· != quote)
  match cs.drop text.length with
  | [] => none
  | _ :: rest => some (rest, byteLength text + 1)

/-- Reads what may follow a word in the name of an element or an attribute: hyphens and characters
of words. Gives the characters, what follows, and the number of bytes. -/
def markupNameTail (cs : List Char) : List Char × List Char × Nat :=
  let tail := cs.takeWhile fun c => Text.isIdentPart c || c == '-'
  (tail, cs.drop tail.length, byteLength tail)

/-! ## Words and numbers -/

/-- What `wordFrom` reads: the text of a word, whether an escape stands in it, what follows, the
number of bytes, and whether an escape denotes a character that words do not hold. -/
structure Spelling where
  text : String
  escaped : Bool
  rest : List Char
  size : Nat
  flawed : Bool
deriving Repr, Inhabited

/-- Reads a word, or fails with the place behind a backslash that starts no escape. `text` holds the
characters read, last first, and `skip` characters belong to an escape that was read. -/
def wordFrom (size skip : Nat) (escaped flawed : Bool) (text : List Char) :
    List Char → Except (List Char × Nat) Spelling
  | [] => .ok ⟨String.ofList text.reverse, escaped, [], size, flawed⟩
  | c :: cs =>
    let next := size + c.utf8Size
    if 0 < skip then wordFrom next (skip - 1) escaped flawed text cs
    else if Text.isIdentPart c then wordFrom next 0 escaped flawed (c :: text) cs
    else if c == '\\' then
      match cs with
      | 'u' :: ds =>
        match codePoint? ds with
        | some (n, count) =>
          let d := Char.ofNat n
          let fits := if text.isEmpty then Text.isIdentStart d else Text.isIdentPart d
          wordFrom next (count + 1) true (flawed || !fits) (d :: text) cs
        | none => .error (cs, next)
      | _ => .error (cs, next)
    else .ok ⟨String.ofList text.reverse, escaped, c :: cs, size, flawed⟩

/-- Reads a word. One that starts with an escape is a name whatever it spells; any other that holds
an escape must not be a reserved one. -/
def readWord (modular : Bool) (cs : List Char) : Lexeme :=
  match wordFrom 0 0 false false [] cs with
  | .error (rest, size) => { kind := .bad, rest := rest, size := size }
  | .ok word =>
    let plain := cs.head? == some '\\'
    let kind : Token.Kind :=
      if word.escaped && !plain && isReservedIn modular word.text then .bad
      else .word word.text plain
    { kind := kind, rest := word.rest, size := word.size, flawed := word.flawed }

/-- Reads digits of a base with underscores between them: the digits, what follows, and whether an
underscore stands elsewhere than in front of a digit. -/
def digitRun (base : Nat) (cs : List Char) : List Char × List Char × Bool :=
  let run := cs.takeWhile fun c => (Number.digitValue? base c).isSome || c == '_'
  let misplaced :=
    run.getLast? == some '_'
      || (run.zip run.tail).any fun pair => pair.1 == '_' && pair.2 == '_'
  (run.filter (· != '_'), cs.drop run.length, misplaced)

/-- The value of digits of a base, added up from the left in doubles. -/
def accumulate (base : Nat) (digits : List Char) : Float :=
  digits.foldl
    (fun total c =>
      total * (UInt64.ofNat base).toFloat
        + (UInt64.ofNat ((Number.digitValue? base c).getD 0)).toFloat)
    (Number.zero false)

/-- Ends the literal of a number: no letter and no digit may follow it. -/
def finishNumber (cs rest : List Char) (kind : Token.Kind) (flawed : Bool) : Lexeme :=
  let size := byteLength cs - byteLength rest
  match rest with
  | c :: _ =>
    if Text.isIdentStart c || c == '\\' || c.isDigit then
      { kind := .bad, rest := rest, size := size }
    else { kind := kind, rest := rest, size := size, flawed := flawed }
  | [] => { kind := kind, rest := rest, size := size, flawed := flawed }

/-- Reads a number of a base other than ten behind its mark of two characters. -/
def readRadix (base : Nat) (cs : List Char) : Lexeme :=
  let (digits, rest, flawed) := digitRun base (cs.drop 2)
  if digits.isEmpty then { kind := .bad, rest := rest, size := byteLength cs - byteLength rest }
  else if rest.head? == some 'n' then finishNumber cs rest.tail .bigint flawed
  else finishNumber cs rest (.number (accumulate base digits)) flawed

/-- Reads the exponent of a number: none when its mark has no digits behind it. -/
def readExponent (cs : List Char) : Option (Int × List Char × Bool) :=
  if cs.head? == some 'e' || cs.head? == some 'E' then
    let signed := cs.tail
    let negative := signed.head? == some '-'
    let unsigned := if negative || signed.head? == some '+' then signed.tail else signed
    let (digits, rest, flawed) := digitRun 10 unsigned
    if digits.isEmpty then none
    else
      let value : Int := Number.ofDigits 10 digits
      some (if negative then -value else value, rest, flawed)
  else some (0, cs, false)

/-- Reads a number of base ten. -/
def readDecimal (cs : List Char) : Lexeme :=
  let (whole, rest, flawed) := digitRun 10 cs
  let leadingZero := whole.head? == some '0' && 1 < whole.length
  if leadingZero && whole.all (· ≤ '7') then
    finishNumber cs rest (.number (accumulate 8 whole)) flawed
  else if rest.head? == some 'n' && !leadingZero then finishNumber cs rest.tail .bigint flawed
  else
    let (fraction, rest, flawed') :=
      if rest.head? == some '.' then digitRun 10 rest.tail else ([], rest, false)
    match readExponent rest with
    | none => { kind := .bad, rest := rest, size := byteLength cs - byteLength rest }
    | some (exponent, rest, flawed'') =>
      let value : Number.Decimal :=
        ⟨Number.ofDigits 10 (whole ++ fraction), exponent - fraction.length⟩
      finishNumber cs rest (.number value.toFloat) (flawed || flawed' || flawed'')

/-- Reads a number. -/
def readNumber (cs : List Char) : Lexeme :=
  match cs with
  | '0' :: mark :: _ =>
    if mark == 'x' || mark == 'X' then readRadix 16 cs
    else if mark == 'o' || mark == 'O' then readRadix 8 cs
    else if mark == 'b' || mark == 'B' then readRadix 2 cs
    else readDecimal cs
  | _ => readDecimal cs

/-! ## Tokens -/

/-- Reads a mark. A question mark and a point before a digit are two marks. -/
def readPunct (cs : List Char) : Lexeme :=
  let long :=
    longPuncts.find? fun p =>
      p.toList.isPrefixOf cs && !(p == "?." && (cs.drop 2).head?.any Char.isDigit)
  match long with
  | some p => { kind := .punct p, rest := cs.drop p.length, size := p.length }
  | none =>
    match cs with
    | c :: rest =>
      if shortPuncts.contains c then
        { kind := .punct (String.singleton c), rest := rest, size := 1 }
      else { kind := .bad, rest := rest, size := c.utf8Size }
    | [] => { kind := .stop, rest := [], size := 0 }

/-- Reads the mark that opens a template, whose first piece must end. -/
def readBackquote (cs : List Char) : Lexeme :=
  match Piece.read cs with
  | some _ => { kind := .backquote, rest := cs, size := 1 }
  | none => { kind := .bad, rest := [], size := 1 + byteLength cs }

/-- Reads what a token is, where a gap ends. -/
def readLexeme (modular : Bool) (cs : List Char) : Lexeme :=
  match cs with
  | [] => { kind := .stop, rest := [], size := 0 }
  | c :: rest =>
    if Text.isIdentStart c || c == '\\' then readWord modular cs
    else if c.isDigit || (c == '.' && rest.head?.any Char.isDigit) then readNumber cs
    else if c == '"' || c.toNat == 0x27 then stringFrom c 1 0 [] rest
    else if c.toNat == 0x60 then readBackquote rest
    else readPunct cs

/-- The token that a lexeme at the end of a gap is. -/
def Token.ofLexeme (gap : Gap) (lexeme : Lexeme) : Token :=
  { kind := lexeme.kind,
    span := ⟨gap.pos, gap.pos + lexeme.size⟩,
    newline := gap.newline,
    comments := gap.comments,
    front := gap.rest,
    rest := lexeme.rest,
    flawed := gap.flawed || lexeme.flawed }

/-- Reads the gap at a position and the token behind it, in a module or a script. -/
def Token.read (modular newline : Bool) (pos : Nat) (cs : List Char) : Token :=
  let gap := Gap.read newline pos cs
  Token.ofLexeme gap (readLexeme modular gap.rest)

/-- Joins greater signs, and an equality sign behind them, to one operator. -/
def Token.glue (t : Token) : Token :=
  if t.isPunct ">" then
    match greaterPuncts.find? fun p => p.toList.isPrefixOf t.front with
    | some p =>
      { t with
        kind := .punct p, rest := t.front.drop p.length, span := ⟨t.span.lo, t.span.lo + p.length⟩ }
    | none => t
  else t

/-- Cuts a mark down to its first character. -/
def Token.cut (t : Token) : Token :=
  match t.front with
  | c :: cs =>
    { t with kind := .punct (String.singleton c), rest := cs, span := ⟨t.span.lo, t.span.lo + 1⟩ }
  | [] => t

/-- Reads the first token of a text. A line that starts with a number sign and an exclamation mark
is not read. -/
def Token.readFirst (modular : Bool) (text : List Char) : Token :=
  match text with
  | '#' :: '!' :: _ =>
    let line := text.takeWhile fun c => !isLineEnd c
    Token.read modular true (byteLength line) (text.drop line.length)
  | _ => Token.read modular true 0 text

end Prune.Source
