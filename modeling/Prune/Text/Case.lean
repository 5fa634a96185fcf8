import Prune.Text.CaseTable

/-!
# Letter case

The lower-case and the upper-case form of a text by the mappings of Unicode (`lower`, `upper`): a
character may become several, and a capital sigma that ends a word becomes a final one.
`sameIgnoringAsciiCase` compares texts up to the case of the letters of ASCII alone.
-/

namespace Prune.Text

/-- The shifted code point, when `c` lies in one of the runs. -/
def Shifts.apply? (t : Shifts) (c : Nat) : Option Nat :=
  (t.find? fun (first, last, step, _) => first ≤ c && c ≤ last && (c - first) % step == 0).map
    fun (_, _, _, shift) => (Int.ofNat c + shift).toNat

/-- The images of a character under a case mapping above ASCII. -/
def mapCase (shifts : Shifts) (expansions : Array (Nat × List Nat)) (c : Char) : List Char :=
  match expansions.find? fun e => e.1 == c.toNat with
  | some (_, images) => images.map Char.ofNat
  | none =>
    match shifts.apply? c.toNat with
    | some image => [Char.ofNat image]
    | none => [c]

/-- The lower-case form of a character, regardless of its neighbours. -/
def lowerChar (c : Char) : List Char :=
  if c.toNat < 0x80 then [c.toLower] else mapCase Shifts.lower lowerExpansions c

/-- The upper-case form of a character. -/
def upperChar (c : Char) : List Char :=
  if c.toNat < 0x80 then [c.toUpper] else mapCase Shifts.upper upperExpansions c

/-- The letters that have a case. -/
def isCased (c : Char) : Bool :=
  if c.toNat < 0x80 then c.isAlpha else Ranges.cased.contains c.toNat

/-- The characters that are skipped when the neighbours of a letter are looked for. -/
def isCaseIgnorable (c : Char) : Bool :=
  if c.toNat < 0x80 then
    c.toNat == 0x27 || c == '.' || c == ':' || c == '^' || c.toNat == 0x60
  else Ranges.caseIgnorable.contains c.toNat

/-- Whether the first character that is not skipped is a letter with a case. -/
def meetsCased (cs : List Char) : Bool :=
  match cs.dropWhile isCaseIgnorable with
  | c :: _ => isCased c
  | [] => false

/-- The lower-case form of a text, after the characters `before`, nearest first. -/
def lowerFrom (before : List Char) : List Char → List Char
  | [] => []
  | c :: cs =>
    let image :=
      if c.toNat == 0x3A3 then
        if meetsCased before && !meetsCased cs then ['ς'] else ['σ']
      else lowerChar c
    image ++ lowerFrom (c :: before) cs

/-- The lower-case form of the characters of a text. -/
def lowerChars (cs : List Char) : List Char :=
  lowerFrom [] cs

/-- The lower-case form of a text. -/
def lower (s : String) : String :=
  String.ofList (lowerChars s.toList)

/-- The upper-case form of a text. -/
def upper (s : String) : String :=
  String.ofList (s.toList.flatMap upperChar)

/-- Whether two texts differ at most in the case of the letters of ASCII. -/
def sameIgnoringAsciiCase (s t : String) : Bool :=
  s.toList.map Char.toLower == t.toList.map Char.toLower

end Prune.Text
