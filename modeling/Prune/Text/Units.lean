/-!
# UTF-16 code units

The code units of a text in UTF-16 (`units`), their number, and the text that a single unit
denotes (`unitText`): half of a surrogate pair denotes the replacement character.
-/

namespace Prune.Text

/-- The code units of a character in UTF-16. -/
def charUnits (c : Char) : List Nat :=
  let n := c.toNat
  if n < 0x10000 then [n]
  else [0xD800 + (n - 0x10000) / 0x400, 0xDC00 + (n - 0x10000) % 0x400]

/-- The code units of a text in UTF-16. -/
def units (cs : List Char) : List Nat :=
  cs.flatMap charUnits

/-- The number of code units of a text in UTF-16. -/
def unitCount (cs : List Char) : Nat :=
  cs.foldr (fun c n => (if c.toNat < 0x10000 then 1 else 2) + n) 0

/-- The text of one code unit. -/
def unitText (unit : Nat) : String :=
  if 0xD800 ≤ unit && unit < 0xE000 then "\uFFFD" else String.singleton (Char.ofNat unit)

/-- The character that a list of code units denotes, unit by unit, where surrogates have to come
in pairs. -/
def ofUnits? : List Nat → Option (List Char)
  | [] => some []
  | u :: us =>
    if 0xD800 ≤ u && u < 0xDC00 then
      match us with
      | v :: vs =>
        if 0xDC00 ≤ v && v < 0xE000 then
          (ofUnits? vs).map
            (Char.ofNat (0x10000 + (u - 0xD800) * 0x400 + (v - 0xDC00)) :: ·)
        else none
      | [] => none
    else if 0xDC00 ≤ u && u < 0xE000 then none
    else (ofUnits? us).map (Char.ofNat u :: ·)

end Prune.Text
