/-!
# Tables of ranges

A property of characters given by a table of ranges of code points, in increasing order
(`Ranges`), and membership in such a table (`Ranges.contains`), decided by halving the table.
-/

namespace Prune.Text

/-- Ranges of code points, both ends included, in increasing order. -/
abbrev Ranges := Array (Nat × Nat)

/-- Looks for the range of `c` among the entries from `lo` up to, but without, `hi`. -/
def Ranges.search (t : Ranges) (c : Nat) : Nat → Nat → Nat → Bool
  | 0, _, _ => false
  | fuel + 1, lo, hi =>
    if lo < hi then
      let mid := (lo + hi) / 2
      let entry := t.getD mid (1, 0)
      if c < entry.1 then Ranges.search t c fuel lo mid
      else if entry.2 < c then Ranges.search t c fuel (mid + 1) hi
      else true
    else false

/-- Whether the code point `c` lies in one of the ranges. -/
def Ranges.contains (t : Ranges) (c : Nat) : Bool :=
  t.search c (t.size + 1) 0 t.size

end Prune.Text
