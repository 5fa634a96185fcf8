/-!
# Ranges of lines

A range of lines whose code is to be deleted (`LineRange`). A piece of code is deleted when all the
lines it stands on lie in one range; ranges may overlap.
-/

namespace Prune

/-- The lines from `first` to `last`, both included. -/
structure LineRange where
  first : Nat
  last : Nat
deriving DecidableEq, Repr, Inhabited

/-- Whether code on the lines from `start` to `stop` lies inside the range. -/
def LineRange.contains (r : LineRange) (start stop : Nat) : Bool :=
  r.first ≤ start && stop ≤ r.last

/-- Whether code on the lines from `start` to `stop` lies inside one of the ranges. -/
def LineRange.anyContains (ranges : List LineRange) (start stop : Nat) : Bool :=
  ranges.any fun r => r.contains start stop

end Prune
