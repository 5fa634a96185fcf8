/-!
# Sorting

`sortBy le` sorts a list by inserting its items one after the other, the last one first. Items of
which each is `le` the other keep their order, and a list that is sorted already is only walked
through.
-/

namespace Prune

/-- Puts an item in front of the first one it is `le` to. -/
def insertBy {α : Type} (le : α → α → Bool) (a : α) : List α → List α
  | [] => [a]
  | b :: rest => if le a b then a :: b :: rest else b :: insertBy le a rest

/-- A list in the order given by `le`; items that are `le` each other keep their order. -/
def sortBy {α : Type} (le : α → α → Bool) (items : List α) : List α :=
  items.foldr (insertBy le) []

end Prune
