import Prune.Source.Grammar.Basic

/-!
# Targets of assignments

What stands left of an equality sign, and between the parentheses of an arrow function, is read as
an expression first. `toPattern` turns such an expression into the pattern that it spells out, and
tells whether the pattern breaks a rule that reading goes on after.
-/

namespace Prune.Source.Grammar

/-- Whether a link belongs to an optional chain. -/
def isChained : Link → Bool
  | .plain => false
  | .optional | .chained => true

/-- Whether an expression is a member or a call of an optional chain. -/
def isChain (e : Tree) : Bool :=
  match e.kind? with
  | some (.member link) | some (.index link) | some (.call link) => isChained link
  | _ => false

/-- Whether an expression denotes a place that can be assigned to: a name or a member. -/
def isPlace : Tree → Bool
  | .node (.name _) _ _ => true
  | .node (.member link) _ _ | .node (.index link) _ _ => !isChained link
  | .node .paren _ [e] => isPlace e
  | _ => false

/-- Whether an expression has the form of a target of an assignment. -/
def isTarget (e : Tree) : Bool :=
  match e.kind? with
  | some (.name _) | some (.member _) | some (.index _) | some .paren | some (.typed _) => true
  | some (.pattern _) => true
  | _ => false

/-- Whether three points stand in front of an expression. -/
def isSpread (e : Tree) : Bool :=
  match e.kind? with
  | some .spread => true
  | _ => false

/-- The items of a series, or a tree alone. -/
def flatten (t : Tree) : List Tree :=
  match t with
  | .series _ items => items
  | t => [t]

mutual

/-- The pattern that an expression spells out, none if it never can, and whether the pattern is
flawed. The elements of a pattern that is assigned to may be members. -/
def toPattern (assigning : Bool) : Tree → Option (Tree × Bool)
  | .node .array span parts =>
    (elementPatterns assigning parts).map fun (parts, flawed) =>
      (.node (.pattern .array) span (parts.flatMap flatten), flawed)
  | .node .object span parts =>
    (elementPatterns assigning parts).map fun (parts, flawed) =>
      (.node (.pattern .object) span parts, flawed)
  | .node .property span [key, value] =>
    (toPattern assigning value).map fun (value, flawed) =>
      (.node (.pattern .property) span [key, value], flawed)
  | .node .shorthand span parts => some (.node (.pattern .property) span parts, false)
  | .node .defaultedShorthand span parts => some (.node (.pattern .property) span parts, false)
  | .node (.method _) _ _ => none
  | .node .spread span [e] =>
    (toPattern assigning e).map fun (e, flawed) => (.node (.pattern .rest) span [e], flawed)
  | .node (.assign op) span parts => some (.node (.pattern .defaulted) span parts, op != "=")
  | .series rule items =>
    (elementPatterns assigning items).map fun (items, flawed) => (.series rule items, flawed)
  | e =>
    match e.kind? with
    | some (.pattern _) | some (.name _) | some .hole => some (e, false)
    | _ => some (e, !(assigning && isPlace e))

/-- The patterns that expressions spell out. A rest that is not the last one is a flaw. -/
def elementPatterns (assigning : Bool) : List Tree → Option (List Tree × Bool)
  | [] => some ([], false)
  | e :: es =>
    (toPattern assigning e).bind fun (p, flawed) =>
      (elementPatterns assigning es).map fun (ps, flawed') =>
        (p :: ps, flawed || flawed' || (isSpread e && !es.isEmpty))

end

mutual

/-- Whether an expression holds a property with a default outside of patterns and functions. -/
def holdsDefault : Tree → Bool
  | .node .defaultedShorthand _ _ => true
  | .node (.function _ _) _ _ | .node (.arrow _) _ _ => false
  | .node _ _ parts => anyHoldsDefault parts
  | .series _ items => anyHoldsDefault items

/-- Whether one of some expressions holds a property with a default. -/
def anyHoldsDefault : List Tree → Bool
  | [] => false
  | e :: es => holdsDefault e || anyHoldsDefault es

end

end Prune.Source.Grammar
