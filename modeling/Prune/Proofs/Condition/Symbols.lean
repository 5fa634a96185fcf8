import Mathlib.Data.List.Forall2
import Mathlib.Data.Option.Basic
import Mathlib.Data.String.Basic
import Prune.Condition.Basic

/-!
# What conditions see of the symbols

A condition sees no symbols but those it mentions.  Two JSON values are alike if they differ at most
in the order of the members of objects (`Json.Alike`).  Such values stand for the same value of
conditions (`Value.ofJson_eq_of_alike`): the members of an object are sorted by name on the way, and
a sorted table is determined by what it gives for each name (`Table.eq_of_get?_eq`).  The names of
an expression are those that stand for something in it (`Condition.Expr.names`), and a condition has
the same value, or fails for the same cause, over any two tables of symbols that give alike values
for its names (`Condition.evaluate_eq_of_agree`).
-/

namespace Prune

/-! ### Sorted tables -/

namespace Table

variable {α : Type} {t u : Table α} {name : String} {value : α}

/-- Whether the names of a table stand in their order, each of them once. -/
def Sorted (t : Table α) : Prop :=
  t.Pairwise fun a b => a.1 < b.1

theorem get?_cons (entry : String × α) (t : Table α) (name : String) :
  get? (entry :: t) name = if entry.1 = name then some entry.2 else get? t name
  := by
  by_cases h : entry.1 = name
  · simp [get?, h]
  · simp [get?, h]

theorem get?_eq_none (h : ∀ entry ∈ t, name < entry.1) :
  get? t name = none
  := by
  induction t with
  | nil => rfl
  | cons entry t ih =>
      obtain ⟨hentry, ht⟩ := List.forall_mem_cons.mp h
      rw [get?_cons, if_neg (ne_of_gt hentry), ih ht]

theorem get?_putSorted (t : Table α) (name : String) (value : α) (other : String) :
  get? (putSorted t name value) other = if name = other then some value else get? t other
  := by
  induction t with
  | nil => rw [putSorted, get?_cons]
  | cons entry t ih =>
      rw [putSorted]
      split
      · next hname =>
        rw [beq_iff_eq] at hname
        rw [get?_cons, get?_cons]
        grind
      · split
        · rw [get?_cons]
        · next hname _ =>
          rw [beq_iff_eq] at hname
          rw [get?_cons, get?_cons, ih]
          grind

theorem mem_putSorted {entry : String × α} (h : entry ∈ putSorted t name value) :
  entry = (name, value) ∨ entry ∈ t
  := by
  induction t with
  | nil => simpa [putSorted] using h
  | cons first t ih =>
      rw [putSorted] at h
      split at h
      · obtain h | h := List.mem_cons.mp h
        · exact .inl h
        · exact .inr (List.mem_cons_of_mem _ h)
      · split at h
        · exact List.mem_cons.mp h
        · obtain rfl | h := List.mem_cons.mp h
          · exact .inr List.mem_cons_self
          · exact (ih h).imp_right (List.mem_cons_of_mem _)

theorem Sorted.putSorted (ht : Sorted t) (name : String) (value : α) :
  Sorted (putSorted t name value)
  := by
  induction t with
  | nil => exact List.pairwise_singleton _ _
  | cons entry t ih =>
      obtain ⟨hentry, ht'⟩ := List.pairwise_cons.mp ht
      rw [Table.putSorted]
      split
      · next hname =>
        rw [beq_iff_eq] at hname
        refine List.pairwise_cons.mpr ⟨?_, ht'⟩
        rw [hname]
        exact hentry
      · next hname =>
        rw [beq_iff_eq] at hname
        split
        · next hlt =>
          refine List.pairwise_cons.mpr ⟨?_, ht⟩
          intro other hother
          obtain rfl | hother := List.mem_cons.mp hother
          · exact hlt
          · exact lt_trans hlt (hentry other hother)
        · next hlt =>
          refine List.pairwise_cons.mpr ⟨?_, ih ht'⟩
          intro other hother
          obtain rfl | hother := mem_putSorted hother
          · exact lt_of_le_of_ne (not_lt.mp hlt) (Ne.symm hname)
          · exact hentry other hother

/-- Sorted tables that give the same for each name are the same. -/
theorem eq_of_get?_eq (ht : Sorted t) (hu : Sorted u)
    (h : ∀ name, get? t name = get? u name) :
  t = u
  := by
  induction t generalizing u with
  | nil =>
      cases u with
      | nil => rfl
      | cons entry u => simpa [get?_cons, get?] using h entry.1
  | cons first t ih =>
      cases u with
      | nil => simpa [get?_cons, get?] using h first.1
      | cons second u =>
          obtain ⟨hfirst, ht'⟩ := List.pairwise_cons.mp ht
          obtain ⟨hsecond, hu'⟩ := List.pairwise_cons.mp hu
          -- a name before the first one of a table is given nothing by it
          have hname : first.1 = second.1 := by
            by_contra hne
            obtain hlt | hlt := lt_or_gt_of_ne hne
            · have hnone : get? u first.1 = none :=
                get?_eq_none fun entry hentry => lt_trans hlt (hsecond entry hentry)
              have := h first.1
              simp [get?_cons, Ne.symm hne, hnone] at this
            · have hnone : get? t second.1 = none :=
                get?_eq_none fun entry hentry => lt_trans hlt (hfirst entry hentry)
              have := h second.1
              simp [get?_cons, hne, hnone] at this
          have hvalue : first.2 = second.2 := by
            have := h first.1
            simpa [get?_cons, hname] using this
          have hrest : t = u := by
            apply ih ht' hu'
            intro name
            by_cases hn : first.1 = name
            · subst hn
              rw [get?_eq_none hfirst, get?_eq_none (by rwa [hname])]
            · have := h name
              rwa [get?_cons, get?_cons, if_neg hn, if_neg (hname ▸ hn)] at this
          rw [Prod.ext hname hvalue, hrest]

/-- The order of a table in which each name occurs once does not matter to what it gives. -/
theorem get?_eq_of_perm (h : t.Perm u) (ht : (t.map Prod.fst).Nodup) (name : String) :
  get? t name = get? u name
  := by
  induction h with
  | nil => rfl
  | cons entry h ih =>
      rw [List.map_cons, List.nodup_cons] at ht
      rw [get?_cons, get?_cons, ih ht.2]
  | swap first second rest =>
      have hne : second.1 ≠ first.1 := by
        simp only [List.map_cons, List.nodup_cons, List.mem_cons, not_or] at ht
        exact ht.1.1
      simp only [get?_cons]
      grind
  | trans h₁ h₂ ih₁ ih₂ => rw [ih₁ ht, ih₂ ((h₁.map Prod.fst).nodup_iff.mp ht)]

theorem sizeOf_lt_of_get? [SizeOf α] (h : get? t name = some value) :
  sizeOf value < sizeOf t
  := by
  obtain ⟨entry, hfind, hvalue⟩ := Option.map_eq_some_iff.mp h
  have hentry : sizeOf entry < sizeOf t :=
    List.sizeOf_lt_of_mem (List.mem_of_find?_eq_some hfind)
  rw [Prod.mk.sizeOf_spec, hvalue] at hentry
  omega

end Table

/-! ### Values that are alike -/

/-- Whether two JSON values differ at most in the order of the members of objects. -/
inductive Json.Alike : Json → Json → Prop where
  | null : Alike .null .null
  | bool (b : Bool) : Alike (.bool b) (.bool b)
  | number (n : Json.Number) : Alike (.number n) (.number n)
  | string (s : String) : Alike (.string s) (.string s)
  | array {xs ys : List Json} (h : List.Forall₂ Alike xs ys) : Alike (.array xs) (.array ys)
  | object {xs ys : List (String × Json)}
      (h : ∀ name, Option.Rel Alike (Table.get? xs name) (Table.get? ys name)) :
      Alike (.object xs) (.object ys)

theorem Json.Alike.refl (x : Json) :
  x.Alike x
  := by
  cases x with
  | null => exact .null
  | bool b => exact .bool b
  | number n => exact .number n
  | string s => exact .string s
  | array xs =>
      apply Json.Alike.array
      rw [List.forall₂_same]
      intro x hx
      have := List.sizeOf_lt_of_mem hx
      exact Json.Alike.refl x
  | object xs =>
      apply Json.Alike.object
      intro name
      cases hx : Table.get? xs name with
      | none => exact Option.Rel.none
      | some x =>
          have := Table.sizeOf_lt_of_get? hx
          exact Option.Rel.some (Json.Alike.refl x)
termination_by sizeOf x

/-- The order of the members of an object does not matter. -/
theorem Json.Alike.of_perm {xs ys : List (String × Json)} (h : xs.Perm ys)
    (hxs : (xs.map Prod.fst).Nodup) :
  Alike (.object xs) (.object ys)
  := by
  apply Json.Alike.object
  intro name
  rw [← Table.get?_eq_of_perm h hxs]
  cases Table.get? xs name with
  | none => exact Option.Rel.none
  | some x => exact Option.Rel.some (Json.Alike.refl x)

namespace Value

theorem get?_ofMembers (members : List (String × Json)) (name : String) :
  Table.get? (ofMembers members) name = (Table.get? members name).map ofJson
  := by
  induction members with
  | nil => rfl
  | cons member members ih =>
      rw [ofMembers, Table.get?_putSorted, Table.get?_cons, ih]
      split <;> rfl

theorem sorted_ofMembers (members : List (String × Json)) :
  Table.Sorted (ofMembers members)
  := by
  induction members with
  | nil => exact List.Pairwise.nil
  | cons member members ih => exact ih.putSorted _ _

theorem ofItems_eq_map (items : List Json) :
  ofItems items = items.map ofJson
  := by
  induction items with
  | nil => rfl
  | cons item items ih => rw [ofItems, ih, List.map_cons]

/-- Values that are alike stand for the same value. -/
theorem ofJson_eq_of_alike {x y : Json} (h : x.Alike y) :
  ofJson x = ofJson y
  := by
  cases h with
  | null => rfl
  | bool b => rfl
  | number n => rfl
  | string s => rfl
  | @array xs ys h =>
      have hitems : ∀ x ∈ xs, ∀ y, x.Alike y → ofJson x = ofJson y := by
        intro x hx y hxy
        have := List.sizeOf_lt_of_mem hx
        exact ofJson_eq_of_alike hxy
      rw [ofJson, ofJson, ofItems_eq_map, ofItems_eq_map]
      congr 1
      induction h with
      | nil => rfl
      | cons hxy _ ih =>
          obtain ⟨hx, hxs⟩ := List.forall_mem_cons.mp hitems
          rw [List.map_cons, List.map_cons, hx _ hxy, ih hxs]
  | @object xs ys h =>
      rw [ofJson, ofJson]
      congr 1
      apply Table.eq_of_get?_eq (sorted_ofMembers xs) (sorted_ofMembers ys)
      intro name
      rw [get?_ofMembers, get?_ofMembers]
      have hname := h name
      generalize hx : Table.get? xs name = x at hname ⊢
      generalize Table.get? ys name = y at hname ⊢
      cases hname with
      | some hxy =>
          have := Table.sizeOf_lt_of_get? hx
          rw [Option.map_some, Option.map_some, ofJson_eq_of_alike hxy]
      | none => rfl
termination_by sizeOf x

end Value

/-! ### The names of an expression -/

namespace Condition

namespace Expr

mutual

/-- The names that stand for something in an expression. -/
def names : Expr → List String
  | .name text => [text]
  | .paren e => names e
  | .unary _ e => names e
  | .binary _ left right => names left ++ names right
  | .conditional test yes no => names test ++ names yes ++ names no
  | .sequence es => namesOfAll es
  | .template parts => namesOfParts parts
  | .array items => namesOfItems items
  | .member _ object _ => names object
  | .privateMember _ object => names object
  | .index _ object key => names object ++ names key
  | .call _ callee arguments => names callee ++ namesOfItems arguments
  | _ => []

/-- The names of some expressions. -/
def namesOfAll : List Expr → List String
  | [] => []
  | e :: es => names e ++ namesOfAll es

/-- The names of the parts of a template. -/
def namesOfParts : List Part → List String
  | [] => []
  | .piece _ :: parts => namesOfParts parts
  | .value e :: parts => names e ++ namesOfParts parts

/-- The names of some items. -/
def namesOfItems : List Item → List String
  | [] => []
  | .value e :: items => names e ++ namesOfItems items
  | _ :: items => namesOfItems items

end

end Expr

/-- Whether two tables of symbols give alike values for a name, or none. -/
def Agree (s t : Symbols) (name : String) : Prop :=
  Option.Rel Json.Alike (Table.get? s name) (Table.get? t name)

theorem Agree.lookup {s t : Symbols} {name : String} (h : Agree s t name) :
  lookup s name = lookup t name
  := by
  unfold Agree at h
  unfold Condition.lookup
  generalize Table.get? s name = x at h ⊢
  generalize Table.get? t name = y at h ⊢
  cases h with
  | some hxy => simp only [Value.ofJson_eq_of_alike hxy]
  | none => rfl

/-! ### Evaluation over symbols that agree -/

namespace Expr

variable {s t : Symbols}

theorem eq_name_of_name? {e : Expr} {text : String} (h : e.name? = some text) :
  e = .name text
  := by
  cases e with
  | name text => simpa [name?] using h
  | _ => simp [name?] at h

-- Each function of the evaluator asks the symbols for the names of its own part of the expression
-- only; the induction follows the recursion of the six functions.
mutual

theorem run_congr (e : Expr) (h : ∀ name ∈ names e, Agree s t name) :
  run s e = run t e
  := by
  cases e with
  | name text =>
      have htext := h text (by simp [names])
      rw [run, run, htext.lookup]
  | paren e =>
      rw [names] at h
      rw [run, run, run_congr e h]
  | unary op e =>
      rw [names] at h
      have he := run_congr e h
      cases hname : e.name? with
      | some text =>
          obtain rfl := eq_name_of_name? hname
          have htext := h text (by simp [names])
          cases op <;> simp only [run, name?, htext.lookup]
      | none => cases op <;> simp only [run, hname, he]
  | binary op left right =>
      rw [names, List.forall_mem_append] at h
      rw [run, run, run_congr left h.1, run_congr right h.2]
  | conditional test yes no =>
      rw [names, List.forall_mem_append, List.forall_mem_append] at h
      rw [run, run, run_congr test h.1.1, run_congr yes h.1.2, run_congr no h.2]
  | sequence es =>
      rw [names] at h
      rw [run, run, runLast_congr es h]
  | template parts =>
      rw [names] at h
      rw [run, run, runParts_congr parts h]
  | array items =>
      rw [names] at h
      rw [run, run, runElements_congr items h]
  | member link object key =>
      rw [names] at h
      rw [run, run, run_congr object h]
  | privateMember link object =>
      rw [names] at h
      rw [run, run, run_congr object h]
  | index link object key =>
      rw [names, List.forall_mem_append] at h
      rw [run, run, run_congr object h.1, run_congr key h.2]
  | call link callee arguments =>
      rw [names, List.forall_mem_append] at h
      rw [run, run, runArguments_congr arguments h.2, runCall_congr callee h.1]
  | string value => cases value <;> rw [run, run]
  | _ => rw [run, run]

theorem runLast_congr (es : List Expr) (h : ∀ name ∈ namesOfAll es, Agree s t name)
    (last : Value) :
  runLast s last es = runLast t last es
  := by
  cases es with
  | nil => rw [runLast, runLast]
  | cons e es =>
      rw [namesOfAll, List.forall_mem_append] at h
      rw [runLast, runLast, run_congr e h.1]
      simp only [runLast_congr es h.2]

theorem runParts_congr (parts : List Part) (h : ∀ name ∈ namesOfParts parts, Agree s t name) :
  runParts s parts = runParts t parts
  := by
  cases parts with
  | nil => rw [runParts, runParts]
  | cons part parts =>
      cases part with
      | piece value =>
          rw [namesOfParts] at h
          cases value with
          | none => rw [runParts, runParts]
          | some text => rw [runParts, runParts, runParts_congr parts h]
      | value e =>
          rw [namesOfParts, List.forall_mem_append] at h
          rw [runParts, runParts, run_congr e h.1, runParts_congr parts h.2]

theorem runElements_congr (items : List Item) (h : ∀ name ∈ namesOfItems items, Agree s t name) :
  runElements s items = runElements t items
  := by
  cases items with
  | nil => rw [runElements, runElements]
  | cons item items =>
      cases item with
      | hole =>
          rw [namesOfItems] at h
          rw [runElements, runElements, runElements_congr items h]
          simp
      | spread => rw [runElements, runElements]
      | value e =>
          rw [namesOfItems, List.forall_mem_append] at h
          rw [runElements, runElements, run_congr e h.1, runElements_congr items h.2]

theorem runArguments_congr (items : List Item) (h : ∀ name ∈ namesOfItems items, Agree s t name) :
  runArguments s items = runArguments t items
  := by
  cases items with
  | nil => rw [runArguments, runArguments]
  | cons item items =>
      cases item with
      | hole =>
          rw [namesOfItems] at h
          rw [runArguments, runArguments, runArguments_congr items h]
          simp
      | spread => rw [runArguments, runArguments]
      | value e =>
          rw [namesOfItems, List.forall_mem_append] at h
          rw [runArguments, runArguments, run_congr e h.1, runArguments_congr items h.2]

theorem runCall_congr (callee : Expr) (h : ∀ name ∈ names callee, Agree s t name)
    (arguments : Except EvalError (List Value)) :
  runCall s arguments callee = runCall t arguments callee
  := by
  cases callee with
  | paren e =>
      rw [names] at h
      rw [runCall, runCall, runCall_congr e h]
  | member link object key =>
      rw [names] at h
      rw [runCall, runCall, run_congr object h]
  | privateMember link object =>
      rw [names] at h
      rw [runCall, runCall, run_congr object h]
  | index link object key =>
      rw [names, List.forall_mem_append] at h
      rw [runCall, runCall, run_congr object h.1, run_congr key h.2]
  | _ => simp only [runCall]

end

theorem eval_congr (e : Expr) (h : ∀ name ∈ e.names, Agree s t name) :
  e.eval s = e.eval t
  := by
  rw [eval, eval, run_congr e h]

end Expr

/-- A condition has the same value, or fails for the same cause, over symbols that agree on the
names in it. -/
theorem evaluate_eq_of_agree {text : String} {s t : Symbols}
    (h : ∀ e, parse text = .ok e → ∀ name ∈ e.names, Agree s t name) :
  evaluate s text = evaluate t text
  := by
  unfold evaluate
  cases htext : parse text with
  | error cause => rfl
  | ok e =>
      have he := Expr.eval_congr e (h e htext)
      simp only [bind, Except.bind, he]

/-- The members of an object in another order, and a further symbol: the condition fails over both
tables for the same cause, since the name `X` has no value. -/
theorem evaluate_eq_of_agree_object :
  evaluate
      [("ENV", .object [("mode", .string "a"), ("debug", .bool true)]), ("DEBUG", .bool true)]
      "ENV.debug && !X"
    = evaluate [("ENV", .object [("debug", .bool true), ("mode", .string "a")])] "ENV.debug && !X"
  := by
  apply evaluate_eq_of_agree
  intro e he
  have hnames : (parse "ENV.debug && !X").toOption.map Expr.names = some ["ENV", "X"] := by
    decide +kernel
  rw [he] at hnames
  have henv : e.names = ["ENV", "X"] := by simpa [Except.toOption] using hnames
  rw [henv, List.forall_mem_cons, List.forall_mem_singleton]
  constructor
  · exact Option.Rel.some (Json.Alike.of_perm (List.Perm.swap _ _ _) (by decide))
  · exact Option.Rel.none

end Condition

end Prune
