import Mathlib.Data.List.Basic
import Prune.Proofs.Edit.Untouched
import Prune.Proofs.Elision.Isolation

/-!
# Rows of members

How a separated series is written down (`Row`): slots that a separator stands between each two of,
each slot with one member or none, and with blanks and comments around it (`Filler`).  The search for
a separator behind a member of a row finds the one that ends its slot, and none behind the member of
the last slot (`Elision.Written.separatorAfter_cons`, `Elision.Written.separatorAfter_last`), so that
what is deleted of a separated series can be told slot by slot (`Elision.rowEdits`,
`Elision.mem_rowEdits_iff`).
-/

namespace Prune

open Text
open Source (Tree Span Rule)

/-! ### What stands beside separators -/

/-- A blank or a comment. -/
inductive Filler where
  | blank (c : Char)
  /-- A comment that a line feed ends, with the line feed. -/
  | line (body : List Char)
  | block (body : List Char)

namespace Filler

/-- How a filler is written down. -/
def text : Filler → List Char
  | blank c => [c]
  | line body => '/' :: '/' :: (body ++ ['\n'])
  | block body => '/' :: '*' :: (body ++ ['*', '/'])

/-- Whether a filler can be read: a blank is one of ASCII, and a comment ends where its text does. -/
def Readable : Filler → Prop
  | blank c => isAsciiBlank c = true
  | line body => '\n' ∉ body
  | block body => ¬['*', '/'] <:+: body

instance : (f : Filler) → Decidable f.Readable
  | blank c => inferInstanceAs (Decidable (isAsciiBlank c = true))
  | line body => inferInstanceAs (Decidable ('\n' ∉ body))
  | block body => inferInstanceAs (Decidable (¬['*', '/'] <:+: body))

end Filler

/-- How fillers are written down. -/
def fillersText (fs : List Filler) : List Char :=
  fs.flatMap Filler.text

@[simp] theorem fillersText_nil :
  fillersText [] = []
  := rfl

@[simp] theorem fillersText_cons (f : Filler) (fs : List Filler) :
  fillersText (f :: fs) = f.text ++ fillersText fs
  := rfl

@[simp] theorem fillersText_append (fs gs : List Filler) :
  fillersText (fs ++ gs) = fillersText fs ++ fillersText gs
  := List.flatMap_append

namespace Elision

variable {separators cs : List Char} {pos : Nat} {c : Char}

theorem separatorFrom_line {body : List Char} (hbody : '\n' ∉ body) :
  separatorFrom separators .lineComment pos (body ++ '\n' :: cs)
    = separatorFrom separators .blank (pos + byteLength body + 1) cs
  := by
  induction body generalizing pos with
  | nil => rfl
  | cons d body ih =>
      obtain ⟨hd, hbody⟩ := not_or.mp (mt List.mem_cons.mpr hbody)
      have hd : (d == '\n') = false := by simpa using Ne.symm hd
      rw [List.cons_append, separatorFrom, hd, if_neg (by simp), ih hbody, byteLength_cons,
        Nat.add_assoc pos]

theorem separatorFrom_block {body : List Char} (hbody : ¬['*', '/'] <:+: body) :
  separatorFrom separators (.blockComment 0) pos (body ++ '*' :: '/' :: cs)
    = separatorFrom separators .blank (pos + byteLength body + 2) cs
  := by
  induction body generalizing pos with
  | nil => simp [separatorFrom]; rfl
  | cons d body ih =>
      have hrest : ¬['*', '/'] <:+: body := fun h => hbody (h.trans (List.suffix_cons d body).isInfix)
      have hd : (d == '*' && (body ++ '*' :: '/' :: cs).head? == some '/') = false := by
        by_contra h
        rw [Bool.not_eq_false] at h
        obtain ⟨rfl, tail, htail⟩ := eq_of_mark h
        cases body with
        | nil => simp at htail
        | cons d body =>
            obtain ⟨rfl, -⟩ := List.cons.inj htail
            exact hbody ⟨[], body, rfl⟩
      rw [List.cons_append, separatorFrom, hd, if_neg (by simp), ih hrest, byteLength_cons,
        Nat.add_assoc pos]

/-- The search for a separator goes past a filler. -/
theorem separatorFrom_filler {f : Filler} (hf : f.Readable) :
  separatorFrom separators .blank pos (f.text ++ cs)
    = separatorFrom separators .blank (pos + byteLength f.text) cs
  := by
  have hslash : isAsciiBlank '/' = false := rfl
  cases f with
  | blank c =>
      have hc : isAsciiBlank c = true := hf
      rw [Filler.text, List.singleton_append, separatorFrom]
      simp [hc]
  | line body =>
      have hbody : '\n' ∉ '/' :: body := by
        rw [List.mem_cons, not_or]
        exact ⟨by decide, hf⟩
      have hcs : (Filler.line body).text ++ cs = '/' :: '/' :: (body ++ '\n' :: cs) := by
        simp [Filler.text]
      have hstep : separatorFrom separators .blank pos ('/' :: '/' :: (body ++ '\n' :: cs))
          = separatorFrom separators .lineComment (pos + 1) (('/' :: body) ++ '\n' :: cs) := by
        rw [separatorFrom]
        simp [hslash]
        rfl
      rw [hcs, hstep, separatorFrom_line hbody]
      congr 1
      simp [Filler.text]
      have : '/'.utf8Size = 1 := rfl
      have : '\n'.utf8Size = 1 := rfl
      omega
  | block body =>
      have hcs : (Filler.block body).text ++ cs = '/' :: '*' :: (body ++ '*' :: '/' :: cs) := by
        simp [Filler.text]
      have hstep : separatorFrom separators .blank pos ('/' :: '*' :: (body ++ '*' :: '/' :: cs))
          = separatorFrom separators (.blockComment 0) (pos + 2) (body ++ '*' :: '/' :: cs) := by
        rw [separatorFrom]
        simp [hslash, separatorFrom]
        rfl
      rw [hcs, hstep, separatorFrom_block hf]
      congr 1
      simp [Filler.text]
      have : '/'.utf8Size = 1 := rfl
      have : '*'.utf8Size = 1 := rfl
      omega

theorem separatorFrom_fillers {fs : List Filler} (hfs : ∀ f ∈ fs, f.Readable) :
  separatorFrom separators .blank pos (fillersText fs ++ cs)
    = separatorFrom separators .blank (pos + byteLength (fillersText fs)) cs
  := by
  induction fs generalizing pos with
  | nil => rfl
  | cons f fs ih =>
      obtain ⟨hf, hfs⟩ := List.forall_mem_cons.mp hfs
      rw [fillersText_cons, List.append_assoc, separatorFrom_filler hf, ih hfs, byteLength_append,
        Nat.add_assoc]

/-- What ends a row: no blank, comment or separator stands there. -/
def Ends (separators : List Char) (post : List Char) : Prop :=
  ∀ c cs, post = c :: cs → isAsciiBlank c = false ∧ c ∉ separators ∧
    ¬(c = '/' ∧ (cs.head? = some '/' ∨ cs.head? = some '*'))

theorem separatorFrom_ends (h : Ends separators cs) :
  separatorFrom separators .blank pos cs = none
  := by
  cases cs with
  | nil => rfl
  | cons c cs =>
      obtain ⟨hblank, hnot, hcomment⟩ := h c cs rfl
      rw [separatorFrom]
      simp only [hblank, Bool.false_eq_true, if_false]
      split
      · next hline =>
        obtain ⟨rfl, tail, rfl⟩ := eq_of_mark hline
        simp at hcomment
      · split
        · next hblock =>
          obtain ⟨rfl, tail, rfl⟩ := eq_of_mark hblock
          simp at hcomment
        · simp [hnot]

end Elision

/-! ### Rows -/

/-- A member of a series and how it is written down. -/
structure Item where
  tree : Tree
  text : List Char

/-- What stands between two separators: a member or none, and fillers around it. -/
structure Slot where
  lead : List Filler
  item? : Option Item
  trail : List Filler

/-- Slots with a separator between each two. -/
inductive Row where
  | last (s : Slot)
  | cons (s : Slot) (separator : Char) (rest : Row)

/-- How a slot is written down. -/
def Slot.text (s : Slot) : List Char :=
  fillersText s.lead ++ ((s.item?.map Item.text).getD [] ++ fillersText s.trail)

/-- Whether the fillers of a slot can be read. -/
def Slot.Readable (s : Slot) : Prop :=
  (∀ f ∈ s.lead, f.Readable) ∧ ∀ f ∈ s.trail, f.Readable

instance (s : Slot) : Decidable s.Readable :=
  inferInstanceAs (Decidable (_ ∧ _))

namespace Row

/-- How a row is written down. -/
def text : Row → List Char
  | last s => s.text
  | cons s c rest => s.text ++ c :: rest.text

/-- The member of each slot of a row. -/
def places : Row → List (Option Tree)
  | last s => [s.item?.map Item.tree]
  | cons s _ rest => s.item?.map Item.tree :: rest.places

/-- The members of a row with their texts. -/
def items : Row → List Item
  | last s => s.item?.toList
  | cons s _ rest => s.item?.toList ++ rest.items

/-- The members of a row. -/
def trees (row : Row) : List Tree :=
  row.items.map Item.tree

/-- Whether the fillers of a row can be read and its separators are such. -/
def Readable (separators : List Char) : Row → Prop
  | last s => s.Readable
  | cons s c rest => s.Readable ∧ c ∈ separators ∧ rest.Readable separators

instance decidableReadable (separators : List Char) : (row : Row) → Decidable (row.Readable separators)
  | last s => inferInstanceAs (Decidable s.Readable)
  | cons s c rest =>
    have := decidableReadable separators rest
    inferInstanceAs (Decidable (s.Readable ∧ c ∈ separators ∧ rest.Readable separators))

theorem trees_last (s : Slot) :
  (last s).trees = (s.item?.map Item.tree).toList
  := by
  cases h : s.item? <;> simp [trees, items, h]

theorem trees_cons (s : Slot) (c : Char) (rest : Row) :
  (cons s c rest).trees = (s.item?.map Item.tree).toList ++ rest.trees
  := by
  cases h : s.item? <;> simp [trees, items, h]

/-- The members of a row are those of its slots. -/
theorem reduceOption_places (row : Row) :
  row.places.filterMap id = row.trees
  := by
  induction row with
  | last s => cases h : s.item? <;> simp [places, trees_last, h]
  | cons s c rest ih =>
      rw [trees_cons, ← ih]
      cases h : s.item? <;> simp [places, h]

end Row

namespace Elision

/-- Whether a member of a row is a member of a series that stands at an offset, with ink at its two
ends, and what goes in it when it stays lies in it. -/
structure Fits (e : Elision) (pos : Nat) (t : Item) : Prop where
  span : t.tree.span = ⟨pos, pos + byteLength t.text⟩
  hole : isHole t.tree = false
  first : ∃ c, t.text.head? = some c ∧ isBlank c = false
  last : ∃ c, t.text.getLast? = some c ∧ isBlank c = false
  inside : e.excluded t.tree.span = false → ∀ edit ∈ (e.visit "null" t.tree).edits,
    edit.Proper e.text ∧ t.tree.span.lo ≤ edit.lo ∧ edit.hi ≤ t.tree.span.hi

/-- Whether the member of a slot fits, if there is one. -/
def FitsSlot (e : Elision) (pos : Nat) (s : Slot) : Prop :=
  ∀ t ∈ s.item?, e.Fits (pos + byteLength (fillersText s.lead)) t

/-- Whether the members of a row fit that starts at an offset. -/
def FitsRow (e : Elision) (pos : Nat) : Row → Prop
  | .last s => e.FitsSlot pos s
  | .cons s _ rest => e.FitsSlot pos s ∧ e.FitsRow (pos + byteLength s.text + 1) rest

/-- Whether a row of members stands between two parts of a text. -/
structure Written (e : Elision) (rule : Rule) (pre : List Char) (row : Row) (post : List Char) :
    Prop where
  text : e.text = pre ++ (row.text ++ post)
  readable : row.Readable rule.separators
  fits : e.FitsRow (byteLength pre) row
  ends : Ends rule.separators post

theorem isHole_of_fitsRow {e : Elision} {pos : Nat} {row : Row} (h : e.FitsRow pos row) :
  ∀ t ∈ row.trees, isHole t = false
  := by
  induction row generalizing pos with
  | last s =>
      rw [Row.trees_last]
      cases ht : s.item? with
      | none => simp
      | some t => simpa using (h t ht).hole
  | cons s c others ih =>
      rw [Row.trees_cons]
      have hrest := ih h.2
      cases ht : s.item? with
      | none => simpa using hrest
      | some t => simpa using ⟨(h.1 t ht).hole, hrest⟩

variable {e : Elision} {rule : Rule} {pre post : List Char} {row others : Row} {s : Slot} {t : Item}
  {edit : Edit} {items : List Tree} {separators : List Char} {pos : Nat} {c : Char}

namespace Written

theorem utf8Size (h : e.Written rule pre (.cons s c others) post) :
  c.utf8Size = 1
  := utf8Size_of_mem_separators h.readable.2.1

theorem byteLength_front (h : e.Written rule pre (.cons s c others) post) :
  byteLength (pre ++ (s.text ++ [c])) = byteLength pre + byteLength s.text + 1
  := by
  simp only [byteLength_append, Text.byteLength_cons, byteLength_nil, h.utf8Size]
  omega

/-- What stands behind the first separator is a row, too. -/
theorem behind (h : e.Written rule pre (.cons s c others) post) :
  e.Written rule (pre ++ (s.text ++ [c])) others post
  := by
  constructor
  · rw [h.text, Row.text]
    simp
  · exact h.readable.2.2
  · rw [h.byteLength_front]
    exact h.fits.2
  · exact h.ends

theorem stands (h : e.Written rule pre row post) :
  Stands e.text (row.text ++ post) (byteLength pre)
  := ⟨pre, h.text, rfl⟩

theorem stands_cons (h : e.Written rule pre (.cons s c others) post) :
  Stands e.text (s.text ++ c :: (others.text ++ post)) (byteLength pre)
  := by
  use pre
  rw [h.text, Row.text]
  simp

theorem byteLength_cons (h : e.Written rule pre (.cons s c others) post) :
  byteLength (Row.cons s c others).text = byteLength s.text + 1 + byteLength others.text
  := by
  rw [Row.text, byteLength_append, Text.byteLength_cons, h.utf8Size, Nat.add_assoc]

/-- The search for a separator behind the member of a slot. -/
theorem separatorAfter_slot {tail : List Char} (htext : e.text = pre ++ (s.text ++ tail))
    (hreadable : s.Readable) (hfits : e.FitsSlot (byteLength pre) s) (ht : t ∈ s.item?) :
  e.separatorAfter? separators t.tree.span.hi
    = separatorFrom separators .blank (byteLength pre + byteLength s.text) tail
  := by
  have hspan := (hfits t ht).span
  rw [Option.mem_def] at ht
  have hstands : Stands e.text (fillersText s.trail ++ tail) t.tree.span.hi := by
    use pre ++ (fillersText s.lead ++ t.text)
    constructor
    · rw [htext, Slot.text, ht]
      simp
    · rw [hspan]
      simp [Nat.add_assoc]
  rw [separatorAfter_eq hstands, separatorFrom_fillers hreadable.2]
  congr 1
  rw [hspan, Slot.text, ht]
  simp [Nat.add_assoc]

/-- Behind the member of a slot stands the separator that ends the slot. -/
theorem separatorAfter_cons (h : e.Written rule pre (.cons s c others) post) (ht : t ∈ s.item?) :
  e.separatorAfter? rule.separators t.tree.span.hi = some (byteLength pre + byteLength s.text)
  := by
  have htext : e.text = pre ++ (s.text ++ (c :: (others.text ++ post))) := by
    rw [h.text, Row.text]
    simp
  rw [separatorAfter_slot htext h.readable.1 h.fits.1 ht, separatorFrom_separator h.readable.2.1]

/-- Behind the member of the last slot stands no separator. -/
theorem separatorAfter_last (h : e.Written rule pre (.last s) post) (ht : t ∈ s.item?) :
  e.separatorAfter? rule.separators t.tree.span.hi = none
  := by
  rw [separatorAfter_slot h.text h.readable h.fits ht, separatorFrom_ends h.ends]

end Written

/-- Where the parts of a slot with a member stand in a text. -/
structure SlotAt (e : Elision) (pos : Nat) (s : Slot) (t : Item) (tail : List Char) : Prop where
  lead : Stands e.text (fillersText s.lead ++ (t.text ++ (fillersText s.trail ++ tail))) pos
  item : Stands e.text (t.text ++ (fillersText s.trail ++ tail)) t.tree.span.lo
  trail : Stands e.text (fillersText s.trail ++ tail) t.tree.span.hi
  tail : Stands e.text tail (pos + byteLength s.text)
  lo : t.tree.span.lo = pos + byteLength (fillersText s.lead)
  hi : t.tree.span.hi = t.tree.span.lo + byteLength t.text
  stop : pos + byteLength s.text = t.tree.span.hi + byteLength (fillersText s.trail)
  lt : t.tree.span.lo < t.tree.span.hi

theorem slotAt {tail : List Char} (hstands : Stands e.text (s.text ++ tail) pos)
    (hfits : e.FitsSlot pos s) (ht : t ∈ s.item?) :
  e.SlotAt pos s t tail
  := by
  have hspan := (hfits t ht).span
  obtain ⟨c, hfirst, -⟩ := (hfits t ht).first
  obtain ⟨cs, hcs⟩ := List.head?_eq_some_iff.mp hfirst
  have hsize := c.utf8Size_pos
  rw [Option.mem_def] at ht
  have htext : s.text = fillersText s.lead ++ (t.text ++ fillersText s.trail) := by
    rw [Slot.text, ht]
    rfl
  have hlead : Stands e.text (fillersText s.lead ++ (t.text ++ (fillersText s.trail ++ tail))) pos := by
    rw [htext] at hstands
    simpa using hstands
  have hlo : t.tree.span.lo = pos + byteLength (fillersText s.lead) := by rw [hspan]
  have hhi : t.tree.span.hi = t.tree.span.lo + byteLength t.text := by rw [hspan]
  refine ⟨hlead, ?_, ?_, hstands.append, hlo, hhi, ?_, ?_⟩
  · rw [hlo]
    exact hlead.append
  · rw [hhi, hlo]
    exact hlead.append.append
  · rw [hhi, hlo, htext]
    simp [Nat.add_assoc]
  · rw [hhi, hcs, byteLength_cons]
    omega

/-! ### What is deleted of a row -/

/-- Whether there are members, and all of them go. -/
def tailGoes (e : Elision) (items : List Tree) : Bool :=
  !items.isEmpty && items.all fun t => e.excluded t.span

/-- What is deleted of a slot that a separator ends: a member with what stands behind it and the
separator; of a member that stays what goes in it, and the separator if `tail` says so. -/
def slotEdits (e : Elision) (stop : Nat) (tail : Bool) (s : Slot) : List Edit :=
  match s.item? with
  | none => []
  | some t =>
    if e.excluded t.tree.span then [⟨t.tree.span.lo, stop + 1, ""⟩]
    else (e.visit "null" t.tree).edits ++ if tail then [⟨stop, stop + 1, ""⟩] else []

/-- What is deleted of the last slot of a row. -/
def lastEdits (e : Elision) (s : Slot) : List Edit :=
  match s.item? with
  | none => []
  | some t =>
    if e.excluded t.tree.span then [⟨t.tree.span.lo, t.tree.span.hi, ""⟩]
    else (e.visit "null" t.tree).edits

/-- What is deleted of a row. -/
def rowEdits (e : Elision) (pos : Nat) : Row → List Edit
  | .last s => e.lastEdits s
  | .cons s _ rest =>
    e.slotEdits (pos + byteLength s.text) (e.tailGoes rest.trees) s
      ++ e.rowEdits (pos + byteLength s.text + 1) rest

/-- The separator that goes because all members behind it do. -/
def looseEdits (e : Elision) (separators : List Char) (items : List Tree) : List Edit :=
  if items.getLast?.any fun t => e.excluded t.span then
    (e.looseSeparator separators (e.lastKept? items)).edits
  else []

theorem lastKept?_cons (t : Tree) (items : List Tree) :
  e.lastKept? (t :: items)
    = (e.lastKept? items).or (if e.goesOrHole t then none else some t.span)
  := by
  rw [lastKept?, List.filter_cons, lastKept?]
  cases hgoes : e.goesOrHole t with
  | true => simp
  | false =>
      simp only [Bool.not_false, if_true, List.getLast?_cons, Bool.false_eq_true, if_false]
      cases (items.filter fun t => !e.goesOrHole t).getLast? <;> simp

theorem lastKept?_eq_none_iff (hholes : ∀ t ∈ items, isHole t = false) :
  e.lastKept? items = none ↔ items.all (fun t => e.excluded t.span) = true
  := by
  rw [lastKept?, Option.map_eq_none_iff, List.getLast?_eq_none_iff, List.filter_eq_nil_iff,
    List.all_eq_true]
  apply forall₂_congr
  intro t ht
  simp [goesOrHole, hholes t ht]

theorem looseEdits_cons {t : Tree} (hholes : ∀ t ∈ items, isHole t = false)
    (hhole : isHole t = false) :
  e.looseEdits separators (t :: items)
    = if !e.excluded t.span && e.tailGoes items then
        (e.looseSeparator separators (some t.span)).edits
      else e.looseEdits separators items
  := by
  cases items with
  | nil =>
      cases hgoes : e.excluded t.span <;>
        simp [looseEdits, tailGoes, lastKept?, goesOrHole, hgoes, looseSeparator, Found.none]
  | cons u items =>
      rw [looseEdits, List.getLast?_cons_cons, lastKept?_cons t]
      cases hgoes : e.excluded t.span with
      | true => simp [goesOrHole, hgoes, looseEdits]
      | false =>
          simp only [goesOrHole, hhole, hgoes, Bool.or_self, Bool.not_false, Bool.true_and,
            Bool.false_eq_true, if_false]
          by_cases hall : (u :: items).all (fun t => e.excluded t.span) = true
          · have htail : e.tailGoes (u :: items) = true := by
              rw [tailGoes, hall]
              rfl
            have hlast : (u :: items).getLast?.any (fun t => e.excluded t.span) = true := by
              rw [List.getLast?_eq_some_getLast (List.cons_ne_nil _ _)]
              exact List.all_eq_true.mp hall _ (List.getLast_mem _)
            rw [htail, hlast, (lastKept?_eq_none_iff hholes).mpr hall]
            rfl
          · have htail : e.tailGoes (u :: items) = false := by
              rw [tailGoes, Bool.not_eq_true] at *
              rw [hall, Bool.and_false]
            obtain ⟨k, hk⟩ : ∃ k, e.lastKept? (u :: items) = some k :=
              Option.ne_none_iff_exists'.mp (mt (lastKept?_eq_none_iff hholes).mp hall)
            rw [htail, hk, looseEdits, hk]
            rfl

theorem looseEdits_of_tailGoes (hholes : ∀ t ∈ items, isHole t = false)
    (h : e.tailGoes items = true) :
  e.looseEdits separators items = []
  := by
  rw [tailGoes, Bool.and_eq_true] at h
  rw [looseEdits, (lastKept?_eq_none_iff hholes).mpr h.2]
  split <;> rfl

/-- The last member of a series goes if all members do from some member on. -/
theorem any_getLast?_cons (t : Tree) (items : List Tree) :
  (t :: items).getLast?.any (fun t => e.excluded t.span) = true ↔
    (e.excluded t.span = true ∧ items.all (fun t => e.excluded t.span) = true) ∨
      items.getLast?.any (fun t => e.excluded t.span) = true
  := by
  cases items with
  | nil => simp
  | cons u items =>
      rw [List.getLast?_cons_cons]
      constructor
      · exact .inr
      · rintro (⟨-, hall⟩ | h)
        · rw [List.getLast?_eq_some_getLast (List.cons_ne_nil _ _)]
          exact List.all_eq_true.mp hall _ (List.getLast_mem _)
        · exact h

/-- What is deleted of a separated series without holes, in whatever order: what is deleted of its
members, and the separator behind the last one that stays if the last one goes. -/
theorem mem_visitSeparated_iff {kept : Option Span} (hholes : ∀ t ∈ items, isHole t = false) :
  edit ∈ (e.visitSeparated separators true kept items).edits ↔
    (∃ t ∈ items, edit ∈ (e.visitMember separators t).edits) ∨
      items.getLast?.any (fun t => e.excluded t.span) = true ∧
        edit ∈ (e.looseSeparator separators kept).edits
  := by
  induction items with
  | nil => simp [visitSeparated, Found.none]
  | cons t items ih =>
      obtain ⟨hhole, hholes⟩ := List.forall_mem_cons.mp hholes
      have hgone : items.all e.goesOrHole = items.all fun t => e.excluded t.span := by
        rw [Bool.eq_iff_iff, List.all_eq_true, List.all_eq_true]
        apply forall₂_congr
        intro u hu
        simp [goesOrHole, hholes u hu]
      rw [visitSeparated, edits_append, List.mem_append, ih hholes, any_getLast?_cons,
        List.exists_mem_cons_iff, visitMember, hhole, hgone]
      generalize (∃ u ∈ items, edit ∈ (e.visitMember separators u).edits) = P
      cases hgoes : e.excluded t.span with
      | true =>
          simp only [Bool.false_eq_true, if_false, if_true, Bool.true_and, edits_append,
            List.mem_append, true_and]
          split
          · next hall =>
            simp only [hall, true_or, true_and]
            tauto
          · next hall =>
            simp only [hall, Found.none, List.not_mem_nil, or_false, Bool.false_eq_true, false_or]
            rw [or_assoc]
      | false =>
          simp only [Bool.false_eq_true, if_false, false_and, false_or]
          rw [or_assoc]

/-- What is deleted of a row is what is deleted of the series of its members. -/
theorem mem_rowEdits_iff (h : e.Written rule pre row post) :
  edit ∈ e.rowEdits (byteLength pre) row ↔
    (∃ t ∈ row.trees, edit ∈ (e.visitMember rule.separators t).edits) ∨
      edit ∈ e.looseEdits rule.separators row.trees
  := by
  induction row generalizing pre with
  | last s =>
      rw [rowEdits, lastEdits, Row.trees_last]
      cases ht : s.item? with
      | none => simp [looseEdits]
      | some t =>
          have hfits := h.fits t ht
          have hsep := h.separatorAfter_last ht
          cases hgoes : e.excluded t.tree.span <;>
            simp [looseEdits, lastKept?, goesOrHole, visitMember, goneWithSeparator, gone,
              looseSeparator, Found.none, hfits.hole, hgoes, hsep]
  | cons s c others ih =>
      have hrest := ih h.behind
      rw [h.byteLength_front] at hrest
      rw [rowEdits, slotEdits, List.mem_append, hrest, Row.trees_cons]
      cases ht : s.item? with
      | none => simp
      | some t =>
          have hfits := h.fits.1 t ht
          have hsep := h.separatorAfter_cons ht
          have hholes := isHole_of_fitsRow h.behind.fits
          rw [Option.map_some, Option.toList_some, List.singleton_append, List.exists_mem_cons_iff,
            looseEdits_cons hholes hfits.hole]
          rw [visitMember, hfits.hole]
          cases hgoes : e.excluded t.tree.span with
          | true =>
              simp only [hgoes, if_true, Bool.false_eq_true, if_false, Bool.not_true, Bool.false_and,
                goneWithSeparator, hsep, gone]
              rw [or_assoc]
          | false =>
              cases htail : e.tailGoes others.trees with
              | true =>
                  have hloose : (e.looseSeparator rule.separators (some t.tree.span)).edits
                      = [⟨byteLength pre + byteLength s.text, byteLength pre + byteLength s.text + 1,
                        ""⟩] := by
                    rw [looseSeparator, Option.bind_some, hsep]
                  simp only [hgoes, hloose, looseEdits_of_tailGoes hholes htail, if_true,
                    Bool.false_eq_true, if_false, Bool.not_false, Bool.and_self, List.mem_append,
                    List.not_mem_nil, or_false]
                  exact or_right_comm
              | false =>
                  simp only [hgoes, Bool.false_eq_true, if_false, Bool.and_false, List.append_nil]
                  rw [or_assoc]

theorem proper_deletion {text : List Char} {lo hi : Nat} (hlt : lo < hi) (hlo : Boundary text lo)
    (hhi : Boundary text hi) :
  Edit.Proper text ⟨lo, hi, ""⟩
  := ⟨⟨Nat.le_of_lt hlt, hlo, hhi⟩, hlt, inked_deletion _ _ _⟩

theorem proper_of_mem_slotEdits {tail : Bool} (h : e.Written rule pre (.cons s c others) post)
    (hedit : edit ∈ e.slotEdits (byteLength pre + byteLength s.text) tail s) :
  edit.Proper e.text ∧ byteLength pre ≤ edit.lo ∧
    edit.hi ≤ byteLength pre + byteLength s.text + 1
  := by
  rw [slotEdits] at hedit
  cases ht : s.item? with
  | none => simp [ht] at hedit
  | some t =>
      have hat := slotAt h.stands_cons h.fits.1 ht
      have hend := hat.tail.cons.boundary
      rw [h.utf8Size] at hend
      have hlo := hat.lo
      have hlt := hat.lt
      have hstop := hat.stop
      rw [ht] at hedit
      dsimp only at hedit
      split at hedit
      · obtain rfl := List.mem_singleton.mp hedit
        refine ⟨proper_deletion (by omega) hat.item.boundary hend, ?_, Nat.le_refl _⟩
        change _ ≤ t.tree.span.lo
        omega
      · next hstays =>
        obtain hedit | hedit := List.mem_append.mp hedit
        · obtain ⟨hproper, hle, hle'⟩ := (h.fits.1 t ht).inside (by simpa using hstays) edit hedit
          exact ⟨hproper, by omega, by omega⟩
        · split at hedit
          · obtain rfl := List.mem_singleton.mp hedit
            exact ⟨proper_deletion (Nat.lt_succ_self _) hat.tail.boundary hend, Nat.le_add_right _ _,
              Nat.le_refl _⟩
          · simp at hedit

theorem proper_of_mem_lastEdits (h : e.Written rule pre (.last s) post)
    (hedit : edit ∈ e.lastEdits s) :
  edit.Proper e.text ∧ byteLength pre ≤ edit.lo ∧ edit.hi ≤ byteLength pre + byteLength s.text
  := by
  rw [lastEdits] at hedit
  cases ht : s.item? with
  | none => simp [ht] at hedit
  | some t =>
      have hat := slotAt h.stands h.fits ht
      have hlo := hat.lo
      have hstop := hat.stop
      rw [ht] at hedit
      dsimp only at hedit
      split at hedit
      · obtain rfl := List.mem_singleton.mp hedit
        refine ⟨proper_deletion hat.lt hat.item.boundary hat.trail.boundary, ?_, ?_⟩
        · change _ ≤ t.tree.span.lo
          omega
        · change t.tree.span.hi ≤ _
          omega
      · next hstays =>
        obtain ⟨hproper, hle, hle'⟩ := (h.fits t ht).inside (by simpa using hstays) edit hedit
        exact ⟨hproper, by omega, by omega⟩

/-- What is deleted of a row takes out something of the row. -/
theorem proper_of_mem_rowEdits (h : e.Written rule pre row post)
    (hedit : edit ∈ e.rowEdits (byteLength pre) row) :
  edit.Proper e.text ∧ byteLength pre ≤ edit.lo ∧
    edit.hi ≤ byteLength pre + byteLength row.text
  := by
  induction row generalizing pre with
  | last s => exact proper_of_mem_lastEdits h hedit
  | cons s c others ih =>
      rw [h.byteLength_cons]
      obtain hedit | hedit := List.mem_append.mp hedit
      · obtain ⟨hproper, hle, hle'⟩ := proper_of_mem_slotEdits h hedit
        exact ⟨hproper, by omega, by omega⟩
      · rw [← h.byteLength_front] at hedit
        obtain ⟨hproper, hle, hle'⟩ := ih h.behind hedit
        rw [h.byteLength_front] at hle hle'
        exact ⟨hproper, by omega, by omega⟩

end Elision

end Prune
