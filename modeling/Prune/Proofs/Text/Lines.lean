import Mathlib.Data.List.Basic
import Mathlib.Data.List.TakeWhile
import Prune.Proofs.Text.Offsets
import Prune.Text.Blank

/-!
# Lines

The lines of a text with the line feeds that end them (`lines`), of which only the last one may lack a
line feed (`exists_of_lines`), and how many of them are blank (`blankLines`).  What is left of a text
when some characters are taken out has no more blank lines than the text, if a line of it has ink
where the line of the text does that ends at the same place (`blankLines_filter_le`).
-/

namespace Prune.Text

/-- The lines of a text, each with the line feed that ends it. -/
def lines : List Char → List (List Char)
  | [] => []
  | c :: cs =>
    if c = '\n' then [c] :: lines cs
    else
      match lines cs with
      | [] => [[c]]
      | line :: rest => (c :: line) :: rest

/-- The number of lines of a text that are blank. -/
def blankLines (cs : List Char) : Nat :=
  (lines cs).countP fun line => line.all isBlank

variable {line cs : List Char} {front back : List (List Char)} {c : Char}

theorem flatten_lines (cs : List Char) :
  (lines cs).flatten = cs
  := by
  induction cs with
  | nil => rfl
  | cons c cs ih =>
      rw [lines]
      split
      · rw [List.flatten_cons, ih, List.singleton_append]
      · split
        · next heq =>
          rw [heq] at ih
          rw [← ih]
          rfl
        · next heq =>
          rw [heq] at ih
          rw [← ih]
          rfl

/-- Each line ends with its first line feed, but the last one may have none. -/
theorem exists_of_lines (h : lines cs = front ++ line :: back) :
  ∃ body, '\n' ∉ body ∧ (line = body ++ ['\n'] ∨ line = body ∧ body ≠ [] ∧ back = [])
  := by
  induction cs generalizing front line with
  | nil => simp [lines] at h
  | cons c cs ih =>
      rw [lines] at h
      split at h
      · next hc =>
        cases front with
        | nil =>
            obtain ⟨rfl, -⟩ := List.cons.inj h
            exact ⟨[], by simp, .inl (by simp [hc])⟩
        | cons first front => exact ih (List.cons.inj h).2
      · next hc =>
        split at h
        · -- the last line of the text
          cases front with
          | nil =>
              obtain ⟨rfl, rfl⟩ := List.cons.inj h
              exact ⟨[c], by simpa using Ne.symm hc, .inr ⟨rfl, by simp, rfl⟩⟩
          | cons first front => simp at h
        · next head tail heq =>
          cases front with
          | nil =>
              obtain ⟨rfl, rfl⟩ := List.cons.inj h
              have hlines : lines cs = [] ++ head :: tail := heq
              obtain ⟨body, hbody, hline⟩ := ih hlines
              use c :: body
              constructor
              · simp [Ne.symm hc, hbody]
              · obtain hline | ⟨hline, -, hback⟩ := hline
                · exact .inl (by rw [hline, List.cons_append])
                · exact .inr ⟨by rw [hline], by simp, hback⟩
          | cons first front =>
              obtain ⟨rfl, htail⟩ := List.cons.inj h
              have hlines : lines cs = (head :: front) ++ line :: back := by
                rw [heq, htail]
                rfl
              exact ih hlines

/-! ### The last line -/

/-- The characters behind the last line feed. -/
def lastLine (cs : List Char) : List Char :=
  (cs.reverse.takeWhile (· != '\n')).reverse

theorem lineFeed_not_mem_lastLine (cs : List Char) :
  '\n' ∉ lastLine cs
  := by
  intro h
  rw [lastLine, List.mem_reverse] at h
  simpa using List.mem_takeWhile_imp h

@[simp] theorem lastLine_nil :
  lastLine [] = []
  := rfl

@[simp] theorem lastLine_append_lineFeed (cs : List Char) :
  lastLine (cs ++ ['\n']) = []
  := by
  simp [lastLine]

theorem lastLine_append (hline : '\n' ∉ line) (cs : List Char) :
  lastLine (cs ++ line) = lastLine cs ++ line
  := by
  rw [lastLine, List.reverse_append, List.takeWhile_append_of_pos, List.reverse_append,
    List.reverse_reverse, lastLine]
  intro c hc
  rw [bne_iff_ne]
  rintro rfl
  exact hline (List.mem_reverse.mp hc)

/-- A line starts behind a line feed, if anything stands before it. -/
theorem lastLine_flatten_front (h : lines cs = front ++ line :: back) :
  lastLine front.flatten = []
  := by
  obtain rfl | ⟨init, last, rfl⟩ := List.eq_nil_or_concat front
  · rfl
  · rw [List.concat_eq_append, List.append_assoc] at h
    obtain ⟨body, -, rfl | ⟨-, -, hnil⟩⟩ := exists_of_lines h
    · rw [List.concat_eq_append, List.flatten_append, List.flatten_singleton, ← List.append_assoc,
        lastLine_append_lineFeed]
    · simp at hnil

/-- A line feed ends a line. -/
theorem lineFeed_not_mem_of_lines {part rest : List Char}
    (h : lines cs = front ++ (part ++ c :: rest) :: back) :
  '\n' ∉ part
  := by
  obtain ⟨body, hbody, heq | ⟨heq, -, -⟩⟩ := exists_of_lines h
  · have hpart : part ++ (c :: rest).dropLast = body := by
      have := congrArg List.dropLast heq
      rwa [List.dropLast_append_cons, List.dropLast_concat] at this
    rw [← hpart] at hbody
    exact fun hmem => hbody (List.mem_append_left _ hmem)
  · rw [← heq] at hbody
    exact fun hmem => hbody (List.mem_append_left _ hmem)

/-! ### Where lines start -/

/-- Where a line of a text starts, which is counted from 0. -/
def lineStart (ls : List (List Char)) (n : Nat) : Nat :=
  byteLength (ls.take n).flatten

theorem lineStart_succ (ls : List (List Char)) (n : Nat) :
  lineStart ls (n + 1) = lineStart ls n + byteLength (ls.getD n [])
  := by
  rw [lineStart, List.take_add_one, List.flatten_append, byteLength_append, lineStart,
    List.getD_eq_getElem?_getD]
  cases ls[n]? with
  | none => simp
  | some line => simp

theorem lineStart_mono (ls : List (List Char)) {m n : Nat} (h : m ≤ n) :
  lineStart ls m ≤ lineStart ls n
  := by
  obtain ⟨k, rfl⟩ := Nat.exists_eq_add_of_le h
  rw [lineStart, lineStart, List.take_add, List.flatten_append, byteLength_append]
  apply Nat.le_add_right

/-- Where the lines behind the first one start. -/
theorem lineStart_cons (line : List Char) (ls : List (List Char)) (n : Nat) :
  lineStart (line :: ls) (n + 1) = byteLength line + lineStart ls n
  := by
  rw [lineStart, List.take_succ_cons, List.flatten_cons, byteLength_append, lineStart]

/-! ### Blank lines -/

theorem lines_append_lineFeed (hline : '\n' ∉ line) (cs : List Char) :
  lines (line ++ '\n' :: cs) = (line ++ ['\n']) :: lines cs
  := by
  induction line with
  | nil => simp [lines]
  | cons c line ih =>
      obtain ⟨hc, hline⟩ := not_or.mp (mt List.mem_cons.mpr hline)
      rw [List.cons_append, lines, if_neg (Ne.symm hc), ih hline]
      rfl

theorem lines_eq_singleton (hline : '\n' ∉ line) (hne : line ≠ []) :
  lines line = [line]
  := by
  induction line with
  | nil => contradiction
  | cons c line ih =>
      obtain ⟨hc, hline⟩ := not_or.mp (mt List.mem_cons.mpr hline)
      rw [lines, if_neg (Ne.symm hc)]
      cases line with
      | nil => rfl
      | cons d line => rw [ih hline (by simp)]

/-- A line counts if it is blank. -/
theorem blankLines_append_lineFeed (hline : '\n' ∉ line) (cs : List Char) :
  blankLines (line ++ '\n' :: cs) = blankLines cs + if line.all isBlank then 1 else 0
  := by
  have hfeed : isBlank '\n' = true := rfl
  rw [blankLines, lines_append_lineFeed hline, List.countP_cons, blankLines, List.all_append]
  simp [hfeed]

/-- The last line counts if it is blank and not empty. -/
theorem blankLines_of_not_mem (hline : '\n' ∉ line) :
  blankLines line = if line ≠ [] ∧ line.all isBlank then 1 else 0
  := by
  by_cases hne : line = []
  · simp [hne, blankLines, lines]
  · rw [blankLines, lines_eq_singleton hline hne, List.countP_singleton]
    simp [hne]

/-- A text from which characters are taken out has no more blank lines than the text, if no line
that is left with its line feed is blank unless the line of the text is that ends there, and the last
line that is left is blank only if the last line of the text is. -/
theorem blankLines_filter_le {ps : List (Nat × Char)} {keep : Nat × Char → Bool}
    (hfeed : ∀ front p back, ps = front ++ p :: back → p.2 = '\n' → keep p = true →
      (lastLine ((front.filter keep).map Prod.snd)).all isBlank = true →
      (lastLine (front.map Prod.snd)).all isBlank = true)
    (hend : lastLine ((ps.filter keep).map Prod.snd) ≠ [] →
      (lastLine ((ps.filter keep).map Prod.snd)).all isBlank = true →
      lastLine (ps.map Prod.snd) ≠ [] ∧ (lastLine (ps.map Prod.snd)).all isBlank = true) :
  blankLines ((ps.filter keep).map Prod.snd) ≤ blankLines (ps.map Prod.snd)
  := by
  -- from some character on, with what is begun of the line on both sides
  have hrest (front rest : List (Nat × Char)) (heq : ps = front ++ rest) :
      blankLines (lastLine ((front.filter keep).map Prod.snd) ++ (rest.filter keep).map Prod.snd)
        ≤ blankLines (lastLine (front.map Prod.snd) ++ rest.map Prod.snd) := by
    induction rest generalizing front with
    | nil =>
        rw [List.append_nil] at heq
        subst heq
        simp only [List.filter_nil, List.map_nil, List.append_nil,
          blankLines_of_not_mem (lineFeed_not_mem_lastLine _)]
        split
        · next h =>
          rw [if_pos (hend h.1 h.2)]
        · apply Nat.zero_le
    | cons p rest ih =>
        have ih := ih (front ++ [p]) (by simp [heq])
        rw [List.filter_append, List.map_append, List.map_append, List.filter_cons,
          List.filter_nil] at ih
        rw [List.filter_cons, List.map_cons]
        by_cases hp : p.2 = '\n'
        · rw [hp, blankLines_append_lineFeed (lineFeed_not_mem_lastLine _)]
          rw [List.map_singleton, hp, lastLine_append_lineFeed] at ih
          split at ih
          · next hkeep =>
            rw [List.map_singleton, hp, lastLine_append_lineFeed] at ih
            rw [if_pos hkeep, List.map_cons, hp,
              blankLines_append_lineFeed (lineFeed_not_mem_lastLine _)]
            apply Nat.add_le_add ih
            split
            · next h =>
              rw [if_pos (hfeed front p rest heq hp hkeep h)]
            · apply Nat.zero_le
          · next hkeep =>
            rw [List.map_nil, List.append_nil] at ih
            rw [if_neg hkeep]
            apply Nat.le_trans ih (Nat.le_add_right _ _)
        · have hline : '\n' ∉ [p.2] := by simpa using Ne.symm hp
          rw [List.map_singleton, lastLine_append hline, List.append_assoc] at ih
          split at ih
          · next hkeep =>
            rw [List.map_singleton, lastLine_append hline, List.append_assoc] at ih
            rw [if_pos hkeep]
            exact ih
          · next hkeep =>
            rw [List.map_nil, List.append_nil] at ih
            rw [if_neg hkeep]
            exact ih
  exact hrest [] ps rfl

end Prune.Text
