import Mathlib.Data.List.Basic
import Prune.Text.Blank

/-!
# Words

A word is not empty and has no blanks (`IsWord`).  The words of a text are words of its characters
(`isWord_of_mem_words`, `mem_of_mem_wordsFrom`), and words that are written down with single blanks
between them are read as they are (`words_intercalate`).
-/

namespace Prune.Text

variable {c : Char} {cs word w : List Char} {ws : List (List Char)}

/-- Whether a text is not empty and has no blanks. -/
structure IsWord (w : List Char) : Prop where
  ne_nil : w ≠ []
  isBlank_eq_false : ∀ c ∈ w, isBlank c = false

/-! ### The words of a text -/

theorem mem_of_mem_wordsFrom (hw : w ∈ wordsFrom word cs) (hc : c ∈ w) :
  c ∈ word ∨ c ∈ cs
  := by
  fun_induction wordsFrom word cs with
  | case1 => simp at hw
  | case2 word h => simp_all
  | case3 word c' cs h hempty ih =>
      obtain h | h := ih hw
      · simp at h
      · exact .inr (List.mem_cons_of_mem _ h)
  | case4 word c' cs h hempty ih =>
      obtain rfl | hw := List.mem_cons.mp hw
      · exact .inl (List.mem_reverse.mp hc)
      · obtain h | h := ih hw
        · simp at h
        · exact .inr (List.mem_cons_of_mem _ h)
  | case5 word c' cs h ih =>
      obtain h | h := ih hw
      · obtain rfl | h := List.mem_cons.mp h
        · exact .inr List.mem_cons_self
        · exact .inl h
      · exact .inr (List.mem_cons_of_mem _ h)

/-- A word that was begun is one when it ends. -/
theorem isWord_reverse (hword : ∀ c ∈ word, isBlank c = false) (hne : ¬word.isEmpty = true) :
  IsWord word.reverse
  := ⟨by simpa using hne, by simpa using hword⟩

theorem isWord_of_mem_wordsFrom (hword : ∀ c ∈ word, isBlank c = false)
    (hw : w ∈ wordsFrom word cs) :
  IsWord w
  := by
  have hnil : ∀ c ∈ ([] : List Char), isBlank c = false := List.forall_mem_nil _
  fun_induction wordsFrom word cs with
  | case1 => exact absurd hw List.not_mem_nil
  | case2 word hne =>
      obtain rfl := List.mem_singleton.mp hw
      exact isWord_reverse hword hne
  | case3 word c' cs hblank hempty ih => exact ih hnil hw
  | case4 word c' cs hblank hne ih =>
      obtain rfl | hw := List.mem_cons.mp hw
      · exact isWord_reverse hword hne
      · exact ih hnil hw
  | case5 word c' cs hblank ih =>
      exact ih (List.forall_mem_cons.mpr ⟨by simpa using hblank, hword⟩) hw

theorem isWord_of_mem_words (hw : w ∈ words cs) :
  IsWord w
  := isWord_of_mem_wordsFrom (List.forall_mem_nil _) hw

/-! ### Texts of words -/

/-- What has no blanks belongs to the word that was begun. -/
theorem wordsFrom_append (hw : ∀ c ∈ w, isBlank c = false) (word cs : List Char) :
  wordsFrom word (w ++ cs) = wordsFrom (w.reverse ++ word) cs
  := by
  induction w generalizing word with
  | nil => rfl
  | cons c w ih =>
      obtain ⟨hc, hw⟩ := List.forall_mem_cons.mp hw
      rw [List.cons_append, wordsFrom, if_neg (by simp [hc]), ih hw, List.reverse_cons,
        List.append_assoc]
      rfl

theorem words_of_isWord (h : IsWord w) :
  words w = [w]
  := by
  have happend := wordsFrom_append h.isBlank_eq_false [] []
  rw [List.append_nil, List.append_nil] at happend
  rw [words, happend, wordsFrom]
  simp [h.ne_nil]

/-- A blank ends a word. -/
theorem words_append_blank (h : IsWord w) (hc : isBlank c = true) (cs : List Char) :
  words (w ++ c :: cs) = w :: words cs
  := by
  rw [words, wordsFrom_append h.isBlank_eq_false, wordsFrom]
  simp [hc, h.ne_nil, words]

/-- Words with single blanks between them are read as they are. -/
theorem words_intercalate (h : ∀ w ∈ ws, IsWord w) :
  words ([' '].intercalate ws) = ws
  := by
  induction ws with
  | nil => rfl
  | cons w ws ih =>
      obtain ⟨hw, hws⟩ := List.forall_mem_cons.mp h
      cases ws with
      | nil => rw [List.intercalate_singleton, words_of_isWord hw]
      | cons v ws =>
          rw [List.intercalate_cons_cons, List.append_assoc, List.singleton_append,
            words_append_blank hw (by decide), ih hws]

end Prune.Text
