import Mathlib.Data.List.Basic
import Mathlib.Data.List.Pairwise
import Prune.Proofs.Edit.Lines

/-!
# Deletions and blank lines

Deletions leave no more blank lines than there were if ink or a line feed stands between any two of
them once they are merged (`Edit.blankLines_applyAll_le`).  Without that they can leave one more:
each deletion is widened as if the others were not there, and two of them that take out all ink of a
line but have blanks between them leave these blanks and the line feed
(`Edit.blankLines_lt_applyAll`).
-/

namespace Prune

namespace Text

variable {cs : List Char} {pos : Nat}

theorem located_eq_append {front back : List (Nat × Char)} (h : located pos cs = front ++ back) :
  ∃ pre rest, cs = pre ++ rest ∧ front = located pos pre ∧ back = located (pos + byteLength pre) rest
  := by
  induction front generalizing pos cs with
  | nil => exact ⟨[], cs, rfl, rfl, h.symm⟩
  | cons p front ih =>
      cases cs with
      | nil => simp [located] at h
      | cons c cs =>
          obtain ⟨rfl, htail⟩ := List.cons.inj h
          obtain ⟨pre, rest, rfl, rfl, rfl⟩ := ih htail
          refine ⟨c :: pre, rest, rfl, rfl, ?_⟩
          rw [byteLength_cons, Nat.add_assoc]

theorem pairwise_located (pos : Nat) (cs : List Char) :
  (located pos cs).Pairwise fun p q => p.1 < q.1
  := by
  induction cs generalizing pos with
  | nil => exact .nil
  | cons c cs ih =>
      have hsize := c.utf8Size_pos
      refine List.pairwise_cons.mpr ⟨?_, ih _⟩
      intro p hp
      have := (offset_of_mem_located hp).1
      simp only
      omega

theorem mem_located {p : Nat} {c : Char} (h : CharAt cs p c) :
  (p, c) ∈ located 0 cs
  := by
  obtain ⟨rest, pre, rfl, rfl⟩ := h
  rw [located_append, located, Nat.zero_add]
  exact List.mem_append_right _ List.mem_cons_self

/-- A line that is left has ink if some ink stays and no line feed behind it. -/
theorem all_isBlank_lastLine (keep : Nat × Char → Bool) {text pre rest : List Char} {p : Nat}
    {c : Char} (htext : text = pre ++ rest) (hc : CharAt text p c) (hlt : p < byteLength pre)
    (hink : isBlank c = false) (hkeep : keep (p, c) = true)
    (hfeed : ∀ p' c', CharAt text p' c' → p < p' → p' < byteLength pre → keep (p', c') = true →
      c' ≠ '\n') :
  (lastLine (((located 0 pre).filter keep).map Prod.snd)).all isBlank = false
  := by
  have hsize := c.utf8Size_pos
  obtain ⟨back, hback⟩ := id hc
  obtain ⟨mid, hmid, hpre⟩ := hback.exists_between ⟨pre, htext, rfl⟩ (Nat.le_of_lt hlt)
  obtain ⟨front, hfront, rfl⟩ := hback
  cases mid with
  | nil => simp [hpre] at hlt
  | cons d mid =>
      obtain ⟨rfl, rfl⟩ := List.cons.inj hmid
      have hsplit : pre = front ++ c :: mid := by
        have happend : pre ++ rest = (front ++ c :: mid) ++ rest := by
          rw [← htext, hfront]
          simp
        exact List.append_cancel_right happend
      have hline : '\n' ∉ c :: ((located (byteLength front + c.utf8Size) mid).filter keep).map
          Prod.snd := by
        rw [List.mem_cons, not_or]
        constructor
        · rintro rfl
          contradiction
        · intro hmem
          obtain ⟨q, hq, heq⟩ := List.mem_map.mp hmem
          obtain ⟨hq, hkeep⟩ := List.mem_filter.mp hq
          obtain ⟨hle, hlt'⟩ := offset_of_mem_located hq
          have hstands : Stands pre mid (byteLength front + c.utf8Size) :=
            Stands.cons ⟨front, hsplit, rfl⟩
          obtain ⟨rest', first, hfirst, hq'⟩ := charAt_of_mem_located hstands hq
          have hchar : CharAt text q.1 q.2 := ⟨rest' ++ rest, first, by simp [htext, hfirst], hq'⟩
          rw [byteLength_cons] at hpre
          exact hfeed q.1 q.2 hchar (by omega) (by omega) hkeep heq
      rw [hsplit, located_append, located, List.filter_append, List.map_append, Nat.zero_add,
        List.filter_cons_of_pos hkeep, List.map_cons, lastLine_append hline]
      simp [hink]

end Text

open Text

namespace Edit

variable {text : List Char} {e m : Edit} {ms edits : List Edit} {pos : Nat} {c : Char}

/-! ### Ink beside an offset -/

theorem exists_trimEnd_eq {cs : List Char} (h : cs.all isBlank = false) :
  ∃ front c, trimEnd cs = front ++ [c] ∧ isBlank c = false
  := by
  obtain ⟨blanks, hsplit, hblanks⟩ := exists_trimEnd cs
  obtain hnil | ⟨front, c, hink⟩ := List.eq_nil_or_concat (trimEnd cs)
  · rw [hnil, List.nil_append] at hsplit
    rw [hsplit] at h
    simp only [List.all_eq_false] at h
    obtain ⟨c, hc, hblank⟩ := h
    exact absurd (hblanks c hc) hblank
  · rw [List.concat_eq_append] at hink
    use front, c, hink
    have hdrop : cs.reverse.dropWhile isBlank = c :: front.reverse := by
      rw [← List.reverse_reverse (cs.reverse.dropWhile isBlank), ← trimEnd, hink]
      simp
    have hhead := List.head?_dropWhile_not isBlank cs.reverse
    rw [hdrop] at hhead
    simpa using hhead

/-- The last ink before an offset on its line. -/
theorem exists_ink_before (h : Boundary text pos)
    (hink : (lineBefore text pos).all isBlank = false) :
  ∃ p c, CharAt text p c ∧ isBlank c = false ∧ p < pos ∧
    ∀ p' c', CharAt text p' c' → p < p' → p' < pos → isBlank c' = true ∧ c' ≠ '\n'
  := by
  obtain ⟨rest, hrest⟩ := h
  have hline := stands_lineBefore hrest
  have hfeed := lineFeed_not_mem_lastLine (takeBytes pos text)
  obtain ⟨front, c, htrim, hc⟩ := exists_trimEnd_eq hink
  obtain ⟨blanks, hsplit, hblanks⟩ := exists_trimEnd (lineBefore text pos)
  have hlength := hline.add_byteLength
  have hlength' := hrest.add_byteLength
  have hline_length := congrArg byteLength hsplit
  rw [htrim] at hsplit hline_length
  change '\n' ∉ lineBefore text pos at hfeed
  generalize lineBefore text pos = line at *
  subst hsplit
  have hfront : Stands text (c :: (blanks ++ rest))
      (pos - byteLength (front ++ [c] ++ blanks) + byteLength front) := by
    apply Stands.append
    simpa using hline
  use pos - byteLength (front ++ [c] ++ blanks) + byteLength front, c
  have hsize := c.utf8Size_pos
  simp only [byteLength_append, byteLength_cons, byteLength_nil] at *
  refine ⟨⟨_, hfront⟩, hc, by omega, ?_⟩
  intro p' c' hc' hlt hlt'
  obtain ⟨rfl, -⟩ | hle := hc'.eq_or_le hfront (Nat.le_of_lt hlt)
  · omega
  · have hmem := hc'.mem hfront.cons hle (by omega)
    refine ⟨hblanks c' hmem, ?_⟩
    rintro rfl
    exact hfeed (List.mem_append_right _ hmem)

/-- The first ink behind an offset on its line. -/
theorem exists_ink_after (h : Boundary text pos)
    (hink : (lineAfter text pos).all isBlank = false) :
  ∃ p c, CharAt text p c ∧ isBlank c = false ∧ pos ≤ p ∧
    ∀ p' c', CharAt text p' c' → pos ≤ p' → p' < p → isBlank c' = true ∧ c' ≠ '\n'
  := by
  obtain ⟨rest, hrest⟩ := h
  obtain ⟨tail, rfl, -⟩ := exists_lineAfter hrest
  have hfeed : '\n' ∉ lineAfter text pos := by
    intro hmem
    simpa using List.mem_takeWhile_imp hmem
  generalize lineAfter text pos = line at *
  have hsplit := List.takeWhile_append_dropWhile (p := isBlank) (l := line)
  cases hdrop : line.dropWhile isBlank with
  | nil =>
      rw [List.dropWhile_eq_nil_iff] at hdrop
      obtain ⟨c, hc, hblank⟩ := List.all_eq_false.mp hink
      exact absurd (hdrop c hc) hblank
  | cons c ink =>
      have hhead := List.head?_dropWhile_not isBlank line
      rw [hdrop] at hhead hsplit
      rw [← hsplit, List.append_assoc] at hrest
      refine ⟨_, c, ⟨_, hrest.append⟩, by simpa using hhead, Nat.le_add_right _ _, ?_⟩
      intro p' c' hc' hle hlt
      have hmem := hc'.mem hrest hle hlt
      refine ⟨List.mem_takeWhile_imp hmem, ?_⟩
      rintro rfl
      exact hfeed ((List.takeWhile_sublist _).mem hmem)

theorem exists_charAt_of_mem {mid rest : List Char} (h : Stands text (mid ++ rest) pos)
    (hc : c ∈ mid) :
  ∃ p, CharAt text p c ∧ pos ≤ p ∧ p < pos + byteLength mid
  := by
  obtain ⟨front, back, rfl⟩ := List.append_of_mem hc
  have hsize := c.utf8Size_pos
  rw [List.append_assoc, List.cons_append] at h
  refine ⟨pos + byteLength front, ⟨_, h.append⟩, Nat.le_add_right _ _, ?_⟩
  rw [byteLength_append, byteLength_cons]
  omega

/-- The line behind an offset ends at the first line feed, or at the end of the text. -/
theorem lineAfter_eq {stop : Nat} (h : Boundary text pos) (hstop : Boundary text stop)
    (hle : pos ≤ stop) (hline : stop = byteLength text ∨ CharAt text stop '\n')
    (hfeed : ∀ p c, CharAt text p c → pos ≤ p → p < stop → c ≠ '\n') :
  pos + byteLength (lineAfter text pos) = stop ∧
    ∀ c ∈ lineAfter text pos, ∃ p, CharAt text p c ∧ pos ≤ p ∧ p < stop
  := by
  obtain ⟨rest, pre, rfl, rfl⟩ := h
  obtain ⟨rest', hrest'⟩ := hstop
  obtain ⟨line, rfl, rfl⟩ := Stands.exists_between ⟨pre, rfl, rfl⟩ hrest' hle
  have hmem : ∀ c ∈ line, ∃ p, CharAt (pre ++ (line ++ rest')) p c ∧ byteLength pre ≤ p ∧
      p < byteLength pre + byteLength line :=
    fun c hc => exists_charAt_of_mem ⟨pre, rfl, rfl⟩ hc
  have hline_feed : '\n' ∉ line := by
    intro hc
    obtain ⟨p, hp, hle, hlt⟩ := hmem _ hc
    exact hfeed p _ hp hle hlt rfl
  have htail : rest' = [] ∨ ∃ cs, rest' = '\n' :: cs := by
    obtain hend | ⟨cs, hcs⟩ := hline
    · left
      have := hrest'.add_byteLength
      have := length_le_byteLength rest'
      exact List.length_eq_zero_iff.mp (by omega)
    · right
      use cs
      exact hrest'.unique hcs
  rw [lineAfter_append hline_feed htail]
  exact ⟨rfl, hmem⟩

/-! ### Deletions with ink or a line feed between them -/

/-- Whether ink or a line feed stands between two edits. -/
def Severed (text : List Char) (a b : Edit) : Prop :=
  ∃ pos c, CharAt text pos c ∧ a.hi ≤ pos ∧ pos < b.lo ∧ (isBlank c = false ∨ c = '\n')

/-- A deletion is not widened beyond the first line feed behind it. -/
theorem widen_le_of_lineFeed (h : Boundary text e.hi) (hc : CharAt text pos '\n')
    (hle : e.hi ≤ pos) :
  (e.widen text).hi ≤ pos + 1
  := by
  obtain ⟨rest, hrest⟩ := h
  obtain ⟨tail, rfl, -⟩ := exists_lineAfter hrest
  have hend : e.hi + byteLength (lineAfter text e.hi) ≤ pos := by
    by_contra hlt
    have hmem := hc.mem hrest hle (by omega)
    simpa using List.mem_takeWhile_imp hmem
  rw [widen]
  split
  · dsimp only
    split
    · split
      · change min _ _ ≤ _
        omega
      · change e.hi ≤ _
        omega
    · omega
  · omega

/-- In front of a deletion that ends a line stands a line feed or ink when it is widened. -/
theorem ink_of_widen (he : e.Placed text) (hdeletion : e.isDeletion = true)
    (hafter : (lineAfter text e.hi).all isBlank = true) (hc : CharAt text pos c)
    (hpos : pos + c.utf8Size = (e.widen text).lo) (hfeed : c ≠ '\n') :
  isBlank c = false
  := by
  have hsize := c.utf8Size_pos
  have hno_feed : ∀ p c', CharAt text p c' → pos + c.utf8Size ≤ p → p < e.lo → c' ≠ '\n' := by
    intro p c' hc' hle hlt
    exact ne_lineFeed_of_widen he.lo hc' (by omega) hlt
  have hle := (widened_widen he).lo_le
  obtain ⟨rest, hrest⟩ := he.lo
  have hline := stands_lineBefore hrest
  have hlength := hline.add_byteLength
  have hlength' := hrest.add_byteLength
  rw [byteLength_append] at hlength
  rw [widen, if_pos hdeletion] at hpos hle
  by_cases hblank : (lineBefore text e.lo).all isBlank = true
  · -- the line would not start behind the character
    exfalso
    simp only [hafter, hblank, if_true] at hpos hle
    obtain ⟨back, hback⟩ := id hc
    obtain ⟨mid, rfl, hmid⟩ := hback.cons.exists_between hrest (by omega)
    obtain ⟨pre, htext, rfl⟩ := hback
    have hmid_feed : '\n' ∉ c :: mid := by
      rw [List.mem_cons, not_or]
      refine ⟨Ne.symm hfeed, fun hmem => ?_⟩
      obtain ⟨p, hp, hle, hlt⟩ := exists_charAt_of_mem (Stands.cons ⟨pre, htext, rfl⟩) hmem
      exact hno_feed p _ hp hle (by omega) rfl
    have hbefore : lineBefore text e.lo = lastLine pre ++ c :: mid := by
      rw [← lastLine_append hmid_feed, ← lineBefore_append _ rest, htext, hmid]
      simp [Nat.add_assoc]
    have := congrArg byteLength hbefore
    simp only [byteLength_append, byteLength_cons] at this
    omega
  · rw [Bool.not_eq_true] at hblank
    obtain ⟨front, d, htrim, hd⟩ := exists_trimEnd_eq hblank
    obtain ⟨blanks, hsplit, -⟩ := exists_trimEnd (lineBefore text e.lo)
    rw [htrim] at hsplit
    have hd_size := d.utf8Size_pos
    have hchar : CharAt text (e.lo - byteLength (lineBefore text e.lo) + byteLength front) d := by
      use blanks ++ rest
      apply Stands.append
      have : front ++ d :: (blanks ++ rest) = lineBefore text e.lo ++ rest := by
        conv => rhs; rw [hsplit]
        simp
      rwa [this]
    -- both characters end where the deletion starts when it is widened
    simp only [hafter, hblank, htrim, if_true, Bool.false_eq_true, if_false, byteLength_append,
      byteLength_cons, byteLength_nil] at hpos
    have h := hchar.le_or_le (hc.elim fun _ h => h.boundary)
    have h' := hc.le_or_le (hchar.elim fun _ h => h.boundary)
    have heq : pos = e.lo - byteLength (lineBefore text e.lo) + byteLength front := by omega
    rw [heq] at hc
    rw [hc.unique hchar]
    exact hd

theorem Severed.widen_le {a b : Edit} (h : Severed text a b) (ha : a.Placed text)
    (hb : b.Placed text) :
  (a.widen text).hi ≤ (b.widen text).lo
  := by
  obtain ⟨pos, c, hc, hle, hlt, hkind⟩ := h
  by_contra hnot
  obtain hink | rfl := hkind
  · -- neither of them is widened over ink
    obtain hlt' | hge := Nat.lt_or_ge pos (a.widen text).hi
    · have := (widened_widen ha).after pos c hc hle hlt'
      simp [this] at hink
    · have := (widened_widen hb).before pos c hc (by omega) hlt
      simp [this] at hink
  · have hstop := widen_le_of_lineFeed ha.hi hc hle
    exact ne_lineFeed_of_widen hb.lo hc (by omega) hlt rfl

/-- Whether deletions are between characters and do not overlap, and ink or a line feed stands
between any two of them.  -/
structure AllSevered (text : List Char) (ms : List Edit) : Prop where
  placed : ∀ m ∈ ms, m.Placed text
  deletions : ∀ m ∈ ms, m.replacement = ""
  severed : ms.Pairwise fun a b => a.hi ≤ b.lo ∧ Severed text a b

namespace AllSevered

/-- Of two deletions, the one that starts before the end of the other ends before it, with ink or a
line feed in between. -/
theorem of_lt (h : AllSevered text ms) {a b : Edit} (ha : a ∈ ms) (hb : b ∈ ms) (hne : a ≠ b)
    (hlt : a.lo < b.hi) :
  a.hi ≤ b.lo ∧ Severed text a b
  := by
  let R (a b : Edit) : Prop :=
    (a.hi ≤ b.lo ∧ Severed text a b) ∨ (b.hi ≤ a.lo ∧ Severed text b a)
  have hsymm : Std.Symm R := ⟨fun _ _ => Or.symm⟩
  have hpairwise : ms.Pairwise R := h.severed.imp Or.inl
  obtain h' | h' := hpairwise.forall ha hb hne
  · exact h'
  · omega

theorem pairwise_widen (h : AllSevered text ms) :
  ms.Pairwise fun a b => (a.widen text).hi ≤ (b.widen text).lo
  := by
  apply h.severed.imp_of_mem
  intro a b ha hb hab
  exact hab.2.widen_le (h.placed a ha) (h.placed b hb)

/-- Ink that does not stay is taken out by a deletion. -/
theorem exists_covers (h : AllSevered text ms) (hc : CharAt text pos c)
    (hink : isBlank c = false) (hnot : ¬spares text ms pos = true) :
  ∃ m ∈ ms, m.Covers pos
  := by
  rw [spares_iff] at hnot
  push Not at hnot
  obtain ⟨m, hm, hcovers⟩ := hnot
  use m, hm
  exact (widened_widen (h.placed m hm)).covers hc hink hcovers

/-- Of a line with ink some ink stays if the end of the line does, and no line feed stays between
the ink and the end.  -/
theorem exists_spared_ink (h : AllSevered text ms) {stop : Nat} (hstop : Boundary text stop)
    (hline : stop = byteLength text ∨ CharAt text stop '\n')
    (hends : ∀ m ∈ ms, m.lo < stop → (m.widen text).hi < min (stop + 1) (byteLength text))
    (hink : (lineBefore text stop).all isBlank = false) :
  ∃ p c, CharAt text p c ∧ isBlank c = false ∧ p < stop ∧ spares text ms p = true ∧
    ∀ p' c', CharAt text p' c' → p < p' → p' < stop → spares text ms p' = true → c' ≠ '\n'
  := by
  obtain ⟨p, c, hc, hblank, hlt, hbehind⟩ := exists_ink_before hstop hink
  by_cases hspared : spares text ms p = true
  · use p, c
    exact ⟨hc, hblank, hlt, hspared, fun p' c' hc' hp hp' _ => (hbehind p' c' hc' hp hp').2⟩
  · -- a deletion takes out the last ink of the line, so that blanks are left behind it
    obtain ⟨m, hm, hcovers⟩ := h.exists_covers hc hblank hspared
    have hplaced := h.placed m hm
    have hwide := (widened_widen hplaced).le_hi
    have hend := hends m hm (Nat.lt_of_le_of_lt hcovers.1 hlt)
    obtain ⟨hlo, hhi⟩ := hcovers
    have hle : m.hi ≤ stop := by omega
    have hbehind_m : ∀ p' c', CharAt text p' c' → m.hi ≤ p' → p' < stop →
        isBlank c' = true ∧ c' ≠ '\n' :=
      fun p' c' hc' hp hp' => hbehind p' c' hc' (by omega) hp'
    obtain ⟨hafter, hafter_stop⟩ : (lineAfter text m.hi).all isBlank = true ∧
        m.hi + byteLength (lineAfter text m.hi) = stop := by
      obtain ⟨heq, hmem⟩ := lineAfter_eq hplaced.hi hstop hle hline
        fun p' c' hc' hp hp' => (hbehind_m p' c' hc' hp hp').2
      refine ⟨?_, heq⟩
      rw [List.all_eq_true]
      intro d hd
      obtain ⟨p', hc', hp, hp'⟩ := hmem d hd
      exact (hbehind_m p' d hc' hp hp').1
    -- the line is not widened over, so that there is ink in front of the deletion as well
    have hbefore : (lineBefore text m.lo).all isBlank = false := by
      by_contra hall
      rw [Bool.not_eq_false] at hall
      have hdeletion : m.isDeletion = true := by simp [isDeletion, h.deletions m hm]
      have hwiden : (m.widen text).hi = min (stop + 1) (byteLength text) := by
        rw [widen, if_pos hdeletion]
        simp [hafter, hafter_stop, hall]
      omega
    obtain ⟨p', c', hc', hblank', hlt', hbehind'⟩ := exists_ink_before hplaced.lo hbefore
    have hspared' : spares text ms p' = true := by
      by_contra hnot
      obtain ⟨m', hm', hcovers'⟩ := h.exists_covers hc' hblank' hnot
      obtain ⟨hlo', hhi'⟩ := hcovers'
      have hne : m' ≠ m := by
        rintro rfl
        omega
      obtain ⟨-, q, d, hd, hq, hq', hkind⟩ := h.of_lt hm' hm hne (by omega)
      have := hbehind' q d hd (by omega) hq'
      simp_all
    use p', c'
    refine ⟨hc', hblank', by omega, hspared', ?_⟩
    intro q d hd hq hq' hsp
    obtain hlt_m | hge_m := Nat.lt_or_ge q m.lo
    · exact (hbehind' q d hd hq hlt_m).2
    · obtain hin | hout := Nat.lt_or_ge q m.hi
      · have hw := widened_widen hplaced
        have := hw.lo_le
        exfalso
        exact spares_iff.mp hsp m hm ⟨by omega, by omega⟩
      · exact (hbehind_m q d hd hout hq').2

/-- A blank on the last line that is left has nothing behind it that is taken out. -/
theorem add_utf8Size_eq (h : AllSevered text ms) (hc : CharAt text pos c)
    (hspared : spares text ms pos = true) (hblank : isBlank c = true) (hfeed : c ≠ '\n')
    (hrest : ∀ p' c', CharAt text p' c' → pos < p' → ¬spares text ms p' = true) :
  pos + c.utf8Size = byteLength text
  := by
  have hsize := c.utf8Size_pos
  obtain ⟨rest, pre, htext, rfl⟩ := id hc
  cases rest with
  | nil => simp [htext]
  | cons d rest =>
      exfalso
      -- the deletion that takes out the character behind the blank is widened up to the blank
      have hnext : CharAt text (byteLength pre + c.utf8Size) d :=
        ⟨rest, pre ++ [c], by simp [htext], by simp⟩
      have hnot := hrest _ d hnext (by omega)
      rw [spares_iff] at hnot
      push Not at hnot
      obtain ⟨m, hm, hcovers⟩ := hnot
      have hplaced := h.placed m hm
      have hwide := widened_widen hplaced
      have hspared_m := spares_iff.mp hspared m hm
      have hlo : (m.widen text).lo = byteLength pre + c.utf8Size := by
        have := hc.le_or_le hwide.placed.lo
        simp only [Covers] at *
        omega
      have hdeletion : m.isDeletion = true := by simp [isDeletion, h.deletions m hm]
      cases hafter : (lineAfter text m.hi).all isBlank with
      | true =>
          have hink := ink_of_widen hplaced hdeletion hafter hc hlo.symm hfeed
          simp [hblank] at hink
      | false =>
          -- the line goes on with ink behind the deletion, which another one takes out
          obtain ⟨p', c', hc', hink', hle', hbefore'⟩ := exists_ink_after hplaced.hi hafter
          have hlo_le := hwide.lo_le
          have hle := hplaced.le
          obtain ⟨m', hm', hcovers'⟩ := h.exists_covers hc' hink' (hrest p' c' hc' (by omega))
          obtain ⟨hlo', hhi'⟩ := hcovers'
          have hne : m ≠ m' := by
            rintro rfl
            omega
          obtain ⟨-, p, d, hd, hp, hp', hkind⟩ := h.of_lt hm hm' hne (by omega)
          have := hbefore' p d hd hp (by omega)
          simp_all

/-- A line that is blank where it stays is blank before, if no deletion reaches from it beyond its
end. -/
theorem blank_lineBefore (h : AllSevered text ms) (htext : text = pre ++ rest)
    (hline : byteLength pre = byteLength text ∨ CharAt text (byteLength pre) '\n')
    (hends : ∀ m ∈ ms, m.lo < byteLength pre →
      (m.widen text).hi < min (byteLength pre + 1) (byteLength text))
    (hblank : (lastLine (((located 0 pre).filter fun p => spares text ms p.1).map Prod.snd)).all isBlank
      = true) :
  (lineBefore text (byteLength pre)).all isBlank = true
  := by
  by_contra hink
  obtain ⟨p, c, hc, hink', hlt, hkeep, hno_feed⟩ :=
    h.exists_spared_ink ⟨rest, pre, htext, rfl⟩ hline hends (by simpa using hink)
  rw [all_isBlank_lastLine (fun p => spares text ms p.1) htext hc hlt hink' hkeep hno_feed]
    at hblank
  contradiction

/-- A line the end of which stays is blank before if it is blank where it stays. -/
theorem blank_of_spared_feed (h : AllSevered text ms) (htext : text = pre ++ rest)
    (hfeed : CharAt text (byteLength pre) '\n') (hspared : spares text ms (byteLength pre) = true)
    (hblank : (lastLine (((located 0 pre).filter fun p => spares text ms p.1).map Prod.snd)).all isBlank
      = true) :
  (lineBefore text (byteLength pre)).all isBlank = true
  := by
  refine h.blank_lineBefore htext (.inr hfeed) (fun m hm hlt => ?_) hblank
  have hnot := spares_iff.mp hspared m hm
  have hlo_le := (widened_widen (h.placed m hm)).lo_le
  obtain ⟨tail, htail⟩ := hfeed
  have hlength := htail.add_byteLength
  have hsize : '\n'.utf8Size = 1 := rfl
  rw [byteLength_cons] at hlength
  simp only [Covers] at hnot
  omega

/-- Behind the last character that stays no other one stays. -/
theorem not_spares_behind {front : List (Nat × Char)}
    (heq : (located 0 text).filter (fun p => spares text ms p.1) = front ++ [(pos, c)]) {p' : Nat}
    {c' : Char} (hc' : CharAt text p' c') (hlt : pos < p') :
  ¬spares text ms p' = true
  := by
  intro hspared
  have hmem : (p', c') ∈ front ++ [(pos, c)] := by
    rw [← heq]
    exact List.mem_filter.mpr ⟨mem_located hc', hspared⟩
  have hsorted := (pairwise_located 0 text).filter fun p => spares text ms p.1
  rw [heq] at hsorted
  obtain hfront | hlast := List.mem_append.mp hmem
  · have := (List.pairwise_append.mp hsorted).2.2 _ hfront _ (List.mem_singleton_self _)
    simp only at this
    omega
  · obtain ⟨rfl, -⟩ := Prod.mk.inj (List.mem_singleton.mp hlast)
    omega

/-- The last line is blank before if blanks stay of it and nothing else. -/
theorem blank_of_spared_end (h : AllSevered text ms)
    (hne : lastLine (((located 0 text).filter fun p => spares text ms p.1).map Prod.snd) ≠ [])
    (hblank : (lastLine (((located 0 text).filter fun p => spares text ms p.1).map Prod.snd)).all
      isBlank = true) :
  lastLine text ≠ [] ∧ (lastLine text).all isBlank = true
  := by
  obtain hnil | ⟨front, ⟨pos, c⟩, heq⟩ :=
    List.eq_nil_or_concat ((located 0 text).filter fun p => spares text ms p.1)
  · simp [hnil] at hne
  rw [List.concat_eq_append] at heq
  have hmem : (pos, c) ∈ (located 0 text).filter fun p => spares text ms p.1 := by simp [heq]
  obtain ⟨hlocated, hspared⟩ := List.mem_filter.mp hmem
  have hc : CharAt text pos c := charAt_of_mem_located (.zero text) hlocated
  have hfeed : c ≠ '\n' := by
    rintro rfl
    simp [heq] at hne
  have hblank_c : isBlank c = true := by
    rw [heq, List.map_append, List.map_singleton, lastLine_append (by simpa using Ne.symm hfeed)]
      at hblank
    simp_all
  have hend := h.add_utf8Size_eq hc hspared hblank_c hfeed fun p' c' => not_spares_behind heq
  constructor
  · obtain ⟨rest, pre, rfl, rfl⟩ := hc
    have hrest_nil : rest = [] := by
      have := length_le_byteLength rest
      rw [byteLength_append, byteLength_cons] at hend
      exact List.length_eq_zero_iff.mp (by omega)
    rw [hrest_nil, lastLine_append (by simpa using Ne.symm hfeed)]
    simp
  · have htext : text = text ++ [] := (List.append_nil text).symm
    rw [← lineBefore_append text [], ← htext]
    refine h.blank_lineBefore htext (.inl rfl) (fun m hm hlt => ?_) hblank
    have hwide := (widened_widen (h.placed m hm)).placed
    have hnot := spares_iff.mp hspared m hm
    have hsize := c.utf8Size_pos
    have hlo_le := (widened_widen (h.placed m hm)).lo_le
    have := hwide.hi.le_byteLength
    have := hc.le_or_le hwide.lo
    simp only [Covers] at hnot
    omega

/-- What is left of a text has no more blank lines than the text, if ink or a line feed stands
between any two of the deletions.  -/
theorem blankLines_le (h : AllSevered text ms) :
  blankLines (((located 0 text).filter fun p => spares text ms p.1).map Prod.snd) ≤ blankLines text
  := by
  conv => rhs; rw [← map_located 0 text]
  apply blankLines_filter_le
  · rintro front ⟨stop, c⟩ back heq rfl hspared hblank
    obtain ⟨pre, rest, htext, rfl, hrest⟩ := located_eq_append heq
    have hfeed : CharAt text stop '\n' :=
      charAt_of_mem_located (p := (stop, '\n')) (.zero text) (by rw [heq]; simp)
    obtain rfl : stop = byteLength pre := by
      cases rest with
      | nil => simp [located] at hrest
      | cons d rest => simpa [located] using congrArg Prod.fst (List.cons.inj hrest).1
    rw [map_located, ← lineBefore_append pre rest, ← htext]
    exact h.blank_of_spared_feed htext hfeed hspared hblank
  · intro hne hblank
    rw [map_located]
    exact h.blank_of_spared_end hne hblank

end AllSevered

/-- Deletions leave no more blank lines than there were if ink or a line feed stands between any two
of those they merge to.  -/
theorem blankLines_applyAll_le {text : String} (hedits : ∀ e ∈ edits, e.Placed text.toList)
    (hdeletions : ∀ e ∈ edits, e.replacement = "")
    (hsevered : (merge (sortBy precedes edits)).Pairwise (Severed text.toList)) :
  blankLines (applyAll text edits).toList ≤ blankLines text.toList
  := by
  have hle : ∀ e ∈ sortBy precedes edits, e.lo ≤ e.hi :=
    fun e he => (hedits e (mem_sortBy_iff.mp he)).le
  have hmerge : ∀ m ∈ merge (sortBy precedes edits), m.replacement = "" := by
    apply forall_merge
    · exact fun _ _ ha _ => ha
    · exact fun e he => hdeletions e (mem_sortBy_iff.mp he)
  have h : AllSevered text.toList (merge (sortBy precedes edits)) :=
    ⟨placed_merge hedits, hmerge,
      (pairwise_disjoint_merge hle (pairwise_sortBy_precedes edits)).and hsevered⟩
  rw [toList_applyAll_of_apart hedits hdeletions h.pairwise_widen]
  exact h.blankLines_le

/-- Three deletions, with ink between the first two and a line feed in front of the third. -/
theorem blankLines_applyAll_le_three :
  let text := "a b c\n\n d\n"
  let edits : List Edit := [⟨8, 9, ""⟩, ⟨0, 1, ""⟩, ⟨4, 5, ""⟩]
  (∀ e ∈ edits, e.Placed text.toList ∧ e.replacement = "") ∧
    (merge (sortBy precedes edits)).Pairwise (Severed text.toList) ∧
    applyAll text edits = " b\n\n" ∧ blankLines " b\n\n".toList ≤ blankLines text.toList
  := by
  intro text edits
  have hedits : ∀ e ∈ edits, e.Placed text.toList ∧ e.replacement = "" := by decide
  have hmerge : merge (sortBy precedes edits) = [⟨0, 1, ""⟩, ⟨4, 5, ""⟩, ⟨8, 9, ""⟩] := by decide
  have hcode : applyAll text edits = " b\n\n" := by decide
  have hink : CharAt text.toList 2 'b' := ⟨" c\n\n d\n".toList, "a ".toList, by decide, by decide⟩
  have hfeed : CharAt text.toList 5 '\n' := ⟨"\n d\n".toList, "a b c".toList, by decide, by decide⟩
  have hsevered : (merge (sortBy precedes edits)).Pairwise (Severed text.toList) := by
    rw [hmerge]
    simp only [List.pairwise_cons, List.forall_mem_cons, List.not_mem_nil, false_imp_iff,
      implies_true, List.Pairwise.nil, and_true]
    refine ⟨⟨⟨2, 'b', hink, ?_⟩, ⟨2, 'b', hink, ?_⟩⟩, ⟨5, '\n', hfeed, ?_⟩⟩ <;> decide
  refine ⟨hedits, hsevered, hcode, ?_⟩
  rw [← hcode]
  exact blankLines_applyAll_le (fun e he => (hedits e he).1) (fun e he => (hedits e he).2) hsevered

/-- Two of these deletions take out all ink of a line, but leave the line. -/
theorem blankLines_lt_applyAll :
  let text := "// #if A\na(); b();\n// #endif\n"
  let edits : List Edit := [⟨0, 8, ""⟩, ⟨9, 13, ""⟩, ⟨14, 18, ""⟩, ⟨19, 28, ""⟩]
  (∀ e ∈ edits, e.Placed text.toList ∧ e.replacement = "") ∧ applyAll text edits = "\n" ∧
    blankLines text.toList < blankLines (applyAll text edits).toList
  := by
  decide

end Edit

end Prune
