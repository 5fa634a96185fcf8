import Prune.Proofs.Source.Grammar.Markup
import Prune.Proofs.Source.Grammar.Modules
import Prune.Source.Parse

/-!
# Soundness of parsing

What the rules of the grammar give is laid out in the text (`reads_rules`), and so is the tree of a
module (`sound_parseModule`).  A byte order mark counts as no bytes when a text is read, so that
nothing stands where it should in a text that starts with one.
-/

namespace Prune

/-- Whether a text starts with a byte order mark. -/
def Text.Marked (text : List Char) : Prop :=
  text.head? = some (Char.ofNat 0xFEFF)

instance (text : List Char) : Decidable (Text.Marked text) :=
  inferInstanceAs (Decidable (_ = _))

theorem Text.withoutMark_of_not_marked {text : List Char} (h : ¬Marked text) :
  withoutMark text = text
  := by
  rw [withoutMark, if_neg]
  simpa [Marked] using h

namespace Source

open Prune.Source.Parser Grammar Text

variable {text : List Char}

/-- Each rule with some fuel gives what the rules with less fuel make of it. -/
instance reads_rules (fuel : Nat) : Rules.Reads text (rules fuel) := by
  induction fuel with
  | zero =>
      constructor
      all_goals
        intros
        first
          | exact ⟨fun _ _ => .fail⟩
          | exact .fail
  | succ fuel ih =>
      exact
        { expression := fun c => inferInstanceAs (Reading text (expression (rules fuel) c) _)
          assignment := fun c => inferInstanceAs (Reading text (assignment (rules fuel) c) _)
          unary := fun c arrow => inferInstanceAs (Reading text (unary (rules fuel) c arrow) _)
          leftHand := fun c arrow => inferInstanceAs (Reading text (leftHand (rules fuel) c arrow) _)
          newCallee := fun c => inferInstanceAs (Reading text (newCallee (rules fuel) c) _)
          binding := fun c => inferInstanceAs (Reading text (binding (rules fuel) c) _)
          type := fun c => inferInstanceAs (Reading text (type (rules fuel) c) _)
          typeOperand := fun c => inferInstanceAs (Reading text (typeOperand (rules fuel) c) _)
          body := fun c => inferInstanceAs (Reading text (body (rules fuel) c) _)
          statement := fun c declares =>
            inferInstanceAs (Reading text (statement (rules fuel) c declares) _)
          element := fun c place => inferInstanceAs (Reading text (element (rules fuel) c place) _)
          child := fun c place K L => reads_element
          item := fun c => inferInstanceAs (Reading text (item (rules fuel) c) _)
          heritage := fun c => inferInstanceAs (Reading text (heritage (rules fuel) c) _)
          decorators := fun c => inferInstanceAs (Reading text (decorators (rules fuel) c) _) }

/-- The first token stands in the text, and its gap is the one at the start of the text. There is no
gap in front of the first line if it starts with a number sign and an exclamation mark. -/
theorem located_readFirst (modular : Bool) (text : List Char) :
  (Token.readFirst modular text).Located text ∧
    (Gap.read true 0 text).comments ⊆ (Token.readFirst modular text).comments
  := by
  unfold Token.readFirst
  split
  · refine ⟨Token.located_read modular true (stands_drop_takeWhile _ _), ?_⟩
    rw [Gap.comments_read_cons true rfl rfl (by decide)]
    exact List.nil_subset _
  · exact ⟨Token.located_read modular true (Stands.zero text), List.Subset.refl _⟩

theorem sound_start (modular : Bool) (text : List Char) :
  (Parser.start modular text).Sound text
  := by
  obtain ⟨hlocated, hcomments⟩ := located_readFirst modular text
  refine ⟨hlocated, Stands.zero text, Nat.zero_le _, nofun, fun rest hrest _ => ⟨true, ?_⟩⟩
  obtain rfl := hrest.unique (Stands.zero text)
  exact List.Subset.trans hcomments (List.subset_append_left _ _)

theorem reads_file {item : Parser Tree} [Reading text item (Fits text)] (fuel : Nat) :
  ReadsWhen text (fun _ => True) State.extent State.past (fun _ => True) 0 (file fuel item)
    fun parsed _ => parsed.Sound text
  := by
  have hzero := (Stands.zero text).boundary
  refine .step fun items => .bind .advance fun _ => .bind (.enclose hzero ?_ nofun) fun tree => ?_
  · grind
  · intro s _ hsound hL hK
    refine ⟨hsound, hL, Extent.le_refl _, fun _ _ => ⟨?_, ?_⟩⟩
    · exact fun c hc => hsound.comments c (List.mem_reverse.mp hc)
    · have hle : s.past ≤ ⟨s.prevEnd, s.comments.reverse⟩ := ⟨Nat.le_refl _, by simp [State.past]⟩
      exact (hK _ hle).2.holds.laid

/-- The tree of a module is laid out in its text. -/
theorem sound_parseModule {text : String} {markup : Bool} {parsed : Parsed}
    (hmark : ¬Marked text.toList)
    (h : parseModule markup text = some parsed) :
  parsed.Sound text.toList
  := by
  let c : Context := { typed := true, markup := markup }
  let fuel := fuelFor text.toList
  have hland : Lands text.toList 0 _ State.past (fun parsed _ => parsed.Sound text.toList)
      (file fuel ((rules fuel).item c) (Parser.start true text.toList)) :=
    reads_file fuel _ trivial (sound_start true _) (Nat.zero_le _) fun _ _ => trivial
  simp only [parseModule, withoutMark_of_not_marked hmark] at h
  split at h
  · next hfile =>
    obtain rfl := Option.some.inj h
    rw [hfile] at hland
    exact hland.2.2.2 _ (Extent.le_refl _)
  · simp at h

end Source

end Prune
