/-!
# Bytes of texts

The number of bytes that characters take in UTF-8 (`byteLength`), and the parts of a text before and
behind a byte (`takeBytes`, `dropBytes`).  A text can be cut at a byte if a character starts there or
the text ends (`isBoundary`).  A byte order mark at the front of a text counts as no part of it where
a text is read (`withoutMark`).
-/

namespace Prune.Text

/-- The number of bytes of a list of characters. -/
def byteLength (cs : List Char) : Nat :=
  cs.foldr (fun c n => c.utf8Size + n) 0

/-- The characters of a text from the byte `n` on. -/
def dropBytes : Nat → List Char → List Char
  | _, [] => []
  | n, c :: cs => if n == 0 then c :: cs else dropBytes (n - c.utf8Size) cs

/-- The characters of a text before the byte `n`. -/
def takeBytes : Nat → List Char → List Char
  | _, [] => []
  | n, c :: cs => if n == 0 then [] else c :: takeBytes (n - c.utf8Size) cs

/-- The characters of a text between two bytes. -/
def slice (lo hi : Nat) (cs : List Char) : List Char :=
  takeBytes (hi - lo) (dropBytes lo cs)

/-- The characters of a text from the byte `n` on; none inside a character or behind the text. -/
def dropBytes? : Nat → List Char → Option (List Char)
  | 0, cs => some cs
  | _ + 1, [] => none
  | n + 1, c :: cs => if c.utf8Size ≤ n + 1 then dropBytes? (n + 1 - c.utf8Size) cs else none

/-- Whether a text can be cut at a byte. -/
def isBoundary (cs : List Char) (n : Nat) : Bool :=
  (dropBytes? n cs).isSome

/-- A text without a byte order mark at its front. -/
def withoutMark (cs : List Char) : List Char :=
  if cs.head? == some (Char.ofNat 0xFEFF) then cs.tail else cs

end Prune.Text
