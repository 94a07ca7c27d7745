/-!
# Characters and their byte offsets

A text is a sequence of characters; places in it are given as byte offsets of its UTF-8 encoding.
This module ties the two together: `located` pairs every character with the offset at which it
starts, and `slice` cuts out the characters between two offsets.
-/

namespace PatternMachine.Text

/-- The reserved character U+0000: it marks the end of a text and so occurs in none. -/
def sentinel : Char := '\x00'

/-- A character of a text and the byte offset at which it starts. -/
structure Located where
  offset : Nat
  char : Char
deriving DecidableEq

/-- The byte offset behind the character. -/
def Located.stop (l : Located) : Nat :=
  l.offset + l.char.utf8Size

/-- The number of bytes of the UTF-8 encoding of `cs`. -/
def byteLength : List Char → Nat
  | [] => 0
  | c :: cs => c.utf8Size + byteLength cs

/-- Pairs each character with its byte offset, the first one starting at `offset`. -/
def locatedFrom (offset : Nat) : List Char → List Located
  | [] => []
  | c :: cs => ⟨offset, c⟩ :: locatedFrom (offset + c.utf8Size) cs

/-- The characters of `text` with their byte offsets. -/
def located (text : String) : List Located :=
  locatedFrom 0 text.toList

/-- The characters of `text` that start at byte `start` or later and before byte `stop`. -/
def slice (text : String) (start stop : Nat) : String :=
  let inside := (located text).filter fun l => start ≤ l.offset && l.offset < stop
  String.ofList (inside.map (·.char))

/-- There is one offset for each character. -/
@[simp]
theorem length_locatedFrom (offset : Nat) (cs : List Char) :
    (locatedFrom offset cs).length = cs.length := by
  induction cs generalizing offset with
  | nil => rfl
  | cons c cs ih => simp [locatedFrom, ih]

/-- Without their offsets they are the characters again. -/
@[simp]
theorem map_char_locatedFrom (offset : Nat) (cs : List Char) :
    (locatedFrom offset cs).map (·.char) = cs := by
  induction cs generalizing offset with
  | nil => rfl
  | cons c cs ih => simp [locatedFrom, ih]

end PatternMachine.Text
