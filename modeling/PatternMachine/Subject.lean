import PatternMachine.SearchError
import PatternMachine.Text.Located

/-!
# Subjects

A subject is a text made ready for the machine. The machine counts characters and its callers
count bytes; a subject holds the byte offset of every character position, the end included, and so
converts between the two.
-/

namespace PatternMachine

/-- A text without sentinel, as characters and as byte offsets of the positions between them. -/
structure Subject where
  chars : Array Char
  offsets : Array Nat
deriving DecidableEq

namespace Subject

/-- Prepares `text`, which must not contain the sentinel. -/
def ofString (text : String) : Except SearchError Subject :=
  let located := Text.located text
  match located.find? fun l => l.char = Text.sentinel with
  | some l => .error (.sentinelInInput l.offset)
  | none => .ok {
      chars := (located.map (·.char)).toArray
      offsets := (located.map (·.offset)).toArray.push (Text.byteLength text.toList) }

/-- The number of characters. -/
def size (s : Subject) : Nat :=
  s.chars.size

/-- The character at `pos`: the sentinel at the end of the text, and none behind that. -/
def at? (s : Subject) (pos : Nat) : Option Char :=
  if h : pos < s.chars.size then some s.chars[pos]
  else if pos = s.chars.size then some Text.sentinel
  else none

/-- The byte offset of the position `pos`, if it is not behind the end. -/
def offset? (s : Subject) (pos : Nat) : Option Nat :=
  s.offsets[pos]?

/-- The byte offset of the position `pos`. -/
def offset (s : Subject) (pos : Nat) : Except SearchError Nat :=
  match s.offset? pos with
  | some offset => .ok offset
  | none => .error .outOfRange

/-- The position at byte `offset`, if that is the boundary of a character. -/
def position? (s : Subject) (offset : Nat) : Option Nat :=
  s.offsets.findIdx? (· = offset)

/-- The subject for `text` and the position in it at byte `start`. -/
def locate (text : String) (start : Nat) : Except SearchError (Subject × Nat) := do
  let s ← ofString text
  match s.position? start with
  | some pos => return (s, pos)
  | none => throw (.invalidStart start)

end Subject

end PatternMachine
