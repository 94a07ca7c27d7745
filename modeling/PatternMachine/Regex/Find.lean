import PatternMachine.Machine.Search
import PatternMachine.Regex.Build

/-!
# Searching with regular expressions

A search returns the leftmost match at or behind its start; of the matches that begin there, the
one that prefers earlier alternatives and repeats most. Offsets are byte offsets. The text of a
search is refused if it contains the sentinel, and only then is its start looked at.
-/

namespace PatternMachine

/-- A match in `haystack`, from byte `start` up to byte `stop`. -/
structure Match where
  haystack : String
  start : Nat
  stop : Nat
deriving DecidableEq

namespace Match

/-- The number of bytes matched. -/
def size (m : Match) : Nat :=
  m.stop - m.start

/-- Whether the match is empty. -/
def isEmpty (m : Match) : Bool :=
  m.start == m.stop

/-- The text that was matched. -/
def text (m : Match) : String :=
  Text.slice m.haystack m.start m.stop

end Match

namespace Regex

/-- The machine that runs the regular expression over `s`. -/
def machine (r : Regex) (s : Subject) : Machine :=
  ⟨r.program, s, r.threadLimit⟩

/-- The subject for `text`, and the positions of the first match in it from byte `start` on. -/
def findPositions (r : Regex) (text : String) (start : Nat) :
    Except SearchError (Subject × Option (Nat × Nat)) := do
  let (s, first) ← Subject.locate text start
  return (s, ← (r.machine s).find first)

/-- The leftmost match that begins at byte `start` or later. -/
def findAt (r : Regex) (text : String) (start : Nat) : Except SearchError (Option Match) := do
  let (s, found) ← r.findPositions text start
  match found with
  | none => return none
  | some (first, last) => return some ⟨text, ← s.offset first, ← s.offset last⟩

/-- The leftmost match. -/
def find (r : Regex) (text : String) : Except SearchError (Option Match) :=
  r.findAt text 0

/-- Whether there is a match. -/
def isMatch (r : Regex) (text : String) : Except SearchError Bool :=
  return (← r.find text).isSome

/-- The end of the match that begins at byte `start`. -/
def endAt (r : Regex) (text : String) (start : Nat) : Except SearchError (Option Nat) := do
  let (s, pos) ← Subject.locate text start
  match ← (r.machine s).matchEnd pos with
  | none => return none
  | some stop => return some (← s.offset stop)

/-- Whether a match begins at byte `start`. -/
def matchesAt (r : Regex) (text : String) (start : Nat) : Except SearchError Bool :=
  return (← r.endAt text start).isSome

end Regex

end PatternMachine
