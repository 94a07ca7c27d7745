/-!
# Lines

A line ends with a line feed, and a carriage return directly before that belongs to the ending too.
The last line may lack its ending; nothing behind the last line feed is no line.
-/

namespace PatternMachine.Text

/-- A line without its ending, from its bytes in reverse. -/
def endedLine : List UInt8 → List UInt8
  | 13 :: rest => rest.reverse
  | bytes => bytes.reverse

/-- The lines of `bytes`, the first of which begins with `begun`, in reverse. -/
def linesFrom (begun : List UInt8) : List UInt8 → List (List UInt8)
  | [] => if begun.isEmpty then [] else [begun.reverse]
  | b :: bytes =>
    if b = 10 then endedLine begun :: linesFrom [] bytes else linesFrom (b :: begun) bytes

/-- The lines of `bytes`, each one decoded from UTF-8 if it is valid. -/
def lines (bytes : ByteArray) : List (Option String) :=
  (linesFrom [] bytes.toList).map fun line => String.fromUTF8? ⟨line.toArray⟩

end PatternMachine.Text
