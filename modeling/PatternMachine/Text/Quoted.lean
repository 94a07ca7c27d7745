import PatternMachine.Text.Combining
import PatternMachine.Text.Unprintable

/-!
# Quoted text

Characters are shown between apostrophes and texts between double quotes. What would be
invisible, ambiguous or misplaced between them is escaped, so that a quoted text can be read back:
the delimiter and the backslash by a backslash, the common controls by a letter, and every other
unprintable or combining character by its code point.
-/

namespace PatternMachine.Text

/-- The code point of `c` in lower-case hexadecimal, as `\u` and braces. -/
def codeEscape (c : Char) : List Char :=
  ['\\', 'u', '\x7b'] ++ Nat.toDigits 16 c.toNat ++ ['\x7d']

/-- How `c` is written between two `delimiter`s. -/
def escape (delimiter c : Char) : List Char :=
  if c = '\x00' then ['\\', '0']
  else if c = '\t' then ['\\', 't']
  else if c = '\r' then ['\\', 'r']
  else if c = '\n' then ['\\', 'n']
  else if c = '\\' then ['\\', '\\']
  else if c = delimiter then ['\\', delimiter]
  else if isCombining c || isUnprintable c then codeEscape c
  else [c]

/-- The character `c` between apostrophes. -/
def quoteChar (c : Char) : String :=
  String.ofList ('\'' :: escape '\'' c ++ ['\''])

/-- The text `s` between double quotes. -/
def quoteString (s : String) : String :=
  String.ofList ('"' :: s.toList.flatMap (escape '"') ++ ['"'])

end PatternMachine.Text
