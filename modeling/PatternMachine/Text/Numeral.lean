/-!
# Numerals

Numbers on a command line are decimal numerals of ASCII digits, leading zeros allowed, with an
optional sign in front. There has to be at least one digit.
-/

namespace PatternMachine.Text

/-- The number that a non-empty list of decimal digits stands for. -/
def digits? (cs : List Char) : Option Nat :=
  if cs.isEmpty || !cs.all Char.isDigit then none
  else some (cs.foldl (fun n c => 10 * n + (c.toNat - '0'.toNat)) 0)

/-- The number written as `cs`, a plus sign allowed. -/
def natural? : List Char → Option Nat
  | '+' :: cs => digits? cs
  | cs => digits? cs

/-- The number written as `cs`, either sign allowed. -/
def integer? : List Char → Option Int
  | '-' :: cs => (digits? cs).map fun n => -(n : Int)
  | cs => (natural? cs).map Int.ofNat

end PatternMachine.Text
