/-!
# Padded numbers

Numbers that label lines are written in decimal with at least two digits, so that short listings
line up.
-/

namespace PatternMachine.Text

/-- `n` in decimal, with a zero in front of a single digit. -/
def twoDigits (n : Nat) : String :=
  if n < 10 then "0" ++ toString n else toString n

end PatternMachine.Text
