/-!
# Tables of code points

A property of characters is given as an ascending list of ranges of code points, both ends
included. A lookup stops at the first range that starts above the code point.
-/

namespace PatternMachine.Text

/-- The code points from the first component up to and including the second. -/
abbrev CodeRange := Nat × Nat

/-- Whether one of the ascending `ranges` contains `code`. -/
def CodeRange.anyContains (ranges : List CodeRange) (code : Nat) : Bool :=
  match ranges with
  | [] => false
  | (first, last) :: above =>
    if code < first then false
    else code ≤ last || CodeRange.anyContains above code

end PatternMachine.Text
