import PatternMachine.Pattern.Basic
import PatternMachine.Text.Quoted

/-!
# The written form of a pattern

A pattern is written as nested applications of its constructors, with literals quoted. The quotes
keep a literal comma or parenthesis apart from those of the notation.
-/

namespace PatternMachine.Pattern

/-- The pattern as text, such as `Concat(Literal('a'), Star(Any))`. -/
def render : Pattern → String
  | literal c => "Literal(" ++ Text.quoteChar c ++ ")"
  | any => "Any"
  | empty => "Epsilon"
  | seq l r => "Concat(" ++ l.render ++ ", " ++ r.render ++ ")"
  | alt l r => "Union(" ++ l.render ++ ", " ++ r.render ++ ")"
  | star p => "Star(" ++ p.render ++ ")"
  | plus p => "Plus(" ++ p.render ++ ")"
  | opt p => "Question(" ++ p.render ++ ")"

end PatternMachine.Pattern
