import PatternMachine.Span
import PatternMachine.Text.Located
import PatternMachine.Text.Quoted

/-!
# Tokens

Every character of a pattern's text is a token of its own: seven characters are operators and all
others stand for themselves. A last token marks the end of the text.
-/

namespace PatternMachine

/-- What a token means. -/
inductive Token.Kind where
  | char (c : Char)
  | any
  | bar
  | star
  | plus
  | question
  | opening
  | closing
  | ending
deriving DecidableEq

/-- A token and the bytes it covers. -/
structure Token where
  kind : Token.Kind
  span : Span
deriving DecidableEq

namespace Token.Kind

/-- The meaning of a single character. -/
def ofChar (c : Char) : Kind :=
  if c = '.' then any
  else if c = '|' then bar
  else if c = '*' then star
  else if c = '+' then plus
  else if c = '?' then question
  else if c = '(' then opening
  else if c = ')' then closing
  else char c

/-- Whether a token of this kind begins an item of a sequence. -/
def beginsItem : Kind → Bool
  | char _ | any | opening => true
  | bar | star | plus | question | closing | ending => false

/-- The kind as it is named in messages. -/
def describe : Kind → String
  | char c => "character " ++ Text.quoteChar c
  | any => "'.'"
  | bar => "'|'"
  | star => "'*'"
  | plus => "'+'"
  | question => "'?'"
  | opening => "'('"
  | closing => "')'"
  | ending => "end of pattern"

end Token.Kind

end PatternMachine
