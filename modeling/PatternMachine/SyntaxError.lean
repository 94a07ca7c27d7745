import PatternMachine.Token

/-!
# Syntax errors

A text that is no pattern is refused with the first rule it breaks and the bytes where it breaks
it.
-/

namespace PatternMachine

/-- The rule that a text breaks. -/
inductive SyntaxError.Cause where
  /-- A token stands where another one has to. -/
  | unexpectedToken (expected : String) (found : Token.Kind)
  /-- A suffix operator has nothing before it to repeat. -/
  | repetitionMissing
  /-- A group is closed that was not opened. -/
  | groupUnopened
  /-- A group is not closed. -/
  | groupUnclosed
  /-- Groups and suffix operators nest deeper than allowed. -/
  | nestLimitExceeded (limit : UInt32)
  /-- The text contains the sentinel. -/
  | reservedCharacter
deriving DecidableEq

/-- A broken rule and the place where it is broken. -/
structure Violation where
  cause : SyntaxError.Cause
  span : Span
deriving DecidableEq

/-- A violation in the text `pattern`. -/
structure SyntaxError extends Violation where
  pattern : String
deriving DecidableEq

namespace SyntaxError

/-- The broken rule in words. -/
def Cause.message : Cause → String
  | unexpectedToken expected found => "expected " ++ expected ++ ", found " ++ found.describe
  | repetitionMissing => "repetition operator without an operand"
  | groupUnopened => "unopened group"
  | groupUnclosed => "unclosed group"
  | nestLimitExceeded limit => "nesting deeper than " ++ toString limit.toNat
  | reservedCharacter => "reserved character in pattern"

/-- The error in words: the rule, the bytes and the whole text. -/
def message (e : SyntaxError) : String :=
  "syntax error: " ++ e.cause.message ++ " at " ++ e.span.render ++ " in "
    ++ Text.quoteString e.pattern

end SyntaxError

end PatternMachine
