/-!
# Search errors

A search ends without an answer if its text or its start is unsuitable, or if too many threads
would have to wait at once.
-/

namespace PatternMachine

/-- Why a search has no answer. -/
inductive SearchError where
  /-- The text contains the sentinel, first at byte `offset`. -/
  | sentinelInInput (offset : Nat)
  /-- The search should start at byte `offset`, which is behind the end or inside a character. -/
  | invalidStart (offset : Nat)
  /-- More than `limit` threads would have to wait. -/
  | threadLimitExceeded (limit : Nat)
  /-- A thread left the program or the text. -/
  | outOfRange
deriving DecidableEq

/-- The error in words. -/
def SearchError.message : SearchError → String
  | sentinelInInput offset =>
    "input contains the reserved end-of-input character at offset " ++ toString offset
  | invalidStart offset =>
    "start offset " ++ toString offset ++ " is not a character boundary of the input"
  | threadLimitExceeded limit => "thread limit of " ++ toString limit ++ " exceeded"
  | outOfRange => "a thread left the program or the input"

end PatternMachine
