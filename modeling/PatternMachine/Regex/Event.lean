import PatternMachine.Regex.Find

/-!
# Events

What building a regular expression and searching with it has to tell besides its result: the sizes
a program went through, the outcome of a search in character positions, and a search given up.
-/

namespace PatternMachine

/-- Something to tell about a build or a search. -/
inductive Event where
  /-- A pattern alone has `size` instructions. -/
  | drafted (size : Nat)
  /-- Removing `nop`s took a program from `before` to `after` instructions. -/
  | nopsRemoved (before after : Nat)
  /-- Removing unreachable jumps took a program from `before` to `after` instructions. -/
  | jumpsRemoved (before after : Nat)
  /-- The program of `source` is finished and has `size` instructions. -/
  | compiled (source : String) (size : Nat)
  /-- A search was given up because more than `limit` threads would have to wait. -/
  | threadLimitExceeded (limit : Nat)
  /-- A match of `source` was found between two positions. -/
  | matched (source : String) (start stop : Nat)
  /-- No match of `source` was found. -/
  | unmatched (source : String)
deriving DecidableEq

/-- How much an event matters. -/
inductive Event.Level where
  | debug
  | warn
  | trace
deriving DecidableEq

namespace Event

/-- How much the event matters. -/
def level : Event → Level
  | drafted _ | nopsRemoved _ _ | jumpsRemoved _ _ | compiled _ _ => .debug
  | threadLimitExceeded _ => .warn
  | matched _ _ _ | unmatched _ => .trace

/-- The event in words. -/
def message : Event → String
  | drafted size => "compiled " ++ toString size ++ " instructions"
  | nopsRemoved before after =>
    "nop elision: " ++ toString before ++ " -> " ++ toString after ++ " instructions"
  | jumpsRemoved before after =>
    "unreachable jump pruning: " ++ toString before ++ " -> " ++ toString after ++ " instructions"
  | compiled source size =>
    Text.quoteString source ++ " compiled into " ++ toString size ++ " instructions"
  | threadLimitExceeded limit => "thread limit of " ++ toString limit ++ " exceeded"
  | matched source start stop =>
    Text.quoteString source ++ " matched at " ++ toString start ++ ".." ++ toString stop
  | unmatched source => Text.quoteString source ++ " did not match"

end Event

/-- The events of assembling the program of `source`. -/
def Assembly.events (a : Assembly) (source : String) : List Event :=
  let shortened :=
    match a.savings with
    | none => []
    | some s => [.nopsRemoved s.before s.withoutNops, .jumpsRemoved s.withoutNops s.withoutJumps]
  .drafted a.patternSize :: shortened ++ [.compiled source a.program.size]

/-- The events of a search that ended with `error`. -/
def SearchError.events : SearchError → List Event
  | threadLimitExceeded limit => [.threadLimitExceeded limit]
  | sentinelInInput _ | invalidStart _ | outOfRange => []

namespace Regex

/-- The events of building the regular expression of `p`, to be known as `source`. -/
def compileEvents (o : Options) (source : String) (p : Pattern) : List Event :=
  match Assembly.ofPattern o.shorten p with
  | .ok assembly => assembly.events source
  | .error _ => []

/-- The events of searching `text` from byte `start` on. -/
def findEvents (r : Regex) (text : String) (start : Nat) : List Event :=
  match r.findPositions text start with
  | .error error => error.events
  | .ok (_, none) => [.unmatched r.source]
  | .ok (_, some (first, last)) => [.matched r.source first last]

/-- The events of looking for a match that begins at byte `start`. -/
def endEvents (r : Regex) (text : String) (start : Nat) : List Event :=
  match r.endAt text start with
  | .error error => error.events
  | .ok _ => []

end Regex

end PatternMachine
