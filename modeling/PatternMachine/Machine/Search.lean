import PatternMachine.Machine.Step

/-!
# Searching a subject

An attempt tries to match at one position; a scan tries one position after the other. The attempts
of a scan share the states they have entered: a state from which one attempt failed cannot lead
another one to a match.
-/

namespace PatternMachine.Machine

variable {b : Bounds}

/-- Tries to match at position `start`, without the states in `visited`. -/
def attempt (m : Machine) (visited : Visited b) (start : Nat) : Attempt b :=
  m.run { current := ⟨Program.start, start⟩, visited }

/-- Tries the `count` positions from `start` on and returns the ends of the first match. -/
def scan (m : Machine) (visited : Visited b) (start : Nat) :
    (count : Nat) → Except SearchError (Option (Nat × Nat))
  | 0 => .ok none
  | count + 1 =>
    match m.attempt visited start with
    | .accepted stop => .ok (some (start, stop))
    | .failed visited => scan m visited (start + 1) count
    | .stopped error => .error error

/-- The states of a search from position `first` on. -/
def bounds (m : Machine) (first : Nat) : Bounds :=
  ⟨m.program.size, first, max first m.subject.size⟩

/-- The end of the match at position `start`, if there is one. -/
def matchEnd (m : Machine) (start : Nat) : Except SearchError (Option Nat) :=
  match m.attempt (b := m.bounds start) {} start with
  | .accepted stop => .ok (some stop)
  | .failed _ => .ok none
  | .stopped error => .error error

/-- Whether there is a match at position `start`. -/
def matchesAt (m : Machine) (start : Nat) : Except SearchError Bool :=
  return (← m.matchEnd start).isSome

/-- The two ends of the first match that starts at position `first` or later. -/
def find (m : Machine) (first : Nat) : Except SearchError (Option (Nat × Nat)) :=
  m.scan (b := m.bounds first) {} first (m.subject.size + 1 - first)

end PatternMachine.Machine
