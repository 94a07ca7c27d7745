import PatternMachine.Proofs.Machine.Limit
import PatternMachine.Proofs.Regex.Build
import PatternMachine.Regex.Find

/-!
# Regular expressions backtrack in the program of their pattern

A regular expression has the answers of its pattern's program, shortened or not, and these are what
backtracking in that program finds. So nothing that is proved of a search has to look at a shortened
program.
-/

namespace PatternMachine

/-- The machine that runs the program of a pattern as it is. -/
def Pattern.machine (p : Pattern) (s : Subject) (threadLimit : Nat) : Machine :=
  ⟨p.program, s, threadLimit⟩

/-- What backtracking in the program of `p` finds at position `i`, in a search from `first` on. -/
def Pattern.firstEnd (p : Pattern) (s : Subject) (threadLimit first i : Nat) : Option Nat :=
  let m := p.machine s threadLimit
  m.firstEnd (Machine.allRoom (m.bounds first)) ⟨Program.start, i⟩

namespace Program.SameAnswers

variable {r : Regex} {p : Pattern} {s : Subject} {first i e : Nat} {error : SearchError}

/-- The end of an attempt is what backtracking finds. -/
theorem firstEnd_of_matchEnd (h : p.program.SameAnswers r.program) (hi : i ≤ s.size)
    {found : Option Nat} (hfound : (r.machine s).matchEnd i = .ok found) :
    p.firstEnd s r.threadLimit i i = found := by
  rw [Regex.machine, ← (h s r.threadLimit).1 i hi] at hfound
  exact Machine.firstEnd_of_matchEnd p.closed_program hi hfound

/-- A search without a match has no position from which backtracking finds an end. -/
theorem firstEnd_of_find_none (h : p.program.SameAnswers r.program)
    (hnone : (r.machine s).find first = .ok none) (hfirst : first ≤ i) (hi : i ≤ s.size) :
    p.firstEnd s r.threadLimit first i = none := by
  rw [Regex.machine, ← (h s r.threadLimit).2 first] at hnone
  exact Machine.firstEnd_of_find_none p.closed_program hnone hfirst hi

/-- The match of a search is what backtracking finds from its start, and from no earlier position
does it find anything. -/
theorem firstEnd_of_find_some (h : p.program.SameAnswers r.program)
    (hfound : (r.machine s).find first = .ok (some (i, e))) :
    first ≤ i ∧ i ≤ s.size ∧ p.firstEnd s r.threadLimit first i = some e ∧
      ∀ k, first ≤ k → k < i → p.firstEnd s r.threadLimit first k = none := by
  rw [Regex.machine, ← (h s r.threadLimit).2 first] at hfound
  exact Machine.firstEnd_of_find_some p.closed_program hfound

/-- An attempt without an answer let too many threads wait. -/
theorem eq_of_matchEnd_eq_error (h : p.program.SameAnswers r.program) (hi : i ≤ s.size)
    (herror : (r.machine s).matchEnd i = .error error) :
    error = .threadLimitExceeded r.threadLimit := by
  rw [Regex.machine, ← (h s r.threadLimit).1 i hi] at herror
  exact Machine.eq_of_matchEnd_eq_error p.closed_program hi herror

/-- A search without an answer let too many threads wait. -/
theorem eq_of_find_eq_error (h : p.program.SameAnswers r.program)
    (herror : (r.machine s).find first = .error error) :
    error = .threadLimitExceeded r.threadLimit := by
  rw [Regex.machine, ← (h s r.threadLimit).2 first] at herror
  exact Machine.eq_of_find_eq_error p.closed_program herror

/-- With as many waiting threads as there are `split` instructions times positions, no attempt gives
up. -/
theorem matchEnd_ne_threadLimitExceeded (h : p.program.SameAnswers r.program) (hi : i ≤ s.size)
    (hlimit : p.program.splits * (s.size + 1 - i) ≤ r.threadLimit) :
    (r.machine s).matchEnd i ≠ .error (.threadLimitExceeded r.threadLimit) := by
  rw [Regex.machine, ← (h s r.threadLimit).1 i hi]
  exact Machine.matchEnd_ne_threadLimitExceeded p.closed_program hi hlimit

/-- Nor does a search. -/
theorem find_ne_threadLimitExceeded (h : p.program.SameAnswers r.program)
    (hlimit : p.program.splits * (s.size + 1 - first) ≤ r.threadLimit) :
    (r.machine s).find first ≠ .error (.threadLimitExceeded r.threadLimit) := by
  rw [Regex.machine, ← (h s r.threadLimit).2 first]
  exact Machine.find_ne_threadLimitExceeded p.closed_program hlimit

end Program.SameAnswers

end PatternMachine
