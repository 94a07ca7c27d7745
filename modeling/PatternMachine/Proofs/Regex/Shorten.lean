import PatternMachine.Proofs.Regex.Build
import PatternMachine.Proofs.Subject
import PatternMachine.Regex.Find

/-!
# Shortening changes no answer

Regular expressions whose programs have the same answers on positions have the same answers on byte
offsets (`Program.SameAnswers.findAt_eq`, `Program.SameAnswers.endAt_eq`). Since both the program
that is left as it is and the shortened one answer as the program of the pattern, it cannot be told
from any search whether a regular expression was shortened.
-/

namespace PatternMachine

namespace Program.SameAnswers

variable {r r' : Regex}

/-- Regular expressions with the same answers find the same matches. -/
theorem findAt_eq (h : r.program.SameAnswers r'.program) (hl : r.threadLimit = r'.threadLimit)
    (text : String) (start : Nat) : r.findAt text start = r'.findAt text start := by
  have hpos : r.findPositions text start = r'.findPositions text start := by
    unfold Regex.findPositions
    cases Subject.locate text start with
    | error e => rfl
    | ok found =>
      have := (h found.1 r.threadLimit).2 found.2
      simp only [bind, Except.bind, Regex.machine, ← hl, this]
  rw [Regex.findAt, Regex.findAt, hpos]

/-- They find the same ends. -/
theorem endAt_eq (h : r.program.SameAnswers r'.program) (hl : r.threadLimit = r'.threadLimit)
    (text : String) (start : Nat) : r.endAt text start = r'.endAt text start := by
  unfold Regex.endAt
  cases hfound : Subject.locate text start with
  | error e => rfl
  | ok found =>
    have := (h found.1 r.threadLimit).1 found.2 (Subject.of_locate hfound).2.1
    simp only [bind, Except.bind, Regex.machine, ← hl, this]

end Program.SameAnswers

/-- The shortened regular expression of a pattern and the one that is left as it is have the same
result in every search, errors included. -/
theorem Regex.shorten_keeps_results (o : Options) (p : Pattern) :
    ∃ r r', ofPattern { o with shorten := true } p = .ok r ∧
      ofPattern { o with shorten := false } p = .ok r' ∧
      ∀ text start, r.findAt text start = r'.findAt text start ∧
        r.isMatch text = r'.isMatch text ∧
        r.matchesAt text start = r'.matchesAt text start ∧
        r.endAt text start = r'.endAt text start := by
  obtain ⟨r, hr, hl, h, -⟩ := ofPattern_eq_ok { o with shorten := true } p
  obtain ⟨r', hr', hl', h', -⟩ := ofPattern_eq_ok { o with shorten := false } p
  have hsame : r.program.SameAnswers r'.program := h.symm.trans h'
  refine ⟨r, r', hr, hr', ?_⟩
  intro text start
  have hfind := hsame.findAt_eq (hl.trans hl'.symm) text
  have hend := hsame.endAt_eq (hl.trans hl'.symm) text
  refine ⟨hfind start, ?_, ?_, hend start⟩
  · rw [isMatch, isMatch, find, find, hfind 0]
  · rw [matchesAt, matchesAt, hend start]

end PatternMachine
