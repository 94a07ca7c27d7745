import PatternMachine.Proofs.Program.Ends
import PatternMachine.Proofs.Regex.Backtracking

/-!
# Searches prefer earlier alternatives and more repetitions

If no repetition within a pattern repeats a pattern that describes the empty text, an attempt of its
regular expression finds the first end in the list of the pattern, and a search the first position
that has an end at all (`Regex.search_priority`).
-/

namespace PatternMachine

/-- Backtracking finds the first end in the list of the pattern. -/
theorem Pattern.firstEnd_eq_head? {p : Pattern} {s : Subject} {text : String}
    {limit first i : Nat} (hs : s.Of text) (hp : p.Productive) (hfirst : first ≤ i)
    (hi : i ≤ s.size) : p.firstEnd s limit first i = (p.ends text.toList i).head? := by
  have hres := resolves_head? (m := p.machine s limit) hs rfl hp (hs.size_eq ▸ hi)
  exact hres.firstEnd_eq (Machine.staysIn_bounds p.closed_program (Nat.le_trans hfirst hi))
    (Machine.contains_start p.closed_program hfirst (Nat.le_trans hi (Nat.le_max_right _ _)))

namespace Program.SameAnswers

variable {r : Regex} {p : Pattern} {s : Subject} {text : String} {first i e : Nat}

/-- An attempt finds the preferred end. -/
theorem eq_head?_of_matchEnd (h : p.program.SameAnswers r.program) (hs : s.Of text)
    (hp : p.Productive) (hi : i ≤ s.size) {found : Option Nat}
    (hfound : (r.machine s).matchEnd i = .ok found) : found = (p.ends text.toList i).head? := by
  rw [← h.firstEnd_of_matchEnd hi hfound]
  exact Pattern.firstEnd_eq_head? hs hp (Nat.le_refl i) hi

/-- Where a search finds nothing, no position has an end. -/
theorem ends_eq_nil_of_find (h : p.program.SameAnswers r.program) (hs : s.Of text)
    (hp : p.Productive) (hnone : (r.machine s).find first = .ok none) (hfirst : first ≤ i)
    (hi : i ≤ s.size) : p.ends text.toList i = [] := by
  rw [← List.head?_eq_none_iff, ← Pattern.firstEnd_eq_head? hs hp hfirst hi]
  exact h.firstEnd_of_find_none hnone hfirst hi

/-- A search finds the preferred end of the first position that has one. -/
theorem head?_ends_of_find (h : p.program.SameAnswers r.program) (hs : s.Of text)
    (hp : p.Productive) (hfound : (r.machine s).find first = .ok (some (i, e))) :
    first ≤ i ∧ i ≤ s.size ∧ (p.ends text.toList i).head? = some e ∧
      ∀ k, first ≤ k → k < i → p.ends text.toList k = [] := by
  obtain ⟨hfirst, hi, hend, hbefore⟩ := h.firstEnd_of_find_some hfound
  rw [Pattern.firstEnd_eq_head? hs hp hfirst hi] at hend
  refine ⟨hfirst, hi, hend, ?_⟩
  intro k hk hki
  rw [← List.head?_eq_none_iff,
    ← Pattern.firstEnd_eq_head? hs hp hk (Nat.le_trans (Nat.le_of_lt hki) hi)]
  exact hbefore k hk hki

end Program.SameAnswers

namespace Regex

/-- Unless too many threads have to wait, an attempt at a position of a text finds the first end in
the list of the pattern, and nothing if the list is empty; and a search finds the first position
whose list is not empty, with the first end in that list. No more threads have to wait than there
are `split` instructions in the program of the pattern times positions. -/
theorem search_priority (o : Options) {p : Pattern} (hp : p.Productive) :
    ∃ r, ofPattern o p = .ok r ∧ ∀ text, Text.sentinel ∉ text.toList →
      ∃ s, Subject.ofString text = .ok s ∧
        (∀ i ≤ s.size,
          (r.machine s).matchEnd i = .ok (p.ends text.toList i).head? ∨
            (r.machine s).matchEnd i = .error (.threadLimitExceeded o.threadLimit)) ∧
        (∀ first,
          ((r.machine s).find first = .ok none ∧
            ∀ i, first ≤ i → i ≤ s.size → p.ends text.toList i = []) ∨
          (∃ i e, (r.machine s).find first = .ok (some (i, e)) ∧ first ≤ i ∧ i ≤ s.size ∧
            (p.ends text.toList i).head? = some e ∧
            ∀ k, first ≤ k → k < i → p.ends text.toList k = []) ∨
          (r.machine s).find first = .error (.threadLimitExceeded o.threadLimit)) ∧
        ∀ first, p.program.splits * (s.size + 1 - first) ≤ o.threadLimit →
          (first ≤ s.size →
            (r.machine s).matchEnd first ≠ .error (.threadLimitExceeded o.threadLimit)) ∧
          (r.machine s).find first ≠ .error (.threadLimitExceeded o.threadLimit) := by
  obtain ⟨r, hr, hlimit, h, -⟩ := ofPattern_eq_ok o p
  refine ⟨r, hr, ?_⟩
  intro text htext
  obtain ⟨s, hs⟩ := Subject.exists_ofString htext
  have hof := Subject.of_ofString hs
  rw [← hlimit]
  refine ⟨s, hs, fun i hi => ?_, fun first => ?_, fun first hsplits =>
    ⟨fun hle => h.matchEnd_ne_threadLimitExceeded hle hsplits,
      h.find_ne_threadLimitExceeded hsplits⟩⟩
  · cases hfound : (r.machine s).matchEnd i with
    | ok found => exact .inl (by rw [h.eq_head?_of_matchEnd hof hp hi hfound])
    | error error => exact .inr (by rw [h.eq_of_matchEnd_eq_error hi hfound])
  · match hfind : (r.machine s).find first with
    | .ok none => exact .inl ⟨rfl, fun i => h.ends_eq_nil_of_find hof hp hfind⟩
    | .ok (some (i, e)) => exact .inr (.inl ⟨i, e, rfl, h.head?_ends_of_find hof hp hfind⟩)
    | .error error => exact .inr (.inr (by rw [h.eq_of_find_eq_error hfind]))

/-- The pattern `(a|ab)*`. -/
def repeatedAOrAB : Pattern :=
  .star (.alt (.literal 'a') (.seq (.literal 'a') (.literal 'b')))

/-- In `(a|ab)*` the first alternative is preferred, and then no further round is possible, although
the second alternative would read all of `aba`. At the `b` no round is possible. -/
theorem search_priority_alternatives :
    repeatedAOrAB.Productive ∧ ∃ r, ofPattern {} repeatedAOrAB = .ok r ∧
      ∃ s, Subject.ofString "aba" = .ok s ∧ (r.machine s).matchEnd 0 = .ok (some 1) ∧
        (r.machine s).matchEnd 1 = .ok (some 1) ∧ (r.machine s).find 0 = .ok (some (0, 1)) := by
  have hp : repeatedAOrAB.Productive := by
    refine ⟨?_, trivial, trivial, trivial⟩
    simp [Pattern.mem_language_alt, Pattern.mem_language_literal, Pattern.mem_language_seq]
  obtain ⟨r, hr, h⟩ := search_priority {} hp
  obtain ⟨s, hs, hattempt, hsearch, hlimit⟩ := h "aba" (by decide)
  have hsize : s.size = 3 := by
    cases hs
    rfl
  have hfits : ∀ first ≤ s.size,
      repeatedAOrAB.program.splits * (s.size + 1 - first) ≤ ({} : Options).threadLimit := by
    intro first hle
    show 2 * (s.size + 1 - first) ≤ 10000
    omega
  have hends : repeatedAOrAB.ends "aba".toList 0 = [1, 3, 2, 0] := by cbv
  have hends' : repeatedAOrAB.ends "aba".toList 1 = [1] := by cbv
  have hzero := (hattempt 0 (Nat.zero_le _)).resolve_right
    ((hlimit 0 (hfits 0 (Nat.zero_le _))).1 (Nat.zero_le _))
  have hone := (hattempt 1 (by omega)).resolve_right ((hlimit 1 (hfits 1 (by omega))).1 (by omega))
  rw [hends] at hzero
  rw [hends'] at hone
  refine ⟨hp, r, hr, s, hs, hzero, hone, ?_⟩
  rcases hsearch 0 with ⟨-, hnone⟩ | ⟨i, e, hfind, -, -, hend, hbefore⟩ | herror
  · have hnil := hnone 0 (Nat.le_refl _) (Nat.zero_le _)
    rw [hends] at hnil
    cases hnil
  · rcases Nat.eq_zero_or_pos i with rfl | hpos
    · rw [hends] at hend
      cases hend
      exact hfind
    · have hnil := hbefore 0 (Nat.le_refl _) hpos
      rw [hends] at hnil
      cases hnil
  · exact absurd herror (hlimit 0 (hfits 0 (Nat.zero_le _))).2

end Regex

end PatternMachine
