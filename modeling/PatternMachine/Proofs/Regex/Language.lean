import PatternMachine.Proofs.Program.Language
import PatternMachine.Proofs.Regex.Backtracking
import PatternMachine.Proofs.Regex.Find

/-!
# Searches find the language of the pattern

A regular expression has the answers of its pattern's program, so what its machine finds is the
first place where a text of the pattern starts, with the end of such a text there. Between byte
offsets this reads: a search returns a slice of the text that belongs to the language of the
pattern, and none at an earlier boundary does (`Regex.search_language`).
-/

namespace PatternMachine

/-! ## Texts of a pattern between boundaries -/

/-- The bytes `start` and `stop` are boundaries of `text` and the slice between them is a text of
`p`. -/
structure Pattern.Occurs (p : Pattern) (text : String) (start stop : Nat) : Prop where
  start_boundary : Text.Boundary text start
  stop_boundary : Text.Boundary text stop
  start_le : start ≤ stop
  slice_mem : (Text.slice text start stop).toList ∈ p.language

namespace Pattern

variable {p : Pattern} {text : String}

/-- What is spanned between two positions occurs between their offsets. -/
theorem Spans.occurs {i j : Nat} (h : p.Spans text.toList i j) (hi : i ≤ text.toList.length) :
    p.Occurs text (Text.offsetOf text i) (Text.offsetOf text j) := by
  obtain ⟨hij, hj, hw⟩ := (spans_iff_take hi).1 h
  refine ⟨⟨i, hi, rfl⟩, ⟨j, hj, rfl⟩, Text.offsetOf_le hij, ?_⟩
  rwa [Text.toList_slice hij]

/-- What occurs between two boundaries is spanned between their positions. -/
theorem Occurs.spans {start stop : Nat} (h : p.Occurs text start stop) :
    ∃ i j, i ≤ text.toList.length ∧ Text.offsetOf text i = start ∧
      Text.offsetOf text j = stop ∧ p.Spans text.toList i j := by
  obtain ⟨⟨i, hi, rfl⟩, ⟨j, hj, rfl⟩, hle, hw⟩ := h
  have hij := (Text.offsetOf_le_iff hi).1 hle
  rw [Text.toList_slice hij] at hw
  exact ⟨i, j, hi, rfl, rfl, (spans_iff_take hi).2 ⟨hij, hj, hw⟩⟩

end Pattern

/-! ## The positions a regular expression finds -/

namespace Pattern

variable {p : Pattern} {s : Subject} {text : String} {limit first i e : Nat}

/-- What backtracking finds is the end of a text of the pattern. -/
theorem spans_of_firstEnd (hs : s.Of text) (hi : i ≤ s.size)
    (h : p.firstEnd s limit first i = some e) : p.Spans text.toList i e :=
  (canAccept_iff_spans (m := p.machine s limit) hs rfl (hs.size_eq ▸ hi)).1
    (Machine.canAccept_of_firstEnd h)

/-- Where backtracking finds nothing no text of the pattern begins. -/
theorem not_spans_of_firstEnd (hs : s.Of text) (hfirst : first ≤ i) (hi : i ≤ s.size)
    (h : p.firstEnd s limit first i = none) (e : Nat) : ¬ p.Spans text.toList i e := by
  rw [← canAccept_iff_spans (m := p.machine s limit) hs rfl (hs.size_eq ▸ hi)]
  exact Machine.not_canAccept_of_firstEnd
    (Machine.staysIn_bounds p.closed_program (Nat.le_trans hfirst hi))
    (Machine.contains_start p.closed_program hfirst (Nat.le_trans hi (Nat.le_max_right _ _))) h e

end Pattern

namespace Program.SameAnswers

variable {r : Regex} {p : Pattern} {s : Subject} {text : String} {first i e : Nat}

/-- An attempt finds the end of a text of the pattern. -/
theorem spans_of_matchEnd (h : p.program.SameAnswers r.program) (hs : s.Of text) (hi : i ≤ s.size)
    (hfound : (r.machine s).matchEnd i = .ok (some e)) : p.Spans text.toList i e :=
  Pattern.spans_of_firstEnd hs hi (h.firstEnd_of_matchEnd hi hfound)

/-- Where an attempt finds no end, no text of the pattern starts. -/
theorem not_spans_of_matchEnd (h : p.program.SameAnswers r.program) (hs : s.Of text)
    (hi : i ≤ s.size) (hnone : (r.machine s).matchEnd i = .ok none) (e : Nat) :
    ¬ p.Spans text.toList i e :=
  Pattern.not_spans_of_firstEnd hs (Nat.le_refl i) hi (h.firstEnd_of_matchEnd hi hnone) e

/-- A search finds the first position at which a text of the pattern starts, and the end of one. -/
theorem spans_of_find (h : p.program.SameAnswers r.program) (hs : s.Of text)
    (hfound : (r.machine s).find first = .ok (some (i, e))) :
    first ≤ i ∧ i ≤ s.size ∧ p.Spans text.toList i e ∧
      ∀ k, first ≤ k → k < i → ∀ j, ¬ p.Spans text.toList k j := by
  obtain ⟨hfirst, hi, hend, hbefore⟩ := h.firstEnd_of_find_some hfound
  refine ⟨hfirst, hi, Pattern.spans_of_firstEnd hs hi hend, ?_⟩
  intro k hk hki
  exact Pattern.not_spans_of_firstEnd hs hk (Nat.le_trans (Nat.le_of_lt hki) hi) (hbefore k hk hki)

/-- Where a search finds nothing, no text of the pattern starts from its start on. -/
theorem not_spans_of_find (h : p.program.SameAnswers r.program) (hs : s.Of text)
    (hnone : (r.machine s).find first = .ok none) (hfirst : first ≤ i) (hi : i ≤ s.size) (e : Nat) :
    ¬ p.Spans text.toList i e :=
  Pattern.not_spans_of_firstEnd hs hfirst hi (h.firstEnd_of_find_none hnone hfirst hi) e

/-- Searches for patterns with the same texts find matches that begin alike. -/
theorem start_eq_of_find {q : Pattern} {r' : Regex} (h : p.program.SameAnswers r.program)
    (h' : q.program.SameAnswers r'.program) (hlanguage : p.language = q.language) (hs : s.Of text)
    {found found' : Option (Nat × Nat)} (hfound : (r.machine s).find first = .ok found)
    (hfound' : (r'.machine s).find first = .ok found') :
    found.map Prod.fst = found'.map Prod.fst := by
  have hspans : ∀ {i j}, p.Spans text.toList i j ↔ q.Spans text.toList i j := fun {i j} => by
    rw [Pattern.Spans, Pattern.Spans, hlanguage]
  cases found with
  | none =>
    cases found' with
    | none => rfl
    | some found' =>
      obtain ⟨hfirst, hi, hspan, -⟩ := h'.spans_of_find hs hfound'
      exact absurd (hspans.2 hspan) (h.not_spans_of_find hs hfound hfirst hi _)
  | some found =>
    obtain ⟨hfirst, hi, hspan, hbefore⟩ := h.spans_of_find hs hfound
    cases found' with
    | none => exact absurd (hspans.1 hspan) (h'.not_spans_of_find hs hfound' hfirst hi _)
    | some found' =>
      obtain ⟨hfirst', -, hspan', hbefore'⟩ := h'.spans_of_find hs hfound'
      rcases Nat.lt_trichotomy found.1 found'.1 with hlt | heq | hlt
      · exact absurd (hspans.1 hspan) (hbefore' _ hfirst hlt _)
      · exact congrArg some heq
      · exact absurd (hspans.2 hspan') (hbefore _ hfirst' hlt _)

end Program.SameAnswers

/-! ## The bytes a regular expression finds -/

namespace Regex

section

variable {r : Regex} {p : Pattern} {text : String} {start : Nat} {error : SearchError}

/-- From a boundary of a text without sentinel a search has an answer, unless too many threads have
to wait. -/
theorem eq_of_findAt_eq_error (h : p.program.SameAnswers r.program)
    (hsentinel : Text.sentinel ∉ text.toList) (hstart : Text.Boundary text start)
    (herror : r.findAt text start = .error error) :
    error = .threadLimitExceeded r.threadLimit := by
  obtain ⟨s, first, hlocate⟩ := Subject.exists_locate hsentinel hstart
  obtain ⟨hs, -, -⟩ := Subject.of_locate hlocate
  cases hfind : (r.machine s).find first with
  | error e =>
    rw [findAt, findPositions, hlocate] at herror
    simp only [bind, Except.bind, hfind, Except.error.injEq] at herror
    exact herror ▸ h.eq_of_find_eq_error hfind
  | ok found =>
    rw [findAt, findPositions_eq_ok_iff.2 ⟨first, hlocate, hfind⟩] at herror
    cases found with
    | none => cases herror
    | some found =>
      -- The ends of a match are positions of the text, so they have offsets.
      obtain ⟨-, hi, hspans, -⟩ := h.spans_of_find hs hfind
      have he := ((Pattern.spans_iff_take (hs.size_eq ▸ hi)).1 hspans).2.1
      simp only [bind, Except.bind, hs.offset_eq hi, hs.offset_eq (hs.size_eq ▸ he)] at herror
      cases herror

/-- Nor does an attempt in such a text fail for another reason. -/
theorem eq_of_endAt_eq_error (h : p.program.SameAnswers r.program)
    (hsentinel : Text.sentinel ∉ text.toList) (hstart : Text.Boundary text start)
    (herror : r.endAt text start = .error error) :
    error = .threadLimitExceeded r.threadLimit := by
  obtain ⟨s, i, hlocate⟩ := Subject.exists_locate hsentinel hstart
  obtain ⟨hs, hi, -⟩ := Subject.of_locate hlocate
  rw [endAt, hlocate] at herror
  cases hfound : (r.machine s).matchEnd i with
  | error e =>
    simp only [bind, Except.bind, hfound, Except.error.injEq] at herror
    exact herror ▸ h.eq_of_matchEnd_eq_error hi hfound
  | ok found =>
    cases found with
    | none =>
      simp only [bind, Except.bind, hfound] at herror
      cases herror
    | some e =>
      have hspans := h.spans_of_matchEnd hs hi hfound
      have he := ((Pattern.spans_iff_take (hs.size_eq ▸ hi)).1 hspans).2.1
      simp only [bind, Except.bind, hfound, hs.offset_eq (hs.size_eq ▸ he)] at herror
      cases herror

end

/-- A match of the regular expression of a pattern is a text of the pattern, and no text of the
pattern starts between the start of the search and the match. If there is no match, no text of the
pattern starts from there on. The end of a match that begins at the start of the search is the end
of a text of the pattern, and if there is none, no text of the pattern starts there. From a boundary
of a text without sentinel a search does have an answer, unless too many threads have to wait. -/
theorem search_language (o : Options) (p : Pattern) :
    ∃ r, ofPattern o p = .ok r ∧ ∀ text start,
      (∀ m, r.findAt text start = .ok (some m) →
        m.haystack = text ∧ start ≤ m.start ∧ p.Occurs text m.start m.stop ∧
          ∀ i j, start ≤ i → i < m.start → ¬ p.Occurs text i j) ∧
      (r.findAt text start = .ok none → ∀ i j, start ≤ i → ¬ p.Occurs text i j) ∧
      (∀ stop, r.endAt text start = .ok (some stop) → p.Occurs text start stop) ∧
      (r.endAt text start = .ok none → ∀ stop, ¬ p.Occurs text start stop) ∧
      ∀ error, Text.sentinel ∉ text.toList → Text.Boundary text start →
        r.findAt text start = .error error ∨ r.endAt text start = .error error →
        error = .threadLimitExceeded o.threadLimit := by
  obtain ⟨r, hr, hlimit, h, -⟩ := ofPattern_eq_ok o p
  refine ⟨r, hr, fun text start => ⟨?found, ?none, ?stops, ?nowhere, ?error⟩⟩
  case found =>
    intro m hm
    obtain ⟨s, first, i, e, hlocate, hfind, rfl⟩ := findAt_eq_ok_some hm
    obtain ⟨hs, hle, rfl⟩ := Subject.of_locate hlocate
    obtain ⟨hfirst, hi, hspans, hbefore⟩ := h.spans_of_find hs hfind
    rw [hs.size_eq] at hi hle
    refine ⟨rfl, Text.offsetOf_le hfirst, hspans.occurs hi, ?_⟩
    intro start' stop' hge hlt hoccurs
    obtain ⟨k, j, hk, rfl, -, hkj⟩ := hoccurs.spans
    exact hbefore k ((Text.offsetOf_le_iff hle).1 hge) ((Text.offsetOf_lt_iff hi).1 hlt) j hkj
  case none =>
    intro hnone start' stop' hge hoccurs
    obtain ⟨s, first, hlocate, hfind⟩ := findAt_eq_ok_none hnone
    obtain ⟨hs, hle, rfl⟩ := Subject.of_locate hlocate
    obtain ⟨k, j, hk, rfl, -, hkj⟩ := hoccurs.spans
    rw [hs.size_eq] at hle
    exact h.not_spans_of_find hs hfind ((Text.offsetOf_le_iff hle).1 hge) (hs.size_eq ▸ hk) j hkj
  case stops =>
    intro stop hstop
    obtain ⟨s, i, e, hlocate, hfound, rfl⟩ := endAt_eq_ok_some hstop
    obtain ⟨hs, hi, rfl⟩ := Subject.of_locate hlocate
    exact (h.spans_of_matchEnd hs hi hfound).occurs (hs.size_eq ▸ hi)
  case nowhere =>
    intro hnone stop hoccurs
    obtain ⟨s, i, hlocate, hfound⟩ := endAt_eq_ok_none hnone
    obtain ⟨hs, hi, rfl⟩ := Subject.of_locate hlocate
    obtain ⟨k, j, hk, hki, -, hkj⟩ := hoccurs.spans
    obtain rfl := (Text.offsetOf_inj hk (hs.size_eq ▸ hi)).1 hki
    exact h.not_spans_of_matchEnd hs hi hfound j hkj
  case error =>
    intro error hsentinel hstart herror
    rcases herror with herror | herror
    · exact hlimit ▸ eq_of_findAt_eq_error h hsentinel hstart herror
    · exact hlimit ▸ eq_of_endAt_eq_error h hsentinel hstart herror

end Regex

end PatternMachine
