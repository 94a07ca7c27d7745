import PatternMachine.Proofs.Machine.Execution
import PatternMachine.Proofs.Program.Rounds
import PatternMachine.Proofs.Regex.Fold
import PatternMachine.Proofs.Regex.Language

/-!
# Once, and any number of times more

The patterns `plus p` and `seq p (star p)` have the same texts, so that searches for them find
matches that begin alike. Where these end depends on the states that are in use when a round begins.
They end alike if the rounds make progress (`Regex.plus_eq_seq_star`); if a round prefers the empty
text to others, they need not (`Regex.plus_ne_seq_star`).
-/

namespace PatternMachine

namespace Pattern

/-- Backtracking finds one end for both patterns if the rounds make progress. -/
theorem firstEnd_plus_eq {p : Pattern} {s : Subject} {text : String} {limit first i e e' : Nat}
    (hs : s.Of text) (hp : p.Progresses text.toList i) (hfirst : first ≤ i) (hi : i ≤ s.size)
    (h : (plus p).firstEnd s limit first i = some e)
    (h' : (seq p (star p)).firstEnd s limit first i = some e') : e = e' := by
  let n := p.machine s limit
  cases hfound : p.firstEnd s limit first i with
  | none =>
    -- A text of the repetition begins with a text of the pattern.
    obtain ⟨w, ⟨u, hu, v, -, rfl⟩, hw, -⟩ := spans_of_firstEnd hs hi h
    exact absurd ⟨u, hu, (List.prefix_append u v).trans hw, rfl⟩
      (not_spans_of_firstEnd hs hfirst hi hfound _)
  | some e₁ =>
    obtain ⟨he₁, last, hrounds⟩ :=
      Progresses.exists_rounds (n := n) rfl hs hp hfirst hi hfound
    have hplus : (plus p).firstEnd s limit first i = some last :=
      firstEnd_repetitions (n := n) (m := (plus p).machine s limit) rfl rfl (.inl rfl) hfirst hi he₁
        hfound hrounds
    have hseq : (seq p (star p)).firstEnd s limit first i = some last :=
      firstEnd_repetitions (n := n) (m := (seq p (star p)).machine s limit) rfl rfl (.inr rfl)
        hfirst hi he₁ hfound hrounds
    exact Option.some.inj (h.symm.trans (hplus.trans (hseq.symm.trans h')))

end Pattern

namespace Regex

/-- Searches for patterns with the same texts have matches that begin alike, or the same error,
unless one of them had to let too many threads wait. -/
theorem map_start_findAt {r r' : Regex} {p q : Pattern} (h : p.program.SameAnswers r.program)
    (h' : q.program.SameAnswers r'.program) (hclosed : r.program.Closed)
    (hclosed' : r'.program.Closed) (hlanguage : p.language = q.language) (text : String)
    (start : Nat) :
    SameUnlessStopped ((r.findAt text start).map (Option.map Match.start))
      ((r'.findAt text start).map (Option.map Match.start)) := by
  cases hlocate : Subject.locate text start with
  | error error =>
    refine .inl ?_
    rw [findAt, findAt, findPositions, findPositions, hlocate]
    rfl
  | ok located =>
    obtain ⟨s, first⟩ := located
    obtain ⟨hs, -, -⟩ := Subject.of_locate hlocate
    rw [findAt_eq_map hclosed hlocate, findAt_eq_map hclosed' hlocate]
    cases hfound : (r.machine s).find first with
    | error error =>
      rw [h.eq_of_find_eq_error hfound]
      exact .inr (.inl ⟨_, rfl⟩)
    | ok found =>
      cases hfound' : (r'.machine s).find first with
      | error error =>
        rw [h'.eq_of_find_eq_error hfound']
        exact .inr (.inr ⟨_, rfl⟩)
      | ok found' =>
        have hstart := congrArg (Option.map (Text.offsetOf text))
          (h.start_eq_of_find h' hlanguage hs hfound hfound')
        rw [Option.map_map, Option.map_map] at hstart
        refine .inl (congrArg Except.ok ?_)
        rw [Option.map_map, Option.map_map]
        exact hstart

/-- Whatever pattern is repeated, one round or more, and one round followed by any number of rounds,
have matches that begin alike, unless one of the two searches lets too many threads wait. The
matches end alike if the rounds from their beginning make progress: if the repeated pattern does not
describe the empty text, or if no repetition within it repeats a pattern that does and every round
behind the first one prefers to come further on. -/
theorem plus_eq_seq_star (o : Options) (p : Pattern) :
    ∃ r r', ofPattern o (.plus p) = .ok r ∧ ofPattern o (.seq p (.star p)) = .ok r' ∧
      ∀ text start,
        SameUnlessStopped ((r.findAt text start).map (Option.map Match.start))
          ((r'.findAt text start).map (Option.map Match.start)) ∧
        ∀ m m', r.findAt text start = .ok (some m) → r'.findAt text start = .ok (some m') →
          (∀ i, Text.offsetOf text i = m.start → p.Progresses text.toList i) → m = m' := by
  obtain ⟨r, hr, hlimit, h, hclosed, -⟩ := ofPattern_eq_ok o (.plus p)
  obtain ⟨r', hr', hlimit', h', hclosed', -⟩ := ofPattern_eq_ok o (.seq p (.star p))
  refine ⟨r, r', hr, hr', fun text start =>
    ⟨map_start_findAt h h' hclosed hclosed' rfl text start, ?_⟩⟩
  intro m m' hm hm' hp
  obtain ⟨s, first, i, e, hlocate, hfind, rfl⟩ := findAt_eq_ok_some hm
  obtain ⟨s', first', i', e', hlocate', hfind', rfl⟩ := findAt_eq_ok_some hm'
  rw [hlocate] at hlocate'
  cases hlocate'
  have hs := (Subject.of_locate hlocate).1
  obtain rfl : i = i' := Option.some.inj (h.start_eq_of_find h' rfl hs hfind hfind')
  obtain ⟨hfirst, hi, hend, -⟩ := h.firstEnd_of_find_some hfind
  obtain ⟨-, -, hend', -⟩ := h'.firstEnd_of_find_some hfind'
  rw [hlimit] at hend
  rw [hlimit'] at hend'
  rw [Pattern.firstEnd_plus_eq hs (hp i rfl) hfirst hi hend hend']

/-- An `a` or nothing, repeated: the empty text is left to the last round. -/
theorem plus_eq_seq_star_optional :
    (∀ i, (Pattern.opt (.literal 'a')).Progresses "aa".toList i) ∧
    ∃ r r', ofPattern {} (.plus (.opt (.literal 'a'))) = .ok r ∧
      ofPattern {} (.seq (.opt (.literal 'a')) (.star (.opt (.literal 'a')))) = .ok r' ∧
      r.find "aa" = .ok (some ⟨"aa", 0, 2⟩) ∧ r'.find "aa" = .ok (some ⟨"aa", 0, 2⟩) := by
  have hend : ∀ i, 2 ≤ i → (Pattern.opt (.literal 'a')).Advances "aa".toList i := by
    intro i hi
    refine .stop ?_
    rintro j ⟨w, -, hw, rfl⟩
    have hnil : "aa".toList.drop i = [] := List.drop_eq_nil_of_le hi
    rw [hnil, List.prefix_nil] at hw
    rw [hw, List.length_nil, Nat.add_zero]
  have hadvances : ∀ i, (Pattern.opt (.literal 'a')).Advances "aa".toList i := by
    have hone := Pattern.Advances.round (p := .opt (.literal 'a')) (i := 1) rfl (Nat.lt_succ_self 1)
      (hend 2 (Nat.le_refl 2))
    intro i
    match i with
    | 0 => exact .round rfl Nat.one_pos hone
    | 1 => exact hone
    | i + 2 => exact hend _ (Nat.le_add_left 2 i)
  have hprogresses : ∀ i, (Pattern.opt (.literal 'a')).Progresses "aa".toList i :=
    fun i => .inr ⟨trivial, fun e _ => hadvances e⟩
  have hlocate : Subject.locate "aa" 0 = .ok (⟨#['a', 'a'], #[0, 1, 2]⟩, 0) :=
    Subject.locate_offsetOf (k := 0) rfl (Nat.zero_le _)
  have hplus : ((Pattern.plus (.opt (.literal 'a'))).machine
      ⟨#['a', 'a'], #[0, 1, 2]⟩ 10000).find 0 = .ok (some (0, 2)) :=
    Machine.find_eq_of_stageAfter (Pattern.closed_program _) 16 rfl
  obtain ⟨e, hseq⟩ : ∃ e, ((Pattern.seq (.opt (.literal 'a')) (.star (.opt (.literal 'a')))).machine
      ⟨#['a', 'a'], #[0, 1, 2]⟩ 10000).find 0 = .ok (some (0, e)) :=
    ⟨_, Machine.find_eq_of_stageAfter (Pattern.closed_program _) 20 rfl⟩
  obtain ⟨r, hr, hfind⟩ := exists_find_eq {} hlocate hplus
  obtain ⟨r', hr', hfind'⟩ := exists_find_eq {} hlocate hseq
  obtain ⟨q, q', hq, hq', hsame⟩ := plus_eq_seq_star {} (.opt (.literal 'a'))
  cases hr.symm.trans hq
  cases hr'.symm.trans hq'
  have heq := (hsame "aa" 0).2 _ _ hfind hfind' fun i _ => hprogresses i
  exact ⟨hprogresses, r, r', hr, hr', hfind,
    hfind'.trans (congrArg (fun m => Except.ok (some m)) heq.symm)⟩

/-! ## Rounds that prefer the empty text -/

/-- Nothing, or else an `a`. -/
def nothingOrA : Pattern :=
  .alt .empty (.literal 'a')

/-- The first round is empty. The second one would begin in a state that the first one has used, so
the search leaves the repetition. -/
theorem find_plus_nothingOrA :
    ((Pattern.plus nothingOrA).machine ⟨#['a'], #[0, 1]⟩ 10000).find 0 = .ok (some (0, 0)) :=
  Machine.find_eq_of_stageAfter (Pattern.closed_program _) 8 rfl

/-- The second round has instructions of its own. Empty, it comes back to the test in use, and so it
reads the `a`. -/
theorem find_seq_star_nothingOrA :
    ((Pattern.seq nothingOrA (.star nothingOrA)).machine ⟨#['a'], #[0, 1]⟩ 10000).find 0 =
      .ok (some (0, 1)) :=
  Machine.find_eq_of_stageAfter (Pattern.closed_program _) 22 rfl

/-- Of nothing or else an `a`, one round or more is nothing, but one round followed by any number of
rounds is an `a`. -/
theorem plus_ne_seq_star :
    ∃ r r', ofPattern {} (.plus nothingOrA) = .ok r ∧
      ofPattern {} (.seq nothingOrA (.star nothingOrA)) = .ok r' ∧
      r.find "a" = .ok (some ⟨"a", 0, 0⟩) ∧ r'.find "a" = .ok (some ⟨"a", 0, 1⟩) := by
  have hlocate : Subject.locate "a" 0 = .ok (⟨#['a'], #[0, 1]⟩, 0) :=
    Subject.locate_offsetOf (k := 0) rfl (Nat.zero_le _)
  obtain ⟨r, hr, hfind⟩ := exists_find_eq {} hlocate find_plus_nothingOrA
  obtain ⟨r', hr', hfind'⟩ := exists_find_eq {} hlocate find_seq_star_nothingOrA
  exact ⟨r, r', hr, hr', hfind, hfind'⟩

end Regex

end PatternMachine
