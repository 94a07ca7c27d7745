import PatternMachine.Proofs.Draft.Fragments
import PatternMachine.Proofs.Pattern.Render
import PatternMachine.Proofs.Program.OfPattern
import PatternMachine.Regex.Build

/-!
# Building never fails on a pattern

Every pattern becomes a regular expression (`Regex.compile_eq_ok`), whatever the options are. So
what can be wrong with a regular expression given as text is the text alone: building it fails if
and only if reading it does, and with the same error. A pattern given directly is known by its
written form, which belongs to no other one.
-/

namespace PatternMachine.Regex

/-- Every pattern becomes a regular expression. Its program answers every search as the program of
the pattern does, is closed, and ends in its only `accept`. -/
theorem compile_eq_ok (o : Options) (source : String) (p : Pattern) :
    ∃ q, compile o source p = .ok ⟨source, q, o.threadLimit⟩ ∧ p.program.SameAnswers q ∧
      q.Closed ∧ q.EndsInAccept := by
  obtain ⟨a, ha, hsame, hclosed, hends⟩ := Assembly.ofPattern_eq_ok o.shorten p
  refine ⟨a.program, ?_, hsame, hclosed, hends⟩
  simp only [compile, ha, bind, Except.bind, pure, Except.pure]

/-- The same holds of a pattern given directly. -/
theorem ofPattern_eq_ok (o : Options) (p : Pattern) :
    ∃ r, ofPattern o p = .ok r ∧ r.threadLimit = o.threadLimit ∧
      p.program.SameAnswers r.program ∧ r.program.Closed ∧ r.program.EndsInAccept := by
  obtain ⟨q, hq, h⟩ := compile_eq_ok o p.render p
  exact ⟨⟨p.render, q, o.threadLimit⟩, by rw [ofPattern, hq]; rfl, rfl, h⟩

/-- `r` was built, from a pattern or from a text. -/
def Built (r : Regex) : Prop :=
  (∃ o p, ofPattern o p = .ok r) ∨ ∃ o text, ofString o text = .ok r

/-- Whatever `r` was built from, it has the answers of a pattern's program. -/
theorem Built.exists_pattern {r : Regex} (h : r.Built) :
    ∃ p : Pattern, p.program.SameAnswers r.program ∧ r.program.Closed := by
  have hcompile : ∀ {o : Options} {source : String} {p : Pattern},
      (compile o source p).mapError BuildError.inconsistent = .ok r →
      p.program.SameAnswers r.program ∧ r.program.Closed := by
    intro o source p h
    obtain ⟨q, hq, hsame, hclosed, -⟩ := compile_eq_ok o source p
    rw [hq] at h
    cases h
    exact ⟨hsame, hclosed⟩
  rcases h with ⟨o, p, h⟩ | ⟨o, text, h⟩
  · exact ⟨p, hcompile h⟩
  · rw [ofString] at h
    cases hp : Pattern.parse o.nestLimit text with
    | error e =>
      rw [hp] at h
      cases h
    | ok p =>
      rw [hp] at h
      exact ⟨p, hcompile h⟩

/-- A text is refused exactly if it is no pattern, and then for that reason. -/
theorem ofString_eq_error_iff (o : Options) (text : String) (error : BuildError) :
    ofString o text = .error error ↔
      ∃ e, Pattern.parse o.nestLimit text = .error e ∧ error = .malformed e := by
  unfold ofString
  cases hp : Pattern.parse o.nestLimit text with
  | error e =>
    simp only [Except.mapError, bind, Except.bind, Except.error.injEq, exists_eq_left']
    exact eq_comm
  | ok p =>
    obtain ⟨q, hq, -⟩ := compile_eq_ok o text p
    simp only [Except.mapError, bind, Except.bind, hq, reduceCtorEq, false_and, exists_false]

/-- No pattern and no text brings up an inconsistency: the draft of a pattern can be made, by
pushing its parts as well as by splicing fragments, and becomes a regular expression whose program
has one `accept`, at its end, and targets within itself only. Building from a text fails exactly if
reading it does. -/
theorem build_never_inconsistent (o : Options) (p : Pattern) :
    (∃ d, Draft.ofPattern p = .ok d ∧ Draft.ofFragments p = .ok d) ∧
    (∃ r, ofPattern o p = .ok r ∧ 0 < r.program.size ∧
      (∀ k, r.program.code[k]? = some .accept ↔ k + 1 = r.program.size) ∧
      ∀ (pc : Nat) (i : Instr Nat), r.program.code[pc]? = some i →
        ∀ t ∈ i.targets, t < r.program.size) ∧
    ∀ text error, ofString o text = .error error ↔
      ∃ e, Pattern.parse o.nestLimit text = .error e ∧ error = .malformed e := by
  refine ⟨⟨_, Draft.ofPattern_eq_ok p, ?_⟩, ?_, ofString_eq_error_iff o⟩
  · rw [Draft.ofFragments_eq_ofPattern, Draft.ofPattern_eq_ok]
  · obtain ⟨r, hr, -, -, hclosed, hends⟩ := ofPattern_eq_ok o p
    exact ⟨r, hr, hclosed.size_pos, hends, fun _ _ => hclosed.targets_lt⟩

/-- A regular expression of a pattern given directly is known by the written pattern. -/
theorem source_of_ofPattern {o : Options} {p : Pattern} {r : Regex} (h : ofPattern o p = .ok r) :
    r.source = p.render := by
  obtain ⟨q, hq, -⟩ := compile_eq_ok o p.render p
  rw [ofPattern, hq] at h
  cases h
  rfl

/-- The written form of a pattern is unambiguous. No two patterns have the same one, and none begins
with that of another one; so no two of them become regular expressions that are known by the same
name. -/
theorem render_unambiguous (p q : Pattern) :
    (p.render = q.render ↔ p = q) ∧ (p.render.toList <+: q.render.toList ↔ p = q) ∧
    ∀ o o' : Options, ∃ r r', ofPattern o p = .ok r ∧ ofPattern o' q = .ok r' ∧
      (r.source = r'.source ↔ p = q) := by
  have hrender : p.render = q.render ↔ p = q := by
    rw [← String.toList_inj]
    exact Pattern.selfDelimiting_render.eq_iff
  refine ⟨hrender, Pattern.selfDelimiting_render.prefix_iff, fun o o' => ?_⟩
  obtain ⟨r, hr, -⟩ := ofPattern_eq_ok o p
  obtain ⟨r', hr', -⟩ := ofPattern_eq_ok o' q
  refine ⟨r, r', hr, hr', ?_⟩
  rw [source_of_ofPattern hr, source_of_ofPattern hr']
  exact hrender

end PatternMachine.Regex
