import PatternMachine.Proofs.Pattern.Parse
import PatternMachine.Proofs.Pattern.Readings
import PatternMachine.Proofs.Token.Scan

/-!
# Reading the text of a pattern

A text is read by reading its tokens from left to right (`Pattern.parse_eq`). So the texts that are
patterns are those with a derivation, and the pattern is the one that the derivation stands for
(`Pattern.parse_eq_ok_iff_derivation`); and any other text is refused with the first violation that
is met when it is read from left to right (`Pattern.parse_reports_first_violation`).
-/

namespace PatternMachine.Pattern

open Grammar

variable {limit : UInt32} {text : String}

/-- The tokens of a text without sentinel. -/
def tokens (text : String) : List Token :=
  Token.characters text ++ [Token.ending (Text.byteLength text.toList)]

/-- The tokens of a text end with its end. -/
theorem ended_tokens : Ended (tokens text) :=
  ended_append rfl fun _ => Token.kind_ne_ending

/-- A text without sentinel is read token by token. -/
theorem parse_eq (hlimit : limit.toNat + 1 < UInt32.size) (h : Text.sentinel ∉ text.toList) :
    parse limit text =
      ((Reader.start.run limit (tokens text)).map fun r => r.content.tree).mapError
        fun v => ⟨v, text⟩ := by
  have hscan : Token.scan text >>= ofTokens limit = ofTokens limit (tokens text) := by
    rw [Token.scan_eq_ok h]
    rfl
  rw [parse, hscan, ofTokens_eq hlimit ended_tokens]
  cases Reader.start.run limit (tokens text) <;> rfl

/-- A text with a sentinel is refused where the first one stands. -/
theorem parse_eq_reserved {before after : List Char}
    (h : text.toList = before ++ Text.sentinel :: after) (hbefore : Text.sentinel ∉ before) :
    parse limit text = .error
      ⟨⟨.reservedCharacter, ⟨Text.byteLength before, Text.byteLength before + 1⟩⟩, text⟩ := by
  rw [parse, Token.scan_eq_error h hbefore]
  rfl

/-- A text without sentinel is a pattern exactly if the reader goes through its tokens, and then it
is the pattern that the reader has read. -/
theorem parse_eq_ok_iff (hlimit : limit.toNat + 1 < UInt32.size) (h : Text.sentinel ∉ text.toList)
    {p : Pattern} : parse limit text = .ok p ↔
      ∃ r, Reader.start.run limit (tokens text) = .ok r ∧ r.content.tree = p := by
  rw [parse_eq hlimit h]
  cases Reader.start.run limit (tokens text) with
  | error v => exact ⟨nofun, nofun⟩
  | ok r =>
    refine ⟨?_, ?_⟩
    · rintro ⟨⟩
      exact ⟨r, rfl, rfl⟩
    · rintro ⟨_, ⟨⟩, rfl⟩
      rfl

/-- It is refused with the violation that the reader finds. -/
theorem parse_eq_error_iff (hlimit : limit.toNat + 1 < UInt32.size)
    (h : Text.sentinel ∉ text.toList) {e : SyntaxError} : parse limit text = .error e ↔
      ∃ v, Reader.start.run limit (tokens text) = .error v ∧ ⟨v, text⟩ = e := by
  rw [parse_eq hlimit h]
  cases Reader.start.run limit (tokens text) with
  | error v =>
    refine ⟨?_, ?_⟩
    · rintro ⟨⟩
      exact ⟨v, rfl, rfl⟩
    · rintro ⟨_, ⟨⟩, rfl⟩
      rfl
  | ok r => exact ⟨nofun, nofun⟩

/-! ## Patterns -/

/-- A derivation that nests no deeper than allowed is read from its text. -/
theorem run_tokens {d : Alternatives} (hd : d.yield = text.toList.map Token.Kind.ofChar)
    (hle : d.nesting ≤ limit.toNat) :
    Reader.start.run limit (tokens text) = .ok ⟨[], d⟩ := by
  have hts : (Token.characters text).map (·.kind) = d.yield :=
    Token.map_kind_characters.trans hd.symm
  rw [tokens, Reader.start, Reader.run_alternatives d hts [] (by simpa using hle),
    Reader.run_of_no_violation rfl]
  rfl

/-- No pattern is read from a text with a sentinel. -/
theorem sentinel_notMem_of_parse {p : Pattern} (h : parse limit text = .ok p) :
    Text.sentinel ∉ text.toList := by
  intro hmem
  obtain ⟨before, after, heq, hbefore⟩ := List.eq_append_cons_of_mem hmem
  rw [parse_eq_reserved heq hbefore] at h
  cases h

/-- A pattern is read along a derivation that nests no deeper than allowed. -/
theorem exists_derivation_of_parse (hlimit : limit.toNat + 1 < UInt32.size) {p : Pattern}
    (h : parse limit text = .ok p) : ∃ d : Alternatives,
      d.yield = text.toList.map Token.Kind.ofChar ∧ d.nesting ≤ limit.toNat ∧ d.tree = p := by
  obtain ⟨r, hrun, rfl⟩ := (parse_eq_ok_iff hlimit (sentinel_notMem_of_parse h)).1 h
  obtain ⟨hyield, hle⟩ := Reader.yield_of_run_ending rfl (fun _ => Token.kind_ne_ending) hrun
  exact ⟨r.content, hyield.trans Token.map_kind_characters, hle, rfl⟩

/-- A text is a pattern exactly if it contains no sentinel and is derived by the grammar with groups
and suffixes that nest at most `limit` deep, and then it is the pattern of that derivation. -/
theorem parse_eq_ok_iff_derivation (hlimit : limit.toNat + 1 < UInt32.size) (text : String)
    (p : Pattern) : parse limit text = .ok p ↔ Text.sentinel ∉ text.toList ∧
      ∃ d : Alternatives, d.yield = text.toList.map Token.Kind.ofChar ∧
        d.nesting ≤ limit.toNat ∧ d.tree = p := by
  refine ⟨fun h => ⟨sentinel_notMem_of_parse h, exists_derivation_of_parse hlimit h⟩, ?_⟩
  rintro ⟨hsentinel, d, hd, hle, rfl⟩
  exact (parse_eq_ok_iff hlimit hsentinel).2 ⟨⟨[], d⟩, run_tokens hd hle, rfl⟩

/-- In `a|(b)*` the suffix and the group in front of it nest two deep. -/
theorem parse_eq_ok_iff_derivation_repeated_group :
    (2 : UInt32).toNat + 1 < UInt32.size ∧
      parse 2 "a|(b)*" = .ok (.alt (.literal 'a') (.star (.literal 'b'))) := by
  refine ⟨by decide, (parse_eq_ok_iff_derivation (by decide) "a|(b)*" _).2 ⟨by decide,
    .snoc (.single (.snoc .empty (.bare (.char 'a')))) (.snoc .empty
      (.suffixed (.bare (.group (.single (.snoc .empty (.bare (.char 'b')))))) .star)),
    by decide, by decide, ?_⟩⟩
  simp [Alternatives.tree, Alternatives.branches, Sequence.items, Item.tree, Factor.tree,
    Suffix.wrap, altAll, seqAll, fold]

/-! ## Violations -/

/-- A violation covers the bytes of a single character. -/
theorem span_of_firstViolation {v : Violation} (h : Reader.FirstViolation limit (tokens text) v) :
    ∃ l ∈ Text.located text, v.span = ⟨l.offset, l.stop⟩ := by
  have hcharacter : ∀ {t : Token}, t ∈ tokens text → t.kind ≠ .ending →
      ∃ l ∈ Text.located text, t.span = ⟨l.offset, l.stop⟩ := by
    intro t ht hk
    rcases List.mem_append.1 ht with ht | ht
    · obtain ⟨l, hl, rfl⟩ := List.mem_map.1 ht
      exact ⟨l, hl, rfl⟩
    · obtain rfl := List.mem_singleton.1 ht
      exact absurd rfl hk
  obtain ⟨before, t, after, r, heq, hrun, hbreaks⟩ := h
  rcases hbreaks.span_eq with ⟨hk, hspan⟩ | ⟨g, hg, hspan⟩
  · rw [hspan]
    exact hcharacter (by simp [heq]) hk
  · obtain ⟨u, hu, hopen, hgroup⟩ :=
      (Reader.exists_opening_of_run hrun hg).resolve_left (by simp [Reader.start])
    rw [hspan, hgroup]
    exact hcharacter (by simp [heq, hu]) (by simp [hopen])

/-- A text with a sentinel is refused where the first one stands. Any other text is refused with
the first violation that is met when its tokens are read from left to right, and is a pattern if
there is none. The reader stands behind what it has read, and has nothing to repeat at the start,
behind `(` and behind `|`, and only there. So no token is ever called unexpected, and what is
reported is the place of a single character. -/
theorem parse_reports_first_violation (hlimit : limit.toNat + 1 < UInt32.size) (text : String) :
    (∀ before after, text.toList = before ++ Text.sentinel :: after → Text.sentinel ∉ before →
      parse limit text = .error
        ⟨⟨.reservedCharacter, ⟨Text.byteLength before, Text.byteLength before + 1⟩⟩, text⟩) ∧
    (Text.sentinel ∉ text.toList →
      (∀ v, parse limit text = .error ⟨v, text⟩ ↔ Reader.FirstViolation limit (tokens text) v) ∧
      ((∀ v, ¬ Reader.FirstViolation limit (tokens text) v) → ∃ p, parse limit text = .ok p)) ∧
    (∀ before r, before <+: Token.characters text → Reader.start.run limit before = .ok r →
      r.yield = before.map (·.kind) ∧ (r.content.operand? = none ↔
        ∀ t, before.getLast? = some t → t.kind = .opening ∨ t.kind = .bar)) ∧
    ∀ e, parse limit text = .error e → e.pattern = text ∧
      (∀ expected found, e.cause ≠ .unexpectedToken expected found) ∧
      ∃ l ∈ Text.located text, e.span = ⟨l.offset, l.stop⟩ := by
  refine ⟨fun before after => parse_eq_reserved, ?first, ?behind, ?place⟩
  case first =>
    intro h
    refine ⟨fun v => ?_, fun hnone => ?_⟩
    · rw [parse_eq_error_iff hlimit h, ← Reader.run_start_eq_error_iff]
      simp
    · cases hrun : Reader.start.run limit (tokens text) with
      | ok r => exact ⟨_, (parse_eq_ok_iff hlimit h).2 ⟨r, hrun, rfl⟩⟩
      | error v => exact absurd (Reader.run_start_eq_error_iff.1 hrun) (hnone v)
  case behind =>
    intro before r hle hrun
    have hbefore : ∀ t ∈ before, t.kind ≠ .ending :=
      fun t ht => Token.kind_ne_ending (hle.subset ht)
    exact ⟨Reader.yield_of_run hrun hbefore, Reader.operand?_of_run hrun hbefore⟩
  case place =>
    intro e h
    by_cases hsentinel : Text.sentinel ∈ text.toList
    · obtain ⟨before, after, heq, hbefore⟩ := List.eq_append_cons_of_mem hsentinel
      rw [parse_eq_reserved heq hbefore] at h
      cases h
      refine ⟨rfl, nofun, ⟨Text.byteLength before, Text.sentinel⟩, ?_, rfl⟩
      simp [Text.located, heq, Text.locatedFrom_append, Text.locatedFrom]
    · obtain ⟨v, hrun, rfl⟩ := (parse_eq_error_iff hlimit hsentinel).1 h
      have hfirst := Reader.run_start_eq_error_iff.1 hrun
      obtain ⟨_, _, _, _, _, _, hbreaks⟩ := id hfirst
      exact ⟨rfl, hbreaks.cause_ne, span_of_firstViolation hfirst⟩

/-- In `é(a*)` one level is allowed, and the suffix takes it. That the group is one level more shows
where it is closed, and is reported where it was opened, behind the two bytes of `é`. -/
theorem parse_reports_first_violation_group :
    (1 : UInt32).toNat + 1 < UInt32.size ∧
      parse 1 "é(a*)" = .error ⟨⟨.nestLimitExceeded 1, ⟨2, 3⟩⟩, "é(a*)"⟩ := by
  have hlimit : (1 : UInt32).toNat + 1 < UInt32.size := by decide
  obtain ⟨-, hreports, -, -⟩ := parse_reports_first_violation hlimit "é(a*)"
  refine ⟨hlimit, ((hreports (by decide)).1 _).2 ?_⟩
  refine ⟨(tokens "é(a*)").take 4, ⟨.closing, ⟨5, 6⟩⟩, [.ending 6],
    ⟨[⟨⟨2, 3⟩, .single (.snoc .empty (.bare (.char 'é')))⟩],
      .single (.snoc .empty (.suffixed (.bare (.char 'a')) .star))⟩, ?tokens, ?run, ?breaks⟩
  case tokens => rfl
  case run => rfl
  case breaks =>
    exact .closedTooDeep (g := ⟨⟨2, 3⟩, .single (.snoc .empty (.bare (.char 'é')))⟩) rfl rfl
      (by decide)

end PatternMachine.Pattern
