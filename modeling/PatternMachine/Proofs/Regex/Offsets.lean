import PatternMachine.Proofs.Regex.Build
import PatternMachine.Proofs.Regex.Language

/-!
# Offsets and positions

The subject of a text has an offset for every position, the end included, and finds the position
back: its offsets increase, and they are the boundaries of the text (`Subject.Of.exact`). So a
search is refused for its text or its start exactly where one of them is unsuitable, and a match can
be cut out of its text: it has the characters between the two positions that the machine found
(`Regex.search_offsets`).
-/

namespace PatternMachine

/-! ## Subjects -/

namespace Subject

/-- The offsets and the positions of `s` convert into one another, as those of `text` do. -/
structure Exact (s : Subject) (text : String) : Prop where
  size_eq : s.size = text.toList.length
  increasing : s.offsets.toList.Pairwise (· < ·)
  position?_offset : ∀ i ≤ s.size, ∃ b, s.offset i = .ok b ∧ s.position? b = some i
  /-- The positions are the boundaries, each numbered by the characters in front of it. -/
  position?_iff : ∀ b i, s.position? b = some i ↔
    Text.Boundary text b ∧ (Text.slice text 0 b).toList.length = i
  /-- Any search that is right on increasing lists finds the positions. -/
  search_eq : ∀ search : Array Nat → Nat → Option Nat,
    (∀ xs, xs.toList.Pairwise (· < ·) → ∀ x i, search xs x = some i ↔ xs[i]? = some x) →
    ∀ b, search s.offsets b = s.position? b

namespace Of

variable {s : Subject} {text : String}

/-- The offsets are stored in the order of their positions. -/
theorem getElem?_offsets_eq_some_iff (h : s.Of text) {k b : Nat} :
    s.offsets[k]? = some b ↔ k ≤ s.size ∧ Text.offsetOf text k = b := by
  rw [← h.offset_eq_ok_iff, Subject.offset, Subject.offset?]
  cases s.offsets[k]? <;> simp

/-- They increase, since every character has a byte. -/
theorem increasing (h : s.Of text) : s.offsets.toList.Pairwise (· < ·) := by
  have hget : ∀ {k : Nat} (hk : k < s.offsets.toList.length),
      k ≤ text.toList.length ∧ Text.offsetOf text k = s.offsets.toList[k] := fun {k} hk => by
    rw [← h.size_eq, ← h.getElem?_offsets_eq_some_iff, ← Array.getElem?_toList]
    exact List.getElem?_eq_getElem hk
  rw [List.pairwise_iff_getElem]
  intro i j hi hj hij
  rw [← (hget hi).2, ← (hget hj).2]
  exact Text.offsetOf_lt hij (hget hj).1

/-- The subject of a text converts exactly. -/
theorem exact (h : s.Of text) : s.Exact text where
  size_eq := h.size_eq
  increasing := h.increasing
  position?_offset i hi := ⟨_, h.offset_eq hi, h.position?_eq_some_iff.2 ⟨hi, rfl⟩⟩
  position?_iff b i := by
    have hslice : ∀ {k : Nat}, k ≤ text.toList.length →
        (Text.slice text 0 (Text.offsetOf text k)).toList.length = k := fun {k} hk => by
      have hzero : Text.offsetOf text 0 = 0 := rfl
      have hcut := @Text.toList_slice text 0 k (Nat.zero_le k)
      rw [hzero, List.drop_zero, Nat.sub_zero] at hcut
      rw [hcut, List.length_take, Nat.min_eq_left hk]
    rw [h.position?_eq_some_iff, h.size_eq]
    refine ⟨?_, ?_⟩
    · rintro ⟨hi, rfl⟩
      exact ⟨⟨i, hi, rfl⟩, hslice hi⟩
    · rintro ⟨⟨k, hk, rfl⟩, rfl⟩
      rw [hslice hk]
      exact ⟨hk, rfl⟩
  search_eq search hsearch b := by
    refine Option.ext fun i => ?_
    rw [hsearch _ h.increasing, h.getElem?_offsets_eq_some_iff, h.position?_eq_some_iff]

end Of

/-- A start that is no boundary is refused. -/
theorem locate_eq_invalidStart {text : String} {start : Nat} (h : Text.sentinel ∉ text.toList)
    (hstart : ¬ Text.Boundary text start) : locate text start = .error (.invalidStart start) := by
  obtain ⟨s, hs⟩ := exists_ofString h
  have hnone : s.position? start = none := by
    rw [Option.eq_none_iff_forall_ne_some]
    intro i hi
    exact hstart (((of_ofString hs).exact.position?_iff _ _).1 hi).1
  simp only [locate, hs, bind, Except.bind, hnone]
  rfl

/-- The text is looked at before the start. -/
theorem locate_eq_sentinelInInput {text : String} {before after : List Char}
    (h : text.toList = before ++ Text.sentinel :: after) (hbefore : Text.sentinel ∉ before)
    (start : Nat) :
    locate text start = .error (.sentinelInInput (Text.byteLength before)) := by
  rw [locate, ofString_eq_error h hbefore]
  rfl

end Subject

/-! ## Matches -/

/-- The match has the characters of its text between the positions `i` and `e` of the subject, and
starts and ends at boundaries, so that its text can be cut out. -/
structure Match.Cuts (m : Match) (s : Subject) (i e : Nat) : Prop where
  le : i ≤ e
  start_eq : s.offset i = .ok m.start
  stop_eq : s.offset e = .ok m.stop
  start_le : m.start ≤ m.stop
  stop_le : m.stop ≤ Text.byteLength m.haystack.toList
  start_boundary : Text.Boundary m.haystack m.start
  stop_boundary : Text.Boundary m.haystack m.stop
  text_eq : m.text.toList = (m.haystack.toList.drop i).take (e - i)
  size_eq : m.size = Text.byteLength m.text.toList

/-- Between any two positions of a text there is a match. -/
theorem Subject.Of.cuts {s : Subject} {text : String} (h : s.Of text) {i e : Nat} (hi : i ≤ e)
    (he : e ≤ s.size) :
    (Match.mk text (Text.offsetOf text i) (Text.offsetOf text e)).Cuts s i e := by
  have hle : e ≤ text.toList.length := h.size_eq ▸ he
  have htext : (Match.mk text (Text.offsetOf text i) (Text.offsetOf text e)).text.toList =
      (text.toList.drop i).take (e - i) := Text.toList_slice hi
  refine ⟨hi, h.offset_eq (Nat.le_trans hi he), h.offset_eq he, Text.offsetOf_le hi,
    Text.offsetOf_le_byteLength e, ⟨i, Nat.le_trans hi hle, rfl⟩, ⟨e, hle, rfl⟩, htext, ?_⟩
  rw [htext, Match.size, Text.offsetOf_eq_add hi, Nat.add_sub_cancel_left]

/-! ## Searches -/

namespace Regex

variable {r : Regex} {text : String} {start : Nat}

/-- A search whose start is not found has no other error. -/
theorem search_eq_error_of_locate {error : SearchError}
    (h : Subject.locate text start = .error error) :
    r.findAt text start = .error error ∧ r.endAt text start = .error error := by
  rw [findAt, findPositions, endAt, h]
  exact ⟨rfl, rfl⟩

/-- A match of a search is cut out between the positions that the machine found. -/
theorem cuts_of_findAt (hp : r.program.Closed) {m : Match}
    (h : r.findAt text start = .ok (some m)) : ∃ s first i e,
      Subject.locate text start = .ok (s, first) ∧ (r.machine s).find first = .ok (some (i, e)) ∧
      m.haystack = text ∧ start ≤ m.start ∧ m.Cuts s i e := by
  obtain ⟨s, first, i, e, hlocate, hfind, rfl⟩ := findAt_eq_ok_some h
  obtain ⟨hs, -, rfl⟩ := Subject.of_locate hlocate
  have hreported : (r.machine s).Reported first ((r.machine s).find first) :=
    Machine.reported_find hp first
  rw [hfind] at hreported
  obtain ⟨hfirst, hi, he⟩ := hreported
  exact ⟨s, first, i, e, hlocate, hfind, rfl, Text.offsetOf_le hfirst, hs.cuts hi he⟩

/-- So is what lies between the start of a search and the end that it finds. -/
theorem cuts_of_endAt (hp : r.program.Closed) {stop : Nat}
    (h : r.endAt text start = .ok (some stop)) : ∃ s i e,
      Subject.locate text start = .ok (s, i) ∧ (r.machine s).matchEnd i = .ok (some e) ∧
      (Match.mk text start stop).Cuts s i e := by
  obtain ⟨s, i, e, hlocate, hfound, rfl⟩ := endAt_eq_ok_some h
  obtain ⟨hs, hi, rfl⟩ := Subject.of_locate hlocate
  have hreported : (r.machine s).Reported i (((r.machine s).matchEnd i).map (Option.map (i, ·))) :=
    Machine.reported_matchEnd hp hi
  rw [hfound] at hreported
  obtain ⟨-, hle, he⟩ := hreported
  exact ⟨s, i, e, hlocate, hfound, hs.cuts hle he⟩

/-- Offsets and positions convert into one another exactly, and a match can be cut out of its text.
A text has a subject unless it contains a sentinel. A search is refused for the first sentinel of
its text, and otherwise for a start that is no boundary; it has no other error than that too many
threads have to wait. The ends of a match are boundaries in order, and between them it has the
characters between the positions that the machine found. -/
theorem search_offsets {r : Regex} (hr : r.Built) (text : String) (start : Nat) :
    (∀ before after, text.toList = before ++ Text.sentinel :: after → Text.sentinel ∉ before →
      Subject.ofString text = .error (.sentinelInInput (Text.byteLength before)) ∧
      r.findAt text start = .error (.sentinelInInput (Text.byteLength before)) ∧
      r.endAt text start = .error (.sentinelInInput (Text.byteLength before))) ∧
    (Text.sentinel ∉ text.toList → ∃ s, Subject.ofString text = .ok s ∧ s.Exact text ∧
      (¬ Text.Boundary text start → r.findAt text start = .error (.invalidStart start) ∧
        r.endAt text start = .error (.invalidStart start)) ∧
      (Text.Boundary text start → ∀ error,
        r.findAt text start = .error error ∨ r.endAt text start = .error error →
        error = .threadLimitExceeded r.threadLimit) ∧
      (∀ m, r.findAt text start = .ok (some m) → ∃ first i e, s.position? start = some first ∧
        (r.machine s).find first = .ok (some (i, e)) ∧
        m.haystack = text ∧ start ≤ m.start ∧ m.Cuts s i e) ∧
      ∀ stop, r.endAt text start = .ok (some stop) → ∃ i e, s.position? start = some i ∧
        (r.machine s).matchEnd i = .ok (some e) ∧ (Match.mk text start stop).Cuts s i e) := by
  obtain ⟨p, hsame, hclosed⟩ := hr.exists_pattern
  refine ⟨fun before after htext hbefore => ⟨Subject.ofString_eq_error htext hbefore,
    search_eq_error_of_locate (Subject.locate_eq_sentinelInInput htext hbefore start)⟩,
    fun hsentinel => ?_⟩
  obtain ⟨s, hs⟩ := Subject.exists_ofString hsentinel
  refine ⟨s, hs, (Subject.of_ofString hs).exact, fun hstart =>
    search_eq_error_of_locate (Subject.locate_eq_invalidStart hsentinel hstart),
    fun hstart error herror => ?_, fun m hm => ?_, fun stop hstop => ?_⟩
  · rcases herror with herror | herror
    · exact eq_of_findAt_eq_error hsame hsentinel hstart herror
    · exact eq_of_endAt_eq_error hsame hsentinel hstart herror
  · obtain ⟨s', first, i, e, hlocate, hm⟩ := cuts_of_findAt hclosed hm
    obtain ⟨hs', hpos⟩ := Subject.locate_eq_ok_iff.1 hlocate
    cases hs.symm.trans hs'
    exact ⟨first, i, e, hpos, hm⟩
  · obtain ⟨s', i, e, hlocate, hstop⟩ := cuts_of_endAt hclosed hstop
    obtain ⟨hs', hpos⟩ := Subject.locate_eq_ok_iff.1 hlocate
    cases hs.symm.trans hs'
    exact ⟨i, e, hpos, hstop⟩

/-- The `é` takes two bytes and the snowman three. A sentinel is reported even if the start is
behind the end. -/
theorem search_offsets_snowman : ∃ r, ofPattern {} .any = .ok r ∧ r.Built ∧
    r.findAt "é\x00☃" 9 = .error (.sentinelInInput 2) ∧
    r.findAt "é☃" 3 = .error (.invalidStart 3) ∧ r.endAt "é☃" 6 = .error (.invalidStart 6) ∧
    ∃ s, Subject.ofString "é☃" = .ok s ∧ s.position? 2 = some 1 ∧ s.position? 5 = some 2 := by
  obtain ⟨r, hr, -⟩ := ofPattern_eq_ok {} .any
  have hbuilt : r.Built := .inl ⟨_, _, hr⟩
  have htext : Text.sentinel ∉ "é☃".toList := by decide
  have hinside : ¬ Text.Boundary "é☃" 3 := by decide
  have hbehind : ¬ Text.Boundary "é☃" 6 := by decide
  obtain ⟨hsentinel, -⟩ := search_offsets hbuilt "é\x00☃" 9
  obtain ⟨-, hclean⟩ := search_offsets hbuilt "é☃" 3
  obtain ⟨-, hclean'⟩ := search_offsets hbuilt "é☃" 6
  obtain ⟨s, hs, hexact, hstart, -⟩ := hclean htext
  obtain ⟨-, -, -, hstart', -⟩ := hclean' htext
  refine ⟨r, hr, hbuilt, (hsentinel ['é'] ['☃'] rfl (by decide)).2.1,
    (hstart hinside).1, (hstart' hbehind).2, s, hs,
    (hexact.position?_iff 2 1).2 ⟨⟨1, by decide, rfl⟩, rfl⟩,
    (hexact.position?_iff 5 2).2 ⟨⟨2, by decide, rfl⟩, rfl⟩⟩

end Regex

end PatternMachine
