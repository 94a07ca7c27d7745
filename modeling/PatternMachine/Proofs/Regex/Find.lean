import PatternMachine.Proofs.Machine.Confined
import PatternMachine.Proofs.Regex.Backtracking

/-!
# Searches by byte offsets

A search by byte offsets is a search of the machine, with its start and its result converted. Here
is what each answer of such a search says of the machine. If the program is closed the positions
found by the machine have offsets, and the conversion cannot fail (`Regex.findAt_eq_map`,
`Regex.endAt_eq_map`). So what the machine finds in the program of a pattern is what a regular
expression of the pattern finds (`Regex.exists_find_eq`).
-/

namespace PatternMachine

/-- One computation after the other succeeds exactly if both do. -/
theorem bind_eq_ok_iff {ε α β : Type} {x : Except ε α} {f : α → Except ε β} {b : β} :
    x >>= f = .ok b ↔ ∃ a, x = .ok a ∧ f a = .ok b := by
  cases x with
  | error e => simp [bind, Except.bind]
  | ok a => simp [bind, Except.bind]

namespace Regex

variable {r : Regex} {text : String} {start : Nat}

/-- A search finds what the machine finds from the position at its start. -/
theorem findPositions_eq_ok_iff {s : Subject} {found : Option (Nat × Nat)} :
    r.findPositions text start = .ok (s, found) ↔
      ∃ first, Subject.locate text start = .ok (s, first) ∧
        (r.machine s).find first = .ok found := by
  rw [findPositions, bind_eq_ok_iff]
  refine ⟨?_, ?_⟩
  · intro hyp
    obtain ⟨⟨s', first⟩, hfound, h⟩ := hyp
    obtain ⟨found', hfind, h⟩ := bind_eq_ok_iff.1 h
    cases h
    exact ⟨first, hfound, hfind⟩
  · intro hyp
    obtain ⟨first, hfound, hfind⟩ := hyp
    exact ⟨(s, first), hfound, bind_eq_ok_iff.2 ⟨found, hfind, rfl⟩⟩

/-- A search has no match if the machine has none. -/
theorem findAt_eq_ok_none (h : r.findAt text start = .ok none) :
    ∃ s first, Subject.locate text start = .ok (s, first) ∧
      (r.machine s).find first = .ok none := by
  rw [findAt, bind_eq_ok_iff] at h
  obtain ⟨⟨s, found⟩, hpositions, h⟩ := h
  obtain ⟨first, hlocate, hfind⟩ := findPositions_eq_ok_iff.1 hpositions
  cases found with
  | none => exact ⟨s, first, hlocate, hfind⟩
  | some found =>
    obtain ⟨_, -, h⟩ := bind_eq_ok_iff.1 h
    obtain ⟨_, -, h⟩ := bind_eq_ok_iff.1 h
    cases h

/-- The match of a search is that of the machine. -/
theorem findAt_eq_ok_some {m : Match} (h : r.findAt text start = .ok (some m)) :
    ∃ s first i e, Subject.locate text start = .ok (s, first) ∧
      (r.machine s).find first = .ok (some (i, e)) ∧
      m = ⟨text, Text.offsetOf text i, Text.offsetOf text e⟩ := by
  rw [findAt, bind_eq_ok_iff] at h
  obtain ⟨⟨s, found⟩, hpositions, h⟩ := h
  obtain ⟨first, hlocate, hfind⟩ := findPositions_eq_ok_iff.1 hpositions
  have hs := (Subject.of_locate hlocate).1
  cases found with
  | none => cases h
  | some found =>
    obtain ⟨_, hi, h⟩ := bind_eq_ok_iff.1 h
    obtain ⟨_, he, h⟩ := bind_eq_ok_iff.1 h
    obtain ⟨-, rfl⟩ := hs.offset_eq_ok_iff.1 hi
    obtain ⟨-, rfl⟩ := hs.offset_eq_ok_iff.1 he
    cases h
    exact ⟨s, first, found.1, found.2, hlocate, hfind, rfl⟩

/-- No match begins where the machine has none. -/
theorem endAt_eq_ok_none (h : r.endAt text start = .ok none) :
    ∃ s i, Subject.locate text start = .ok (s, i) ∧ (r.machine s).matchEnd i = .ok none := by
  rw [endAt, bind_eq_ok_iff] at h
  obtain ⟨⟨s, i⟩, hlocate, h⟩ := h
  obtain ⟨found, hmatch, h⟩ := bind_eq_ok_iff.1 h
  cases found with
  | none => exact ⟨s, i, hlocate, hmatch⟩
  | some e =>
    obtain ⟨_, -, h⟩ := bind_eq_ok_iff.1 h
    cases h

/-- The match that begins at a place ends where that of the machine does. -/
theorem endAt_eq_ok_some {stop : Nat} (h : r.endAt text start = .ok (some stop)) :
    ∃ s i e, Subject.locate text start = .ok (s, i) ∧
      (r.machine s).matchEnd i = .ok (some e) ∧ stop = Text.offsetOf text e := by
  rw [endAt, bind_eq_ok_iff] at h
  obtain ⟨⟨s, i⟩, hlocate, h⟩ := h
  obtain ⟨found, hmatch, h⟩ := bind_eq_ok_iff.1 h
  have hs := (Subject.of_locate hlocate).1
  cases found with
  | none => cases h
  | some e =>
    obtain ⟨_, he, h⟩ := bind_eq_ok_iff.1 h
    obtain ⟨-, rfl⟩ := hs.offset_eq_ok_iff.1 he
    cases h
    exact ⟨s, i, e, hlocate, hmatch, rfl⟩

/-! ## Conversion of the result -/

/-- A search from a place is one of the machine, its positions converted to offsets. -/
theorem findAt_eq_map (hp : r.program.Closed) {s : Subject} {first : Nat}
    (hlocate : Subject.locate text start = .ok (s, first)) :
    r.findAt text start = ((r.machine s).find first).map
      (Option.map fun p => ⟨text, Text.offsetOf text p.1, Text.offsetOf text p.2⟩) := by
  have hs := (Subject.of_locate hlocate).1
  have hreported : (r.machine s).Reported first ((r.machine s).find first) :=
    Machine.reported_find hp first
  rw [findAt, findPositions, hlocate]
  cases hfind : (r.machine s).find first with
  | error e => simp [bind, Except.bind, hfind, Except.map]
  | ok found =>
    cases found with
    | none => simp [bind, Except.bind, hfind, Except.map, pure, Except.pure]
    | some found =>
      rw [hfind] at hreported
      obtain ⟨-, hle, hsize⟩ := hreported
      simp [bind, Except.bind, hfind, Except.map, pure, Except.pure,
        hs.offset_eq (Nat.le_trans hle hsize), hs.offset_eq hsize]

/-- So is the search for a match that begins at a place. -/
theorem endAt_eq_map (hp : r.program.Closed) {s : Subject} {i : Nat}
    (hlocate : Subject.locate text start = .ok (s, i)) :
    r.endAt text start =
      ((r.machine s).matchEnd i).map (Option.map (Text.offsetOf text)) := by
  obtain ⟨hs, hi, -⟩ := Subject.of_locate hlocate
  have hreported : (r.machine s).Reported i
      (((r.machine s).matchEnd i).map (Option.map (i, ·))) := Machine.reported_matchEnd hp hi
  rw [endAt, hlocate]
  cases hfound : (r.machine s).matchEnd i with
  | error e => simp [bind, Except.bind, hfound, Except.map]
  | ok found =>
    cases found with
    | none => simp [bind, Except.bind, hfound, Except.map, pure, Except.pure]
    | some e =>
      rw [hfound] at hreported
      obtain ⟨-, -, hsize⟩ := hreported
      simp [bind, Except.bind, hfound, Except.map, pure, Except.pure, hs.offset_eq hsize]

/-- What the machine finds in the program of a pattern is what its regular expression finds,
converted to bytes. -/
theorem exists_find_eq (o : Options) {p : Pattern} {s : Subject} {text : String}
    (hlocate : Subject.locate text 0 = .ok (s, 0)) {found : Option (Nat × Nat)}
    (hfound : (p.machine s o.threadLimit).find 0 = .ok found) :
    ∃ r, ofPattern o p = .ok r ∧ r.find text =
      .ok (found.map fun m => ⟨text, Text.offsetOf text m.1, Text.offsetOf text m.2⟩) := by
  obtain ⟨r, hr, hlimit, h, hclosed, -⟩ := ofPattern_eq_ok o p
  refine ⟨r, hr, ?_⟩
  rw [find, findAt_eq_map hclosed hlocate, machine, ← (h _ _).2, hlimit]
  exact congrArg (Except.map _) hfound

end Regex

end PatternMachine
