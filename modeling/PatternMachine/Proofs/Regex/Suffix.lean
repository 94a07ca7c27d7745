import PatternMachine.Proofs.Machine.Shifted
import PatternMachine.Proofs.Regex.Build
import PatternMachine.Proofs.Regex.Find

/-!
# Nothing before the start of a search matters

The subject of a suffix has the characters of the whole text, its positions shifted by the number of
characters before the suffix, and its offsets by the number of bytes (`Subject.Of.at?_add`,
`Text.offsetOf_suffix`). So a search from a boundary has the result of a search of the suffix that
begins there, in bytes of the whole text (`Regex.search_suffix`).
-/

namespace PatternMachine

/-! ## Subjects of suffixes -/

namespace Subject.Of

variable {s s' : Subject} {text : String} {k : Nat}

/-- A suffix has the characters of the whole text, and the whole text has the `k` before it. -/
theorem size_suffix (hs : s.Of text) (hk : k ≤ text.toList.length)
    (hs' : s'.Of (Text.suffix text (Text.offsetOf text k))) : s.size = s'.size + k := by
  rw [hs.size_eq, hs'.size_eq, Text.toList_suffix text hk, List.length_drop]
  omega

/-- The same character stands `k` positions later in the whole text. -/
theorem at?_add (hs : s.Of text) (hk : k ≤ text.toList.length)
    (hs' : s'.Of (Text.suffix text (Text.offsetOf text k))) (pos : Nat) :
    s.at? (pos + k) = s'.at? pos := by
  have hdrop := Text.toList_suffix text hk
  have hlen : (Text.suffix text (Text.offsetOf text k)).toList.length =
      text.toList.length - k := by rw [hdrop, List.length_drop]
  rcases Nat.lt_or_ge (text.toList.length - k) pos with hlt | hge
  · rw [hs.at?_eq_none (by omega), hs'.at?_eq_none (by omega)]
  · rw [hs.at?_eq (by omega), hs'.at?_eq (by omega), hdrop, List.getElem?_drop, Nat.add_comm]

/-- A machine over the whole text does behind the first `k` characters what it does over the
suffix. -/
theorem shifted (hs : s.Of text) (hk : k ≤ text.toList.length)
    (hs' : s'.Of (Text.suffix text (Text.offsetOf text k))) (r : Regex) :
    (r.machine s).Shifted (r.machine s') k where
  program := rfl
  threadLimit := rfl
  at? := hs.at?_add hk hs'
  size := hs.size_suffix hk hs'

end Subject.Of

/-! ## Searches of suffixes -/

namespace Regex

/-- To convert what is found twice is to convert it once. -/
theorem map_map_found {α β γ : Type} (x : Except SearchError (Option α)) {f : α → β} {g : β → γ}
    {f' : α → γ} (h : ∀ a, g (f a) = f' a) :
    (x.map (Option.map f)).map (Option.map g) = x.map (Option.map f') := by
  cases x with
  | error e => rfl
  | ok found =>
    cases found with
    | none => rfl
    | some a => exact congrArg (fun c => Except.ok (some c)) (h a)

/-- Whatever the regular expression and the boundary `b` of a text, a search from `b` on has the
result of a search of the suffix that begins at `b`, and a search for a match that begins at a later
boundary the result of that at the same place of the suffix: the same end or match, `b` bytes
further on, none in the same cases, and the same error. -/
theorem search_suffix {r : Regex} (hr : r.Built) {text : String}
    (htext : Text.sentinel ∉ text.toList) {b : Nat} (hb : Text.Boundary text b) :
    r.findAt text b = (r.find (Text.suffix text b)).map
        (Option.map fun m => ⟨text, m.start + b, m.stop + b⟩) ∧
      ∀ c, b ≤ c → Text.Boundary text c →
        r.endAt text c = (r.endAt (Text.suffix text b) (c - b)).map (Option.map (· + b)) := by
  obtain ⟨-, -, hclosed⟩ := hr.exists_pattern
  obtain ⟨k, hk, rfl⟩ := hb
  obtain ⟨s, hs⟩ := Subject.exists_ofString htext
  have hsuffix : Text.sentinel ∉ (Text.suffix text (Text.offsetOf text k)).toList := fun hmem =>
    htext (List.mem_of_mem_drop (Text.toList_suffix text hk ▸ hmem))
  obtain ⟨s', hs'⟩ := Subject.exists_ofString hsuffix
  have hshift := (Subject.of_ofString hs).shifted hk (Subject.of_ofString hs') r
  have hsize : s.size = s'.size + k := hshift.size
  refine ⟨?_, ?_⟩
  · have hlocate : Subject.locate text (Text.offsetOf text k) = .ok (s, 0 + k) := by
      rw [Nat.zero_add]
      exact Subject.locate_offsetOf hs (by omega)
    have hlocate' : Subject.locate (Text.suffix text (Text.offsetOf text k)) 0 = .ok (s', 0) := by
      have hzero : ∀ t : String, Text.offsetOf t 0 = 0 := fun _ => rfl
      have hlocated := Subject.locate_offsetOf hs' (Nat.zero_le _)
      rwa [hzero] at hlocated
    rw [find, findAt_eq_map hclosed hlocate, hshift.find_eq hclosed, findAt_eq_map hclosed hlocate',
      map_map_found _ fun _ => rfl, map_map_found _ fun _ => rfl]
    simp only [Text.offsetOf_suffix text hk]
  · rintro c hbc ⟨j, hj, rfl⟩
    have hkj := (Text.offsetOf_le_iff hk).1 hbc
    obtain ⟨i, rfl⟩ := Nat.exists_eq_add_of_le' hkj
    have hi : i ≤ s'.size := by
      rw [← (Subject.of_ofString hs).size_eq] at hj
      omega
    rw [Text.offsetOf_suffix text hk, Nat.add_sub_cancel, ← Text.offsetOf_suffix text hk,
      endAt_eq_map hclosed (Subject.locate_offsetOf hs (by omega)), hshift.matchEnd_eq hclosed hi,
      endAt_eq_map hclosed (Subject.locate_offsetOf hs' hi), map_map_found _ fun _ => rfl,
      map_map_found _ fun _ => rfl]
    simp only [Text.offsetOf_suffix text hk]

/-- The snowman takes three bytes, so that the match begins and ends three bytes later. -/
theorem search_suffix_snowman : ∃ r, ofPattern {} (.seq (.literal 'b') .any) = .ok r ∧ r.Built ∧
    Text.sentinel ∉ "☃ab☃".toList ∧ Text.Boundary "☃ab☃" 3 ∧
    Text.suffix "☃ab☃" 3 = "ab☃" ∧
    r.find "ab☃" = .ok (some ⟨"ab☃", 1, 5⟩) ∧
    r.findAt "☃ab☃" 3 = .ok (some ⟨"☃ab☃", 4, 8⟩) ∧
    r.endAt "☃ab☃" 4 = (r.endAt "ab☃" 1).map (Option.map (· + 3)) := by
  have hlocate : Subject.locate "ab☃" 0 = .ok (⟨#['a', 'b', '☃'], #[0, 1, 2, 5]⟩, 0) :=
    Subject.locate_offsetOf (k := 0) rfl (Nat.zero_le _)
  have hfound : ((Pattern.seq (.literal 'b') .any).machine
      ⟨#['a', 'b', '☃'], #[0, 1, 2, 5]⟩ 10000).find 0 = .ok (some (1, 3)) :=
    Machine.find_eq_of_stageAfter (Pattern.closed_program _) 7 rfl
  obtain ⟨r, hr, hfirst⟩ := exists_find_eq {} hlocate hfound
  have hbuilt : r.Built := .inl ⟨_, _, hr⟩
  have htext : Text.sentinel ∉ "☃ab☃".toList := by decide
  have hb : Text.Boundary "☃ab☃" 3 := ⟨1, by decide, rfl⟩
  have hsuffix : Text.suffix "☃ab☃" 3 = "ab☃" := rfl
  obtain ⟨hfind, hend⟩ := search_suffix hbuilt htext hb
  have hend := hend 4 (by decide) ⟨2, by decide, rfl⟩
  rw [hsuffix, hfirst] at hfind
  rw [hsuffix] at hend
  exact ⟨r, hr, hbuilt, htext, hb, hsuffix, hfirst, hfind, hend⟩

end Regex

end PatternMachine
