import PatternMachine.Proofs.Text.Boundary
import PatternMachine.Subject

/-!
# The subject of a text

`Subject.Of` says what the subject of a text is: it has the characters of the text, none of which is
the sentinel, and the byte offset of every position. Its positions are the boundaries of the text
(`Of.position?_eq_some_iff`).
-/

namespace PatternMachine.Subject

variable {s : Subject} {text : String}

/-- `s` is the subject of `text`. -/
structure Of (s : Subject) (text : String) : Prop where
  sentinel_notMem : Text.sentinel ∉ text.toList
  chars : s.chars.toList = text.toList
  offsets_size : s.offsets.size = text.toList.length + 1
  offset? : ∀ k ≤ text.toList.length, s.offset? k = some (Text.offsetOf text k)

/-- The subject of a text is indexed by its characters, with the text's offsets. -/
theorem of_ofString (h : ofString text = .ok s) : s.Of text := by
  unfold ofString at h
  dsimp only at h
  split at h
  · cases h
  · rename_i hnone
    cases h
    have hlen : (Text.located text).length = text.toList.length := Text.length_locatedFrom _ _
    have hchars : (Text.located text).map (·.char) = text.toList := Text.map_char_locatedFrom _ _
    refine ⟨fun hmem => ?_, hchars, by simp [hlen], fun k hk => ?_⟩
    · rw [← hchars] at hmem
      obtain ⟨l, hl, hc⟩ := List.mem_map.1 hmem
      exact List.find?_eq_none.1 hnone l hl (decide_eq_true hc)
    · rw [Subject.offset?, Array.getElem?_push]
      simp only [List.size_toArray, List.length_map, hlen]
      split
      · rename_i heq
        subst heq
        rw [Text.offsetOf, List.take_length]
      · rename_i hne
        have hlt : k < text.toList.length := by omega
        simp [Text.getElem?_located, List.getElem?_eq_getElem hlt]

/-- A text with a sentinel has no subject, and is refused where the first one stands. -/
theorem ofString_eq_error {before after : List Char}
    (h : text.toList = before ++ Text.sentinel :: after) (hbefore : Text.sentinel ∉ before) :
    ofString text = .error (.sentinelInInput (Text.byteLength before)) := by
  have hnone : (Text.locatedFrom 0 before).find? (fun l => l.char = Text.sentinel) = none := by
    rw [List.find?_eq_none]
    intro l hl hc
    refine hbefore ?_
    rw [← Text.map_char_locatedFrom 0 before]
    exact List.mem_map.2 ⟨l, hl, by simpa using hc⟩
  have hfind : (Text.located text).find? (fun l => l.char = Text.sentinel) =
      some ⟨Text.byteLength before, Text.sentinel⟩ := by
    rw [Text.located, h, Text.locatedFrom_append, List.find?_append, hnone, Nat.zero_add,
      Text.locatedFrom, Option.none_or]
    exact List.find?_cons_of_pos (decide_eq_true rfl)
  unfold ofString
  simp only [hfind]

/-- Every text without sentinel has a subject. -/
theorem exists_ofString (h : Text.sentinel ∉ text.toList) : ∃ s, ofString text = .ok s := by
  unfold ofString
  dsimp only
  split
  · rename_i l hfind
    have hchars : (Text.located text).map (·.char) = text.toList := Text.map_char_locatedFrom _ _
    have hc := List.find?_some hfind
    refine absurd ?_ h
    rw [← hchars]
    exact List.mem_map.2 ⟨l, List.mem_of_find?_eq_some hfind, by simpa using hc⟩
  · exact ⟨_, rfl⟩

/-- A byte is located exactly where the text has a subject and the byte a position in it. -/
theorem locate_eq_ok_iff {start pos : Nat} :
    locate text start = .ok (s, pos) ↔ ofString text = .ok s ∧ s.position? start = some pos := by
  unfold locate
  cases ofString text with
  | error e => simp [bind, Except.bind]
  | ok s' =>
    simp only [bind, Except.bind, Except.ok.injEq]
    cases hp : s'.position? start with
    | none =>
      simp only [reduceCtorEq, false_iff]
      intro hyp
      obtain ⟨rfl, h⟩ := hyp
      rw [hp] at h
      cases h
    | some pos' =>
      simp only [pure, Except.pure, Except.ok.injEq, Prod.mk.injEq]
      refine ⟨?_, ?_⟩
      · intro hyp
        obtain ⟨rfl, rfl⟩ := hyp
        exact ⟨rfl, hp⟩
      · intro hyp
        obtain ⟨rfl, h⟩ := hyp
        rw [hp] at h
        cases h
        exact ⟨rfl, rfl⟩

namespace Of

/-- The subject of a text is as long as the text has characters. -/
theorem size_eq (h : s.Of text) : s.size = text.toList.length := by
  rw [Subject.size, ← Array.length_toList, h.chars]

/-- At every position is the character of the text, and at the end the sentinel. -/
theorem at?_eq (h : s.Of text) {k : Nat} (hk : k ≤ text.toList.length) :
    s.at? k = some ((text.toList[k]?).getD Text.sentinel) := by
  rw [← h.chars, Array.getElem?_toList]
  unfold Subject.at?
  split
  · rename_i hlt
    rw [Array.getElem?_eq_getElem hlt, Option.getD_some]
  · rename_i hge
    have : k = s.chars.size := by
      have := h.size_eq
      rw [Subject.size] at this
      omega
    rw [if_pos this, Array.getElem?_eq_none (Nat.not_lt.1 hge), Option.getD_none]

/-- Behind the end there is no character. -/
theorem at?_eq_none (h : s.Of text) {k : Nat} (hk : text.toList.length < k) : s.at? k = none := by
  have hsize := h.size_eq
  rw [Subject.size] at hsize
  unfold Subject.at?
  rw [dif_neg (by omega), if_neg (by omega)]

/-- The offset of a position is that of the characters before it. -/
theorem offset_eq (h : s.Of text) {k : Nat} (hk : k ≤ s.size) :
    s.offset k = .ok (Text.offsetOf text k) := by
  rw [Subject.offset, h.offset? k (h.size_eq ▸ hk)]

/-- The positions up to the end are those that have an offset. -/
theorem offset_eq_ok_iff (h : s.Of text) {k offset : Nat} :
    s.offset k = .ok offset ↔ k ≤ s.size ∧ Text.offsetOf text k = offset := by
  refine ⟨?_, ?_⟩
  · intro hk
    have hle : k ≤ s.size := by
      rw [h.size_eq]
      refine Nat.not_lt.1 ?_
      intro hlt
      have hnone : s.offset? k = none :=
        Array.getElem?_eq_none (by rw [h.offsets_size]; omega)
      rw [Subject.offset, hnone] at hk
      cases hk
    rw [h.offset_eq hle] at hk
    exact ⟨hle, Except.ok.inj hk⟩
  · intro hyp
    obtain ⟨hk, rfl⟩ := hyp
    exact h.offset_eq hk

/-- The positions of the subject are the boundaries of its text. -/
theorem position?_eq_some_iff (h : s.Of text) {offset k : Nat} :
    s.position? offset = some k ↔ k ≤ s.size ∧ Text.offsetOf text k = offset := by
  have hget : ∀ {k : Nat} (hk : k < s.offsets.size), s.offsets[k] = Text.offsetOf text k := by
    intro k hk
    have := h.offset? k (by have := h.offsets_size; omega)
    rw [Subject.offset?, Array.getElem?_eq_getElem hk] at this
    exact Option.some.inj this
  rw [Subject.position?, Array.findIdx?_eq_some_iff_getElem, h.size_eq]
  refine ⟨?_, ?_⟩
  · intro hyp
    obtain ⟨hk, heq, -⟩ := hyp
    rw [hget hk, decide_eq_true_iff] at heq
    exact ⟨by have := h.offsets_size; omega, heq⟩
  · intro hyp
    obtain ⟨hk, heq⟩ := hyp
    have hlt : k < s.offsets.size := by have := h.offsets_size; omega
    refine ⟨hlt, by simpa [hget hlt] using heq, ?_⟩
    intro j hj
    have := Text.offsetOf_lt hj hk
    rw [hget (Nat.lt_trans hj hlt)]
    simp
    omega

end Of

/-- A place found in a text is a position of its subject. -/
theorem of_locate {start pos : Nat} (h : locate text start = .ok (s, pos)) :
    s.Of text ∧ pos ≤ s.size ∧ Text.offsetOf text pos = start := by
  obtain ⟨hs, hpos⟩ := locate_eq_ok_iff.1 h
  exact ⟨of_ofString hs, (of_ofString hs).position?_eq_some_iff.1 hpos⟩

/-- Every position is found at its offset. -/
theorem locate_offsetOf (hs : ofString text = .ok s) {k : Nat} (hk : k ≤ s.size) :
    locate text (Text.offsetOf text k) = .ok (s, k) :=
  locate_eq_ok_iff.2 ⟨hs, (of_ofString hs).position?_eq_some_iff.2 ⟨hk, rfl⟩⟩

/-- Every boundary of a text without sentinel is found. -/
theorem exists_locate {start : Nat} (h : Text.sentinel ∉ text.toList)
    (hstart : Text.Boundary text start) : ∃ s pos, locate text start = .ok (s, pos) := by
  obtain ⟨s, hs⟩ := exists_ofString h
  obtain ⟨k, hk, rfl⟩ := hstart
  exact ⟨s, k, locate_offsetOf hs ((of_ofString hs).size_eq ▸ hk)⟩

end PatternMachine.Subject
