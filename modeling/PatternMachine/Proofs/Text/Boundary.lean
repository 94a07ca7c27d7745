import PatternMachine.Text.Located

/-!
# Character boundaries

A byte offset is the boundary of a character if some number of characters ends there
(`Text.offsetOf`). Boundaries are ordered as the numbers of characters before them
(`offsetOf_lt_iff`), and between two of them a slice has the characters between the two positions
(`toList_slice`).
-/

namespace PatternMachine.Text

variable {text : String}

/-- Characters one after the other take the bytes of both parts. -/
theorem byteLength_append (cs ds : List Char) :
    byteLength (cs ++ ds) = byteLength cs + byteLength ds := by
  induction cs with
  | nil => simp [byteLength]
  | cons c cs ih => simp [byteLength, ih, Nat.add_assoc]

/-! ## Boundaries -/

/-- The byte offset behind the first `k` characters. -/
def offsetOf (text : String) (k : Nat) : Nat :=
  byteLength (text.toList.take k)

/-- A character of the text starts at byte `offset`, or the text ends there. -/
def Boundary (text : String) (offset : Nat) : Prop :=
  ∃ k ≤ text.toList.length, offsetOf text k = offset

instance (text : String) (offset : Nat) : Decidable (Boundary text offset) :=
  inferInstanceAs (Decidable (∃ k ≤ text.toList.length, offsetOf text k = offset))

/-- The bytes are those of the text's encoding. -/
theorem byteLength_toList (text : String) : byteLength text.toList = text.utf8ByteSize := by
  have hofList : ∀ cs : List Char, (String.ofList cs).utf8ByteSize = byteLength cs := by
    intro cs
    induction cs with
    | nil => rfl
    | cons c cs ih =>
      rw [String.ofList_cons, String.utf8ByteSize_append, String.utf8ByteSize_singleton, ih,
        byteLength]
  rw [← hofList, String.ofList_toList]

/-- The boundaries are the offsets at which the encoding can be cut. -/
theorem boundary_iff_isValid {offset : Nat} :
    Boundary text offset ↔ String.Pos.Raw.IsValid text ⟨offset⟩ := by
  rw [String.Pos.Raw.isValid_iff_exists_append]
  refine ⟨?_, ?_⟩
  · rintro ⟨k, -, rfl⟩
    refine ⟨String.ofList (text.toList.take k), String.ofList (text.toList.drop k), ?_, ?_⟩
    · rw [← String.ofList_append, List.take_append_drop, String.ofList_toList]
    · rw [String.Pos.Raw.ext_iff, String.byteIdx_rawEndPos, ← byteLength_toList,
        String.toList_ofList]
      rfl
  · rintro ⟨before, after, rfl, hoffset⟩
    refine ⟨before.toList.length, ?_, ?_⟩
    · rw [String.toList_append, List.length_append]
      exact Nat.le_add_right _ _
    · have hbytes : offset = before.utf8ByteSize := congrArg String.Pos.Raw.byteIdx hoffset
      rw [offsetOf, String.toList_append, List.take_left, byteLength_toList, hbytes]

/-- No boundary is behind the end of the text. -/
theorem offsetOf_le_byteLength (k : Nat) : offsetOf text k ≤ byteLength text.toList := by
  have hsplit := byteLength_append (text.toList.take k) (text.toList.drop k)
  rw [List.take_append_drop] at hsplit
  exact hsplit ▸ Nat.le_add_right _ _

/-- Between two positions lie as many bytes as the characters there have. -/
theorem offsetOf_eq_add {i j : Nat} (h : i ≤ j) :
    offsetOf text j = offsetOf text i + byteLength ((text.toList.drop i).take (j - i)) := by
  have : j = i + (j - i) := by omega
  rw [offsetOf, offsetOf, ← byteLength_append, ← List.take_add, ← this]

/-- Later positions have no smaller offsets. -/
theorem offsetOf_le {i j : Nat} (h : i ≤ j) : offsetOf text i ≤ offsetOf text j := by
  rw [offsetOf_eq_add h]
  exact Nat.le_add_right _ _

/-- Within the text they have greater ones, since every character has a byte. -/
theorem offsetOf_lt {i j : Nat} (h : i < j) (hj : j ≤ text.toList.length) :
    offsetOf text i < offsetOf text j := by
  have hi : i < text.toList.length := Nat.lt_of_lt_of_le h hj
  obtain ⟨n, hn⟩ : ∃ n, j - i = n + 1 := ⟨j - i - 1, by omega⟩
  rw [offsetOf_eq_add (Nat.le_of_lt h), List.drop_eq_getElem_cons hi, hn,
    List.take_succ_cons, byteLength]
  have := (text.toList[i]).utf8Size_pos
  omega

/-- Offsets within the text are in the order of their positions. -/
theorem offsetOf_lt_iff {i j : Nat} (hj : j ≤ text.toList.length) :
    offsetOf text i < offsetOf text j ↔ i < j := by
  refine ⟨fun h => Nat.not_le.1 fun hle => ?_, fun h => offsetOf_lt h hj⟩
  exact absurd h (Nat.not_lt.2 (offsetOf_le hle))

/-- So they are with equality allowed. -/
theorem offsetOf_le_iff {i j : Nat} (hi : i ≤ text.toList.length) :
    offsetOf text i ≤ offsetOf text j ↔ i ≤ j := by
  rw [← Nat.not_lt, ← Nat.not_lt, offsetOf_lt_iff hi]

/-- Different positions of the text have different offsets. -/
theorem offsetOf_inj {i j : Nat} (hi : i ≤ text.toList.length) (hj : j ≤ text.toList.length) :
    offsetOf text i = offsetOf text j ↔ i = j := by
  have hij := offsetOf_lt_iff (i := i) hj
  have hji := offsetOf_lt_iff (i := j) hi
  omega

/-! ## Located characters -/

/-- Characters behind others are located behind the bytes of those. -/
theorem locatedFrom_append (offset : Nat) (cs ds : List Char) : locatedFrom offset (cs ++ ds) =
    locatedFrom offset cs ++ locatedFrom (offset + byteLength cs) ds := by
  induction cs generalizing offset with
  | nil => rfl
  | cons c cs ih => simp [locatedFrom, byteLength, ih, Nat.add_assoc]

/-- A located character starts within the bytes of all. -/
theorem offset_mem_locatedFrom {offset : Nat} {cs : List Char} {l : Located}
    (h : l ∈ locatedFrom offset cs) :
    offset ≤ l.offset ∧ l.offset < offset + byteLength cs := by
  induction cs generalizing offset with
  | nil => cases h
  | cons c cs ih =>
    have := c.utf8Size_pos
    rw [byteLength]
    rcases List.mem_cons.1 h with rfl | h
    · exact ⟨Nat.le_refl _, Nat.lt_add_of_pos_right (Nat.add_pos_left this _)⟩
    · have := ih h
      omega

/-- Every character is located at the offset of its position. -/
theorem getElem?_located (k : Nat) : (located text)[k]? =
    (text.toList[k]?).map fun c => ⟨offsetOf text k, c⟩ := by
  have hfrom : ∀ (cs : List Char) (offset k : Nat), (locatedFrom offset cs)[k]? =
      (cs[k]?).map fun c => ⟨offset + byteLength (cs.take k), c⟩ := by
    intro cs
    induction cs with
    | nil => simp [locatedFrom]
    | cons c cs ih =>
      intro offset k
      cases k with
      | zero => simp [locatedFrom, byteLength]
      | succ k => simp [locatedFrom, byteLength, ih, Nat.add_assoc]
  rw [located, hfrom, Nat.zero_add]
  rfl

/-- Between the boundaries of two positions a slice has the characters between these positions. -/
theorem toList_slice {i j : Nat} (h : i ≤ j) :
    (slice text (offsetOf text i) (offsetOf text j)).toList =
      (text.toList.drop i).take (j - i) := by
  have hsplit : text.toList = text.toList.take i ++ ((text.toList.drop i).take (j - i) ++
      text.toList.drop j) := by
    rw [← List.append_assoc, ← List.take_add, Nat.add_sub_cancel' h, List.take_append_drop]
  have hlocated : located text = locatedFrom 0 (text.toList.take i) ++
      (locatedFrom (offsetOf text i) ((text.toList.drop i).take (j - i)) ++
        locatedFrom (offsetOf text j) (text.toList.drop j)) := by
    have hlocated := congrArg (locatedFrom 0) hsplit
    rw [locatedFrom_append, locatedFrom_append, Nat.zero_add] at hlocated
    rw [offsetOf_eq_add h]
    exact hlocated
  have hle := @offsetOf_le text i j h
  rw [slice, hlocated, String.toList_ofList, List.filter_append, List.filter_append,
    List.filter_eq_nil_iff.2, List.filter_eq_self.2, List.filter_eq_nil_iff.2]
  · simp
  · intro l hl
    have := offset_mem_locatedFrom hl
    simp
    omega
  · intro l hl
    have := offset_mem_locatedFrom hl
    rw [← offsetOf_eq_add h] at this
    simpa using this
  · intro l hl
    have := offset_mem_locatedFrom hl
    rw [Nat.zero_add] at this
    have : l.offset < offsetOf text i := this.2
    simp
    omega

/-! ## Suffixes -/

/-- The text from byte `start` on. -/
def suffix (text : String) (start : Nat) : String :=
  slice text start (byteLength text.toList)

/-- The suffix from a position has the characters from there on. -/
theorem toList_suffix (text : String) {k : Nat} (hk : k ≤ text.toList.length) :
    (suffix text (offsetOf text k)).toList = text.toList.drop k := by
  have hend : byteLength text.toList = offsetOf text text.toList.length := by
    rw [offsetOf, List.take_length]
  rw [suffix, hend, toList_slice hk, List.take_of_length_le (Nat.le_of_eq List.length_drop)]

/-- Offsets in the suffix count from its first byte. -/
theorem offsetOf_suffix (text : String) {k : Nat} (hk : k ≤ text.toList.length) (j : Nat) :
    offsetOf text (j + k) = offsetOf (suffix text (offsetOf text k)) j + offsetOf text k := by
  rw [offsetOf_eq_add (Nat.le_add_left k j), Nat.add_sub_cancel, Nat.add_comm, ← toList_suffix _ hk]
  rfl

end PatternMachine.Text
