import PatternMachine.Proofs.Text.Boundary
import PatternMachine.Token.Scan

/-!
# The tokens of a text

A text without sentinel has one token for each character, and the ending token behind them
(`Token.scan_eq_ok`). A text with a sentinel has none, and is refused where the first one stands
(`Token.scan_eq_error`).
-/

namespace PatternMachine.Token

variable {text : String}

/-- No character is an ending token. -/
theorem Kind.ofChar_ne_ending (c : Char) : Kind.ofChar c ≠ .ending := by
  unfold Kind.ofChar
  repeat' split
  all_goals exact nofun

/-- The token of a character that is not the sentinel. -/
def located (l : Text.Located) : Token :=
  ⟨.ofChar l.char, ⟨l.offset, l.stop⟩⟩

/-- The tokens of the characters of a text. -/
def characters (text : String) : List Token :=
  (Text.located text).map located

/-- No token of a character ends the text. -/
theorem kind_ne_ending {t : Token} (h : t ∈ characters text) : t.kind ≠ .ending := by
  obtain ⟨l, -, rfl⟩ := List.mem_map.1 h
  exact Kind.ofChar_ne_ending l.char

/-- The tokens of the characters have their kinds. -/
theorem map_kind_characters :
    (characters text).map (·.kind) = text.toList.map Kind.ofChar := by
  rw [characters, List.map_map, ← Text.map_char_locatedFrom 0 text.toList, List.map_map]
  rfl

/-- Characters without sentinel are read one by one. -/
theorem mapM_ofLocated {ls : List Text.Located} (h : ∀ l ∈ ls, l.char ≠ Text.sentinel) :
    ls.mapM ofLocated = .ok (ls.map located) := by
  induction ls with
  | nil => rfl
  | cons l ls ih =>
    rw [List.mapM_cons, ih fun k hk => h k (List.mem_cons_of_mem _ hk), ofLocated,
      if_neg (h l List.mem_cons_self)]
    rfl

/-- A text without sentinel is read character by character. -/
theorem scan_eq_ok (h : Text.sentinel ∉ text.toList) :
    scan text = .ok (characters text ++ [ending (Text.byteLength text.toList)]) := by
  have hls : ∀ l ∈ Text.located text, l.char ≠ Text.sentinel := by
    intro l hl heq
    refine h ?_
    rw [← heq, ← Text.map_char_locatedFrom 0 text.toList]
    exact List.mem_map_of_mem hl
  rw [scan, mapM_ofLocated hls]
  rfl

/-- A text with a sentinel is refused where the first one stands. -/
theorem scan_eq_error {before after : List Char}
    (h : text.toList = before ++ Text.sentinel :: after) (hbefore : Text.sentinel ∉ before) :
    scan text =
      .error ⟨.reservedCharacter, ⟨Text.byteLength before, Text.byteLength before + 1⟩⟩ := by
  have hls : ∀ l ∈ Text.locatedFrom 0 before, l.char ≠ Text.sentinel := by
    intro l hl heq
    refine hbefore ?_
    rw [← heq, ← Text.map_char_locatedFrom 0 before]
    exact List.mem_map_of_mem hl
  rw [scan, Text.located, h, Text.locatedFrom_append, List.mapM_append, mapM_ofLocated hls,
    Nat.zero_add, Text.locatedFrom, List.mapM_cons, ofLocated, if_pos rfl]
  rfl

end PatternMachine.Token
