import Mathlib.Computability.Language
import PatternMachine.Pattern.Basic
import PatternMachine.Text.Located

/-!
# The language of a pattern

The texts that a pattern describes, as a formal language: the usual one, but for the sentinel, which
occurs in no text, so that no text is described by a sentinel literal or by a wildcard that would
have to stand for it.
-/

namespace PatternMachine

/-! ## Reading from a place -/

/-- A text read in two parts is read from one place after the other. -/
theorem append_prefix_drop_iff {cs u v : List Char} {i : Nat} :
    u ++ v <+: cs.drop i ↔ u <+: cs.drop i ∧ v <+: cs.drop (i + u.length) := by
  rw [← List.drop_drop]
  refine ⟨?_, ?_⟩
  · intro h
    have hu := (List.prefix_append u v).trans h
    obtain ⟨rest, hrest⟩ := h
    refine ⟨hu, rest, ?_⟩
    rw [← hrest, List.append_assoc, List.drop_left]
  · intro hyp
    obtain ⟨⟨rest, hrest⟩, hv⟩ := hyp
    rw [← hrest, List.drop_left] at hv
    rw [← hrest]
    exact (List.prefix_append_right_inj u).2 hv

/-- A text read from a place ends within the whole text. -/
theorem add_length_le_of_prefix_drop {cs w : List Char} {i : Nat} (h : w <+: cs.drop i)
    (hi : i ≤ cs.length) : i + w.length ≤ cs.length := by
  have := h.length_le
  rw [List.length_drop] at this
  omega

/-- A single character is read where it stands. -/
theorem singleton_prefix_drop_iff {cs : List Char} {c : Char} {i : Nat} :
    [c] <+: cs.drop i ↔ cs[i]? = some c := by
  rw [List.singleton_prefix_iff_head?_eq_some, List.head?_drop]

/-! ## The texts of a pattern -/

namespace Pattern

open scoped Computability

/-- The texts described by a pattern. -/
def language : Pattern → Language Char
  | literal c => if c = Text.sentinel then 0 else {[c]}
  | any => {w : List Char | ∃ c, c ≠ Text.sentinel ∧ w = [c]}
  | empty => 1
  | seq l r => l.language * r.language
  | alt l r => l.language + r.language
  | star p => p.language∗
  | plus p => p.language * p.language∗
  | opt p => p.language + 1

variable {p : Pattern} {w : List Char}

/-- A literal describes its character, and nothing if that is the sentinel. -/
theorem mem_language_literal {c : Char} :
    w ∈ (literal c).language ↔ c ≠ Text.sentinel ∧ w = [c] := by
  rw [language]
  split
  · rename_i hc
    simp [hc, Language.notMem_zero]
  · rename_i hc
    exact ⟨fun h => ⟨hc, h⟩, And.right⟩

/-- The wildcard describes every character but the sentinel. -/
theorem mem_language_any : w ∈ any.language ↔ ∃ c, c ≠ Text.sentinel ∧ w = [c] := Iff.rfl

/-- The empty pattern describes the empty text. -/
theorem mem_language_empty : w ∈ empty.language ↔ w = [] := Iff.rfl

/-- A sequence describes a text of the first pattern with one of the second behind it. -/
theorem mem_language_seq {l r : Pattern} :
    w ∈ (seq l r).language ↔ ∃ u ∈ l.language, ∃ v ∈ r.language, u ++ v = w := Iff.rfl

/-- An alternative describes the texts of both patterns. -/
theorem mem_language_alt {l r : Pattern} :
    w ∈ (alt l r).language ↔ w ∈ l.language ∨ w ∈ r.language := Iff.rfl

/-- An option describes the texts of the pattern and the empty text. -/
theorem mem_language_opt : w ∈ (opt p).language ↔ w ∈ p.language ∨ w = [] := Iff.rfl

/-- A repetition is empty, or a text of the pattern and a repetition. -/
theorem mem_language_star :
    w ∈ (star p).language ↔ w = [] ∨ w ∈ (plus p).language := by
  rw [language, language, ← Language.one_add_self_mul_kstar_eq_kstar, Language.mem_add,
    Language.mem_one, Language.one_add_self_mul_kstar_eq_kstar]

/-- A `plus` describes a text of the pattern with a repetition behind it. -/
theorem mem_language_plus : w ∈ (plus p).language ↔
    ∃ u ∈ p.language, ∃ v ∈ (star p).language, u ++ v = w := Iff.rfl

/-! ## Texts of a pattern within a text -/

/-- The characters of `cs` from position `i` up to position `j` are a text of `p`. -/
def Spans (p : Pattern) (cs : List Char) (i j : Nat) : Prop :=
  ∃ w ∈ p.language, w <+: cs.drop i ∧ j = i + w.length

/-- What is spanned are the characters in between. -/
theorem spans_iff_take {cs : List Char} {i j : Nat} (hi : i ≤ cs.length) : p.Spans cs i j ↔
    i ≤ j ∧ j ≤ cs.length ∧ (cs.drop i).take (j - i) ∈ p.language := by
  refine ⟨?_, ?_⟩
  · intro h
    obtain ⟨w, hw, hwp, rfl⟩ := h
    refine ⟨Nat.le_add_right _ _, add_length_le_of_prefix_drop hwp hi, ?_⟩
    rwa [Nat.add_sub_cancel_left, ← List.prefix_iff_eq_take.1 hwp]
  · intro h
    obtain ⟨hij, hj, hw⟩ := h
    refine ⟨_, hw, List.take_prefix _ _, ?_⟩
    rw [List.length_take, List.length_drop, Nat.min_eq_left (by omega)]
    omega

end Pattern

end PatternMachine
