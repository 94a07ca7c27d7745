import PatternMachine.Proofs.Pattern.Language

/-!
# The ends of a pattern in order of preference

`Pattern.ends` lists where the texts of a pattern that start at a position may end: what earlier
alternatives read comes before what later ones read, and one more round of a repetition before its
end. Every end in the list is the end of a text of the pattern (`spans_of_mem_ends`). A repetition
of a pattern that does not describe the empty text makes progress in every round, so that its list
is put together from the lists of its rounds (`ends_star`).
-/

namespace PatternMachine.Pattern

/-- The ends of a repetition that has come to `i`, where `round k` are the ends of one round from
`k`. A round that makes no progress is not followed by another one, and no position is behind
`last`. -/
def repeatEnds (round : Nat → List Nat) (last i : Nat) : List Nat :=
  ((round i).flatMap fun k => if i < k ∧ k ≤ last then repeatEnds round last k else []) ++ [i]
termination_by last - i

/-- The positions at which a text of the pattern that starts at position `i` of `cs` may end, the
preferred ones first. -/
def ends (cs : List Char) : Pattern → (i : Nat) → List Nat
  | literal c, i => if cs[i]? = some c then [i + 1] else []
  | any, i => if i < cs.length then [i + 1] else []
  | empty, i => [i]
  | seq l r, i => (l.ends cs i).flatMap (r.ends cs)
  | alt l r, i => l.ends cs i ++ r.ends cs i
  | star p, i => repeatEnds (p.ends cs) cs.length i
  | plus p, i => (p.ends cs i).flatMap (repeatEnds (p.ends cs) cs.length)
  | opt p, i => p.ends cs i ++ [i]

/-- No repetition within the pattern repeats a pattern that describes the empty text. -/
def Productive : Pattern → Prop
  | literal _ | any | empty => True
  | seq l r | alt l r => l.Productive ∧ r.Productive
  | star p | plus p => [] ∉ p.language ∧ p.Productive
  | opt p => p.Productive

variable {cs : List Char} {l r p : Pattern} {i j k : Nat}

/-! ## Spans of repetitions -/

/-- A text of a pattern that does not describe the empty text has characters. -/
theorem Spans.lt (h : p.Spans cs i j) (hp : [] ∉ p.language) : i < j := by
  obtain ⟨w, hw, -, rfl⟩ := h
  refine Nat.lt_add_of_pos_right (List.length_pos_iff.2 ?_)
  rintro rfl
  exact hp hw

/-- A text of a pattern within a text ends within it. -/
theorem Spans.le (h : p.Spans cs i j) (hi : i ≤ cs.length) : j ≤ cs.length := by
  obtain ⟨w, -, hw, rfl⟩ := h
  exact add_length_le_of_prefix_drop hw hi

/-- A text of one pattern and one of another behind it are a text of the sequence. -/
theorem Spans.seq (hl : l.Spans cs i k) (hr : r.Spans cs k j) : (seq l r).Spans cs i j := by
  obtain ⟨u, hu, hup, rfl⟩ := hl
  obtain ⟨v, hv, hvp, rfl⟩ := hr
  refine ⟨u ++ v, ⟨u, hu, v, hv, rfl⟩, append_prefix_drop_iff.2 ⟨hup, hvp⟩, ?_⟩
  rw [List.length_append, Nat.add_assoc]

/-- A round and a repetition behind it make a repetition. -/
theorem Spans.round (hp : p.Spans cs i k) (hs : (star p).Spans cs k j) :
    (star p).Spans cs i j := by
  obtain ⟨w, hw, hread⟩ := hp.seq hs
  exact ⟨w, mem_language_star.2 (.inr hw), hread⟩

/-- A repetition may have no rounds. -/
theorem spans_star_self : (star p).Spans cs i i :=
  ⟨[], mem_language_star.2 (.inl rfl), List.nil_prefix, rfl⟩

/-! ## The list of ends -/

/-- An end of a repetition is where it starts, or an end of one from behind a round that has made
progress. -/
theorem mem_repeatEnds_iff {round : Nat → List Nat} {last : Nat} :
    j ∈ repeatEnds round last i ↔
      (∃ k ∈ round i, (i < k ∧ k ≤ last) ∧ j ∈ repeatEnds round last k) ∨ j = i := by
  rw [repeatEnds, List.mem_append, List.mem_flatMap, List.mem_singleton]
  simp only [List.mem_ite_nil_right]

/-- Where every round makes progress, a repetition goes on from every end of a round. -/
theorem repeatEnds_eq {round : Nat → List Nat} {last : Nat}
    (h : ∀ k ∈ round i, i < k ∧ k ≤ last) : repeatEnds round last i =
      (round i).flatMap (repeatEnds round last) ++ [i] := by
  rw [repeatEnds]
  congr 1
  exact List.flatMap_congr fun k hk => if_pos (h k hk)

/-- Each end of the rounds is one of a text of the repetition. -/
theorem spans_of_mem_repeatEnds (hround : ∀ {i j : Nat}, j ∈ p.ends cs i → p.Spans cs i j)
    (h : j ∈ repeatEnds (p.ends cs) cs.length i) : (star p).Spans cs i j := by
  induction hn : cs.length - i using Nat.strongRecOn generalizing i with
  | _ n ih =>
    rcases mem_repeatEnds_iff.1 h with ⟨k, hk, hprogress, hj⟩ | rfl
    · exact (hround hk).round (ih _ (by omega) hj rfl)
    · exact spans_star_self

/-- Each end in the list is the end of a text of the pattern. -/
theorem spans_of_mem_ends (hcs : Text.sentinel ∉ cs) (h : j ∈ p.ends cs i) : p.Spans cs i j := by
  induction p generalizing i j with
  | literal c =>
    rw [ends, List.mem_ite_nil_right, List.mem_singleton] at h
    obtain ⟨hc, rfl⟩ := h
    have hne : c ≠ Text.sentinel := fun heq => hcs (heq ▸ List.mem_of_getElem? hc)
    exact ⟨[c], mem_language_literal.2 ⟨hne, rfl⟩, singleton_prefix_drop_iff.2 hc, rfl⟩
  | any =>
    rw [ends, List.mem_ite_nil_right, List.mem_singleton] at h
    obtain ⟨hlt, rfl⟩ := h
    have hne : cs[i] ≠ Text.sentinel := fun heq => hcs (heq ▸ List.getElem_mem hlt)
    exact ⟨[cs[i]], mem_language_any.2 ⟨_, hne, rfl⟩,
      singleton_prefix_drop_iff.2 (List.getElem?_eq_getElem hlt), rfl⟩
  | empty =>
    obtain rfl := List.mem_singleton.1 h
    exact ⟨[], mem_language_empty.2 rfl, List.nil_prefix, rfl⟩
  | seq l r ihl ihr =>
    obtain ⟨k, hk, hj⟩ := List.mem_flatMap.1 h
    exact (ihl hk).seq (ihr hj)
  | alt l r ihl ihr =>
    rcases List.mem_append.1 h with h | h
    · obtain ⟨w, hw, hread⟩ := ihl h
      exact ⟨w, .inl hw, hread⟩
    · obtain ⟨w, hw, hread⟩ := ihr h
      exact ⟨w, .inr hw, hread⟩
  | star p ih => exact spans_of_mem_repeatEnds ih h
  | plus p ih =>
    obtain ⟨k, hk, hj⟩ := List.mem_flatMap.1 h
    exact (ih hk).seq (spans_of_mem_repeatEnds ih hj)
  | opt p ih =>
    rcases List.mem_append.1 h with h | h
    · obtain ⟨w, hw, hread⟩ := ih h
      exact ⟨w, .inl hw, hread⟩
    · obtain rfl := List.mem_singleton.1 h
      exact ⟨[], .inr rfl, List.nil_prefix, rfl⟩

/-- If the repeated pattern does not describe the empty text, every round makes progress. -/
theorem lt_of_mem_ends (hcs : Text.sentinel ∉ cs) (hp : [] ∉ p.language) (hi : i ≤ cs.length)
    (h : k ∈ p.ends cs i) : i < k ∧ k ≤ cs.length :=
  ⟨(spans_of_mem_ends hcs h).lt hp, (spans_of_mem_ends hcs h).le hi⟩

/-- A repetition prefers one more round to its end. -/
theorem ends_star (hcs : Text.sentinel ∉ cs) (hp : [] ∉ p.language) (hi : i ≤ cs.length) :
    (star p).ends cs i = (p.ends cs i).flatMap ((star p).ends cs) ++ [i] :=
  repeatEnds_eq fun _ hk => lt_of_mem_ends hcs hp hi hk

/-- A `plus` is a round and the repetition behind it. -/
theorem ends_plus : (plus p).ends cs i = (p.ends cs i).flatMap ((star p).ends cs) := rfl

end PatternMachine.Pattern
