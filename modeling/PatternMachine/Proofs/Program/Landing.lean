import PatternMachine.Proofs.Machine.Landing
import PatternMachine.Proofs.Program.Layout

/-!
# Silent steps in the program of a pattern end

From every instruction of a pattern one comes to rest, provided that one does so behind the pattern
(`Program.Holds.lands`): the `nop`s and jumps lead forward, but for the jump at the end of a
repetition, and that one leads to a `split`.
-/

namespace PatternMachine

namespace Machine

variable {m : Machine} {t u : Thread}

/-- A silent step leads to where the next thread comes to rest. -/
theorem exists_lands_of_silent (hs : m.silent? t = some u) (h : ∃ n x, m.Lands n u x) :
    ∃ n x, m.Lands n t x := by
  obtain ⟨n, x, hl⟩ := h
  exact ⟨n + 1, x, .pass hs hl⟩

/-- A thread at an instruction that is not silent has landed. -/
theorem exists_lands_of_silent_eq_none (hs : m.silent? t = none) : ∃ n x, m.Lands n t x :=
  ⟨0, t, .here hs⟩

end Machine

/-- One comes to rest from everywhere in a pattern if one does so from behind it. -/
theorem Program.Holds.lands {m : Machine} {p : Pattern} {b pos : Nat} (h : m.program.Holds b p)
    (hexit : ∃ n x, m.Lands n ⟨b + p.codeSize, pos⟩ x) {k : Nat} (hk : b ≤ k)
    (hk' : k < b + p.codeSize) : ∃ n x, m.Lands n ⟨k, pos⟩ x := by
  induction p generalizing b k with
  | literal c =>
    obtain rfl : k = b := by simp only [Pattern.codeSize] at hk'; omega
    exact Machine.exists_lands_of_silent_eq_none (by simp [Machine.silent?, holds_literal.1 h])
  | any =>
    obtain rfl : k = b := by simp only [Pattern.codeSize] at hk'; omega
    exact Machine.exists_lands_of_silent_eq_none (by simp [Machine.silent?, holds_any.1 h])
  | empty =>
    obtain rfl : k = b := by simp only [Pattern.codeSize] at hk'; omega
    exact Machine.exists_lands_of_silent
      (by simp [Machine.silent?, holds_empty.1 h, Pattern.codeSize]) hexit
  | seq l r ihl ihr =>
    obtain ⟨hl, hr⟩ := holds_seq.1 h
    simp only [Pattern.codeSize, ← Nat.add_assoc] at hexit hk'
    have hright : ∀ {k}, b + l.codeSize ≤ k → k < b + l.codeSize + r.codeSize →
        ∃ n x, m.Lands n ⟨k, pos⟩ x := ihr hr hexit
    rcases Nat.lt_or_ge k (b + l.codeSize) with hlt | hge
    · exact ihl hl (hright (Nat.le_refl _) (Nat.lt_add_of_pos_right r.codeSize_pos)) hk hlt
    · exact hright hge hk'
  | alt l r ihl ihr =>
    obtain ⟨hbranch, hl, hjump, hr, hmeet⟩ := holds_alt.1 h
    simp only [Pattern.codeSize, ← Nat.add_assoc] at hexit hk'
    have hend : ∃ n x, m.Lands n ⟨b + l.codeSize + r.codeSize + 2, pos⟩ x :=
      Machine.exists_lands_of_silent (by simp [Machine.silent?, hmeet]) hexit
    rcases (by omega : k = b ∨ b + 1 ≤ k ∧ k < b + 1 + l.codeSize ∨ k = b + l.codeSize + 1 ∨
        b + l.codeSize + 2 ≤ k ∧ k < b + l.codeSize + 2 + r.codeSize ∨
        k = b + l.codeSize + r.codeSize + 2) with rfl | ⟨hge, hlt⟩ | rfl | ⟨hge, hlt⟩ | rfl
    · exact Machine.exists_lands_of_silent_eq_none (by simp [Machine.silent?, hbranch])
    · refine ihl hl ?_ hge hlt
      rw [Nat.add_right_comm]
      exact Machine.exists_lands_of_silent (by simp [Machine.silent?, hjump]) hend
    · exact Machine.exists_lands_of_silent (by simp [Machine.silent?, hjump]) hend
    · refine ihr hr ?_ hge hlt
      rwa [Nat.add_right_comm]
    · exact hend
  | star p ih =>
    obtain ⟨hbranch, hp, hjump, hmeet⟩ := holds_star.1 h
    simp only [Pattern.codeSize, ← Nat.add_assoc] at hexit hk'
    have hstart : ∃ n x, m.Lands n ⟨b, pos⟩ x :=
      Machine.exists_lands_of_silent_eq_none (by simp [Machine.silent?, hbranch])
    have hback : ∃ n x, m.Lands n ⟨b + p.codeSize + 1, pos⟩ x :=
      Machine.exists_lands_of_silent (by simp [Machine.silent?, hjump]) hstart
    rcases (by omega : k = b ∨ b + 1 ≤ k ∧ k < b + 1 + p.codeSize ∨ k = b + p.codeSize + 1 ∨
        k = b + p.codeSize + 2) with rfl | ⟨hge, hlt⟩ | rfl | rfl
    · exact hstart
    · refine ih hp ?_ hge hlt
      rwa [Nat.add_right_comm]
    · exact hback
    · exact Machine.exists_lands_of_silent (by simp [Machine.silent?, hmeet]) hexit
  | plus p ih =>
    obtain ⟨hp, hbranch, hmeet⟩ := holds_plus.1 h
    simp only [Pattern.codeSize, ← Nat.add_assoc] at hexit hk'
    have hend : ∃ n x, m.Lands n ⟨b + p.codeSize, pos⟩ x :=
      Machine.exists_lands_of_silent_eq_none (by simp [Machine.silent?, hbranch])
    rcases (by omega : k < b + p.codeSize ∨ k = b + p.codeSize ∨ k = b + p.codeSize + 1) with
      hlt | rfl | rfl
    · exact ih hp hend hk hlt
    · exact hend
    · exact Machine.exists_lands_of_silent (by simp [Machine.silent?, hmeet]) hexit
  | opt p ih =>
    obtain ⟨hbranch, hp, hmeet⟩ := holds_opt.1 h
    simp only [Pattern.codeSize, ← Nat.add_assoc] at hexit hk'
    have hend : ∃ n x, m.Lands n ⟨b + p.codeSize + 1, pos⟩ x :=
      Machine.exists_lands_of_silent (by simp [Machine.silent?, hmeet]) hexit
    rcases (by omega : k = b ∨ b + 1 ≤ k ∧ k < b + 1 + p.codeSize ∨ k = b + p.codeSize + 1) with
      rfl | ⟨hge, hlt⟩ | rfl
    · exact Machine.exists_lands_of_silent_eq_none (by simp [Machine.silent?, hbranch])
    · refine ih hp ?_ hge hlt
      rwa [Nat.add_right_comm]
    · exact hend

end PatternMachine
