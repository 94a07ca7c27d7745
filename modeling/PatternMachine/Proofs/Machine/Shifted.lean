import PatternMachine.Proofs.Machine.Linked

/-!
# Searching a text behind its beginning

A machine knows positions only by the characters at them. If the characters of one subject are those
of another one from some position on, then a program does the same in both, all positions shifted
(`Machine.Shifted`). Threads that do not pass silently are linked with the threads at the same
instruction, so that every search has the same result, but for the shift (`Shifted.matchEnd_eq`,
`Shifted.find_eq`).
-/

namespace PatternMachine

/-- The thread at the same instruction, `n` characters later. -/
def Thread.shift (n : Nat) (t : Thread) : Thread :=
  ⟨t.pc, t.pos + n⟩

/-- Two threads that are shifted alike are the same exactly if they were the same. -/
theorem Thread.shift_inj {n : Nat} {t u : Thread} : t.shift n = u.shift n ↔ t = u := by
  cases t
  cases u
  simp [shift]

namespace Machine

variable {m n : Machine} {shift : Nat}

/-- `m` runs the program of `n` over a text that has the characters of that of `n` behind its first
`shift` characters. -/
structure Shifted (m n : Machine) (shift : Nat) : Prop where
  program : m.program = n.program
  threadLimit : m.threadLimit = n.threadLimit
  at? : ∀ pos, m.subject.at? (pos + shift) = n.subject.at? pos
  size : m.subject.size = n.subject.size + shift

namespace Shifted

/-- A silent step leaves the position alone. -/
theorem silent?_eq (h : Shifted m n shift) (t : Thread) :
    m.silent? (t.shift shift) = (n.silent? t).map (Thread.shift shift) := by
  unfold silent?
  rw [h.program]
  dsimp only [Thread.shift]
  split <;> rfl

/-- A shifted thread lands where the thread does, shifted. -/
theorem lands (h : Shifted m n shift) {k : Nat} {t x : Thread} (hl : n.Lands k t x) :
    m.Lands k (t.shift shift) (x.shift shift) := by
  induction hl with
  | here hs => exact .here (by rw [h.silent?_eq, hs, Option.map_none])
  | pass hs _ ih => exact .pass (by rw [h.silent?_eq, hs, Option.map_some]) ih

/-- It lands nowhere else. -/
theorem exists_lands (h : Shifted m n shift) {k : Nat} {t y : Thread}
    (hl : m.Lands k (t.shift shift) y) : ∃ x, n.Lands k t x ∧ y = x.shift shift := by
  generalize ht : t.shift shift = t' at hl
  induction hl generalizing t with
  | here hs =>
    subst ht
    rw [h.silent?_eq, Option.map_eq_none_iff] at hs
    exact ⟨t, .here hs, rfl⟩
  | pass hs _ ih =>
    subst ht
    rw [h.silent?_eq, Option.map_eq_some_iff] at hs
    obtain ⟨u, hu, rfl⟩ := hs
    obtain ⟨x, hx, rfl⟩ := ih rfl
    exact ⟨x, .pass hu hx, rfl⟩

/-- A thread is linked with the one at the same instruction that is shifted. -/
def link (n : Machine) (shift : Nat) (t u : Thread) : Prop :=
  t = u.shift shift ∧ n.silent? u = none

/-- A thread and its shifted copy meet. -/
theorem meets (h : Shifted m n shift) (t : Thread) :
    Meets m n (link n shift) (t.shift shift) t where
  left hy := by
    obtain ⟨x, hx, rfl⟩ := h.exists_lands hy
    exact ⟨_, x, hx, rfl, hx.rests⟩
  right hx := ⟨_, _, h.lands hx, rfl, hx.rests⟩

/-- Linked threads do the same. -/
theorem moves (h : Shifted m n shift) (t : Thread) :
    (m.move (t.shift shift) = .accept ↔ n.move t = .accept) ∧
      (m.move (t.shift shift)).forks = (n.move t).forks ∧
      List.Forall₂ (Meets m n (link n shift)) (m.move (t.shift shift)).threads
        (n.move t).threads := by
  have hcode : m.program.code[(t.shift shift).pc]? = n.program.code[t.pc]? := by rw [h.program]; rfl
  cases hi : n.program.code[t.pc]? with
  | none =>
    rw [hi] at hcode
    simp [move, hi, hcode, Move.threads, Move.forks]
  | some i =>
    refine moves_rel h.at? rfl (hcode.trans hi) hi (.refl (fun _ => rfl) i) ?_ fun _ pos => ?_
    · rintro pc _ rfl
      exact h.meets ⟨pc, t.pos⟩
    · exact h.meets ⟨t.pc + 1, pos⟩

/-- Hence the machine over the longer text is linked with the one over the shorter text. -/
theorem linked (h : Shifted m n shift) : Linked m n shift (link n shift) where
  threadLimit := h.threadLimit
  pos hl := by rw [hl.1, Thread.shift]
  unique hl hl' := by rw [hl.1, hl'.1, Thread.shift_inj]
  rests_left hl := by rw [hl.1, h.silent?_eq, hl.2, Option.map_none]
  rests_right hl := hl.2
  accept hl := by rw [hl.1]; exact (h.moves _).1
  forks hl := by rw [hl.1]; exact (h.moves _).2.1
  threads hl := by rw [hl.1]; exact (h.moves _).2.2

/-- An attempt in the longer text finds the end of the one in the shorter text, shifted. -/
theorem matchEnd_eq (h : Shifted m n shift) (hp : n.program.Closed) {start : Nat}
    (hstart : start ≤ n.subject.size) :
    m.matchEnd (start + shift) = (n.matchEnd start).map (Option.map (· + shift)) :=
  matchEnd_linked h.linked (h.program ▸ hp) hp h.size (fun k => h.meets ⟨Program.start, k⟩) hstart

/-- So does a search. -/
theorem find_eq (h : Shifted m n shift) (hp : n.program.Closed) (first : Nat) :
    m.find (first + shift) =
      (n.find first).map (Option.map fun p => (p.1 + shift, p.2 + shift)) :=
  find_linked h.linked (h.program ▸ hp) hp h.size (fun k => h.meets ⟨Program.start, k⟩) first

end Shifted

end Machine

end PatternMachine
