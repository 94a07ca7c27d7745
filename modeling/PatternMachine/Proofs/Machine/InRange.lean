import PatternMachine.Proofs.Machine.Worklist

/-!
# The machine stays within its program and its text

The machine checks neither the place of an instruction nor that of a character before it looks
there. A closed program names only instructions of its own and does not run off its end
(`Program.Closed`); and a thread passes a character only by reading one that is not the sentinel,
so it cannot pass the sentinel at the end of the text. Hence a machine with a closed program never
leaves the bounds of its search (`Machine.staysIn_bounds`).
-/

namespace PatternMachine

/-- Every edge of the program leads to one of its instructions, and so does the step to the next
instruction wherever one is taken. -/
structure Program.Closed (p : Program) : Prop where
  size_pos : 0 < p.size
  targets_lt : ∀ {pc : Nat} {i : Instr Nat}, p.code[pc]? = some i → ∀ t ∈ i.targets, t < p.size
  next_lt : ∀ {pc : Nat} {i : Instr Nat}, p.code[pc]? = some i → i.fallsThrough = true →
    pc + 1 < p.size

/-- A thread is within the bounds if its instruction and its position are. -/
theorem Bounds.contains_iff {b : Bounds} {t : Thread} :
    b.contains t = true ↔ t.pc < b.width ∧ b.first ≤ t.pos ∧ t.pos ≤ b.last := by
  simp [Bounds.contains, and_assoc]

/-- A character that is not the sentinel is one of the text. -/
theorem Subject.lt_size_of_at? {s : Subject} {pos : Nat} {c : Char} (h : s.at? pos = some c)
    (hc : c ≠ Text.sentinel) : pos < s.size := by
  unfold at? at h
  split at h
  · assumption
  · split at h
    · exact absurd (Option.some.inj h).symm hc
    · cases h

/-- Every position up to the end of the text has a character, the sentinel included. -/
theorem Subject.exists_at? {s : Subject} {pos : Nat} (h : pos ≤ s.size) :
    ∃ c, s.at? pos = some c := by
  unfold at?
  split
  · exact ⟨_, rfl⟩
  · rename_i hlt
    have : pos = s.chars.size := Nat.le_antisymm h (Nat.not_lt.1 hlt)
    exact ⟨_, if_pos this⟩

namespace Machine

variable {m : Machine} {first : Nat}

/-- The bounds of a search hold the instructions of its program at the positions from its start to
the end of the text. -/
theorem contains_bounds {t : Thread} : (m.bounds first).contains t = true ↔
    t.pc < m.program.size ∧ first ≤ t.pos ∧ t.pos ≤ max first m.subject.size :=
  Bounds.contains_iff

/-- The thread with which an attempt starts is within the bounds of every search that makes it. -/
theorem contains_start (h : m.program.Closed) {start : Nat} (h₁ : first ≤ start)
    (h₂ : start ≤ max first m.subject.size) :
    (m.bounds first).contains ⟨Program.start, start⟩ = true :=
  contains_bounds.2 ⟨h.size_pos, h₁, h₂⟩

/-- A search that starts within the text never looks for an instruction or a character that does
not exist. -/
theorem staysIn_bounds (h : m.program.Closed) (hfirst : first ≤ m.subject.size) :
    m.StaysIn (m.bounds first) := by
  intro t ht
  obtain ⟨hpc, hge, hle⟩ := contains_bounds.1 ht
  have hle : t.pos ≤ m.subject.size := by rwa [Nat.max_eq_right hfirst] at hle
  have hcode : m.program.code[t.pc]? = some m.program.code[t.pc] := Array.getElem?_eq_getElem hpc
  obtain ⟨x, hx⟩ := Subject.exists_at? hle
  simp only [contains_bounds, Nat.max_eq_right hfirst]
  cases hi : m.program.code[t.pc] with
  | literal c =>
    rw [hi] at hcode
    have hnext := h.next_lt hcode rfl
    by_cases hc : c = Text.sentinel
    · simp [move, hcode, hc, Move.threads]
    · by_cases hxc : x = c
      · have := Subject.lt_size_of_at? hx (hxc ▸ hc)
        simp [move, hcode, hc, hx, hxc, Move.threads]
        omega
      · simp [move, hcode, hc, hx, hxc, Move.threads]
  | any =>
    rw [hi] at hcode
    have hnext := h.next_lt hcode rfl
    by_cases hxs : x = Text.sentinel
    · simp [move, hcode, hx, hxs, Move.threads]
    · have := Subject.lt_size_of_at? hx hxs
      simp [move, hcode, hx, hxs, Move.threads]
      omega
  | accept =>
    rw [hi] at hcode
    simp [move, hcode, Move.threads]
  | jump target =>
    rw [hi] at hcode
    have ht := h.targets_lt hcode target (by simp [Instr.targets])
    simp [move, hcode, Move.threads]
    omega
  | split l r =>
    rw [hi] at hcode
    have hl := h.targets_lt hcode l (by simp [Instr.targets])
    have hr := h.targets_lt hcode r (by simp [Instr.targets])
    simp [move, hcode, Move.threads]
    omega
  | nop =>
    rw [hi] at hcode
    have hnext := h.next_lt hcode rfl
    simp [move, hcode, Move.threads]
    omega

end Machine

end PatternMachine
