import PatternMachine.Proofs.Machine.Worklist
import PatternMachine.Proofs.Program.Layout
import PatternMachine.Proofs.Subject

/-!
# The moves of the machine over a text

What a thread does at each instruction, in terms of the characters of the text. A text has no
sentinel, so a thread reads a character exactly if the text has it at the thread's position.
-/

namespace PatternMachine.Machine

variable {m : Machine} {text : String} {pc pos : Nat}

/-- A literal reads its character. -/
theorem move_literal (hs : m.subject.Of text) (hpos : pos ≤ text.toList.length) {c : Char}
    (h : m.program.code[pc]? = some (.literal c)) : m.move ⟨pc, pos⟩ =
      if text.toList[pos]? = some c then .goto ⟨pc + 1, pos + 1⟩ else .die := by
  by_cases hc : c = Text.sentinel
  · have hne : text.toList[pos]? ≠ some c := fun heq =>
      hs.sentinel_notMem (hc ▸ List.mem_of_getElem? heq)
    rw [if_neg hne]
    simp [move, h, hc]
  · simp only [move, h, if_neg hc, hs.at?_eq hpos]
    cases text.toList[pos]? with
    | none => simp [Ne.symm hc]
    | some x => simp

/-- The wildcard reads every character. -/
theorem move_any (hs : m.subject.Of text) (hpos : pos ≤ text.toList.length)
    (h : m.program.code[pc]? = some .any) : m.move ⟨pc, pos⟩ =
      if pos < text.toList.length then .goto ⟨pc + 1, pos + 1⟩ else .die := by
  simp only [move, h, hs.at?_eq hpos]
  by_cases hlt : pos < text.toList.length
  · have hne : text.toList[pos] ≠ Text.sentinel := fun heq =>
      hs.sentinel_notMem (heq ▸ List.getElem_mem hlt)
    rw [List.getElem?_eq_getElem hlt, Option.getD_some, if_neg hne, if_pos hlt]
  · rw [List.getElem?_eq_none (Nat.not_lt.1 hlt), Option.getD_none, if_pos rfl, if_neg hlt]

/-- At an `accept` a thread accepts. -/
theorem move_accept (h : m.program.code[pc]? = some .accept) : m.move ⟨pc, pos⟩ = .accept := by
  simp [move, h]

/-- Only `accept` accepts. -/
theorem code_of_move_accept {t : Thread} (h : m.move t = .accept) :
    m.program.code[t.pc]? = some .accept := by
  unfold move at h
  repeat' split at h
  all_goals first | assumption | cases h

/-- At a `jump` a thread goes on at the target. -/
theorem move_jump {target : Nat} (h : m.program.code[pc]? = some (.jump target)) :
    m.move ⟨pc, pos⟩ = .goto ⟨target, pos⟩ := by
  simp [move, h]

/-- At a `split` a thread becomes two, the one at the first target before the other. -/
theorem move_split {first second : Nat}
    (h : m.program.code[pc]? = some (.split first second)) :
    m.move ⟨pc, pos⟩ = .fork ⟨first, pos⟩ ⟨second, pos⟩ := by
  simp [move, h]

/-- At a `nop` a thread goes on behind it. -/
theorem move_nop (h : m.program.code[pc]? = some .nop) :
    m.move ⟨pc, pos⟩ = .goto ⟨pc + 1, pos⟩ := by
  simp [move, h]

/-- A machine that never leaves its bounds has an instruction for every thread within them. -/
theorem StaysIn.pc_lt {b : Bounds} (hm : m.StaysIn b) {t : Thread} (hb : b.contains t = true) :
    t.pc < m.program.size := by
  refine Nat.lt_of_not_le fun hle => (hm t hb).1 ?_
  rw [move, Array.getElem?_eq_none hle]

/-- A thread turns into threads at the targets of its instruction, where it is, or at the next
instruction. -/
theorem exists_of_mem_threads {t u : Thread} (h : u ∈ (m.move t).threads) :
    ∃ i, m.program.code[t.pc]? = some i ∧
      ((u.pc ∈ i.targets ∧ u.pos = t.pos) ∨ (i.fallsThrough = true ∧ u.pc = t.pc + 1)) := by
  unfold move at h
  cases hi : m.program.code[t.pc]? with
  | none => simp [hi, Move.threads] at h
  | some i =>
    refine ⟨i, rfl, ?_⟩
    rw [hi] at h
    cases i with
    | accept => simp [Move.threads] at h
    | jump target =>
      obtain rfl := List.mem_singleton.1 h
      exact .inl ⟨List.mem_singleton_self _, rfl⟩
    | split first second =>
      rcases List.mem_cons.1 h with rfl | h
      · exact .inl ⟨List.mem_cons_self, rfl⟩
      · obtain rfl := List.mem_singleton.1 h
        exact .inl ⟨List.mem_cons_of_mem _ (List.mem_singleton_self _), rfl⟩
    | nop =>
      obtain rfl := List.mem_singleton.1 h
      exact .inr ⟨rfl, rfl⟩
    | literal c =>
      refine .inr ⟨rfl, ?_⟩
      dsimp only at h
      repeat' split at h
      all_goals simp_all [Move.threads]
    | any =>
      refine .inr ⟨rfl, ?_⟩
      dsimp only at h
      repeat' split at h
      all_goals simp_all [Move.threads]

/-- Behind the instructions of a pattern its program accepts. -/
theorem move_behind {p : Pattern} (h : m.program = p.program) (pos : Nat) :
    m.move ⟨Program.start + p.codeSize, pos⟩ = .accept :=
  move_accept (by rw [h, Program.start, Nat.zero_add, p.code_program_codeSize])

end PatternMachine.Machine
