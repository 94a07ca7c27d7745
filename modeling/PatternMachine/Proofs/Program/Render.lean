import PatternMachine.Program.Basic
import PatternMachine.Proofs.Text.Readable

/-!
# The listing of a program can be read back

A line tells the position and the instruction it was written for (`line_inj`): the position ends at
the colon, the operation is known by its first letter, a quoted character by its quotes, and of two
targets the first one ends at the comma. No line holds a line feed, so that the listing falls apart
into its lines. Hence programs with the same listing are the same (`render_loses_nothing`).
-/

namespace PatternMachine.Program

open Text

variable {k l : Nat} {i j : Instr Nat}

/-! ## Lines -/

/-- The letter with which the operation is written. -/
def initial : Instr Nat → Char
  | .literal _ => 'l'
  | .any => 'a'
  | .accept => 'm'
  | .jump _ => 'j'
  | .split _ _ => 's'
  | .nop => 'n'

/-- A line begins with the position, a colon, a blank and the letter of the operation. -/
theorem exists_line_eq (k : Nat) (i : Instr Nat) :
    ∃ rest, (line k i).toList = ((twoDigits k).toList ++ [':']) ++ ' ' :: initial i :: rest := by
  cases i <;> simp only [line, Instr.mnemonic, String.toList_append, List.append_assoc] <;>
    exact ⟨_, rfl⟩

/-- A line tells what it was written for. -/
theorem line_inj (h : (line k i).toList = (line l j).toList) : k = l ∧ i = j := by
  obtain ⟨rest, hi⟩ := exists_line_eq k i
  obtain ⟨rest', hj⟩ := exists_line_eq l j
  have hcolon : ∀ digit, Nat.digitChar digit ≠ ':' := fun _ => Nat.digitChar_ne _ (by decide)
  obtain ⟨rfl, hrest⟩ := selfDelimiting_twoDigits hcolon (hi.symm.trans (h.trans hj))
  have hinitial : initial i = initial j := (List.cons.inj (List.cons.inj hrest).2).1
  refine ⟨rfl, ?_⟩
  simp only [line, String.toList_append, List.append_assoc, List.append_cancel_left_eq] at h
  cases i with
  | literal c =>
    cases j with
    | literal d =>
      simp only [Instr.mnemonic, String.toList_append, List.append_assoc,
        List.append_cancel_left_eq] at h
      exact congrArg Instr.literal (selfDelimiting_quoteChar h).1
    | any | accept | jump | split | nop => cases hinitial
  | any =>
    cases j with
    | any => rfl
    | literal | accept | jump | split | nop => cases hinitial
  | accept =>
    cases j with
    | accept => rfl
    | literal | any | jump | split | nop => cases hinitial
  | jump t =>
    cases j with
    | jump u =>
      simp only [Instr.mnemonic, String.toList_append, List.append_cancel_left_eq] at h
      exact congrArg Instr.jump (twoDigits_inj h)
    | literal | any | accept | split | nop => cases hinitial
  | split t t' =>
    cases j with
    | split u u' =>
      simp only [Instr.mnemonic, String.toList_append, List.append_assoc,
        List.append_cancel_left_eq] at h
      have hcomma : ∀ digit, Nat.digitChar digit ≠ ',' := fun _ => Nat.digitChar_ne _ (by decide)
      obtain ⟨rfl, hsecond⟩ := selfDelimiting_twoDigits (s := ' ' :: (twoDigits t').toList)
        (t := ' ' :: (twoDigits u').toList) hcomma (by simpa using h)
      exact congrArg (Instr.split t) (twoDigits_inj (List.cons.inj hsecond).2)
    | literal | any | accept | jump | nop => cases hinitial
  | nop =>
    cases j with
    | nop => rfl
    | literal | any | accept | jump | split => cases hinitial

/-- No instruction takes more than its line. -/
theorem lineFeed_notMem_line (k : Nat) (i : Instr Nat) : '\n' ∉ (line k i).toList := by
  have hdigits : ∀ n, '\n' ∉ (twoDigits n).toList :=
    notMem_twoDigits fun _ => Nat.digitChar_ne _ (by decide)
  cases i with
  | literal c => simp [line, Instr.mnemonic, hdigits, lineFeed_notMem_quoteChar]
  | any | accept | jump | split | nop => simp [line, Instr.mnemonic, hdigits]

/-- Lines that end in a line feed can be told apart when others follow. -/
theorem selfDelimiting_line :
    SelfDelimiting fun p : Instr Nat × Nat => (line p.2 p.1).toList ++ ['\n'] :=
  .of_terminator (fun _ _ h => (line_inj h).elim fun hk hi => Prod.ext hi hk)
    fun p => lineFeed_notMem_line p.2 p.1

/-! ## Listings -/

/-- The listing has the lines of the instructions, each with its line feed. -/
theorem toList_render (p : Program) : p.render.toList =
    p.code.toList.zipIdx.flatMap fun q => (line q.2 q.1).toList ++ ['\n'] := by
  simp [render, lines, String.toList_join, List.flatMap_map]

/-- The listing loses nothing of a program, however long it is: every line tells the position and
the instruction it was written for, with its character and with its targets in their order, and
programs with the same listing are the same. -/
theorem render_loses_nothing (p q : Program) :
    (p.render = q.render ↔ p = q) ∧
    ∀ (k l : Nat) (i j : Instr Nat), line k i = line l j ↔ k = l ∧ i = j := by
  refine ⟨⟨fun h => ?_, congrArg render⟩, fun k l i j => ⟨fun h => ?_, ?_⟩⟩
  · have hlines := congrArg String.toList h
    rw [toList_render, toList_render] at hlines
    have hzip := selfDelimiting_line.flatMap_inj (fun _ => by simp) hlines
    have hcode := congrArg (List.map Prod.fst) hzip
    rw [List.zipIdx_map_fst, List.zipIdx_map_fst, Array.toList_inj] at hcode
    obtain ⟨code⟩ := p
    exact congrArg Program.mk hcode
  · exact line_inj (congrArg String.toList h)
  · rintro ⟨rfl, rfl⟩
    rfl

end PatternMachine.Program
