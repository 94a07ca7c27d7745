import PatternMachine.Pattern.Basic
import PatternMachine.Program.Basic

/-!
# The instructions of a pattern

`Pattern.code p b` are the instructions of `p` for a program in which the first of them has position
`b`. They run off their end when `p` has matched. `Program.Holds` says that a program has them
there, and is given by one equivalence for each kind of pattern; all that is proved about the run of
a pattern's program starts from these.
-/

namespace PatternMachine

/-! ## Consecutive places -/

/-- `at?` has the elements of the list one after the other, the first of them at `b`. -/
def StandsAt {α : Type} (at? : Nat → Option α) (b : Nat) : List α → Prop
  | [] => True
  | x :: xs => at? b = some x ∧ StandsAt at? (b + 1) xs

namespace StandsAt

variable {α : Type} {at? : Nat → Option α} {b : Nat} {x : α} {xs ys : List α}

@[simp]
theorem nil_iff : StandsAt at? b [] ↔ True := Iff.rfl

@[simp]
theorem cons_iff : StandsAt at? b (x :: xs) ↔ at? b = some x ∧ StandsAt at? (b + 1) xs := Iff.rfl

/-- Two lists stand one behind the other. -/
@[simp]
theorem append_iff : StandsAt at? b (xs ++ ys) ↔
    StandsAt at? b xs ∧ StandsAt at? (b + xs.length) ys := by
  induction xs generalizing b with
  | nil => simp
  | cons x xs ih =>
    rw [List.cons_append, cons_iff, cons_iff, ih, List.length_cons, and_assoc,
      Nat.add_right_comm, Nat.add_assoc]

/-- A part of a list stands in the list at its place. -/
theorem of_append (before xs after : List α) :
    StandsAt (fun k => (before ++ xs ++ after)[k]?) before.length xs := by
  induction xs generalizing before with
  | nil => trivial
  | cons x xs ih =>
    refine ⟨by simp, ?_⟩
    have := ih (before ++ [x])
    simpa using this

end StandsAt

/-! ## The code of a pattern -/

namespace Pattern

/-- The number of instructions of a pattern. -/
def codeSize : Pattern → Nat
  | literal _ | any | empty => 1
  | seq l r => l.codeSize + r.codeSize
  | alt l r => l.codeSize + r.codeSize + 3
  | star p => p.codeSize + 3
  | plus p | opt p => p.codeSize + 2

/-- The instructions of a pattern, the first of them at position `b`. -/
def code : Pattern → (b : Nat) → List (Instr Nat)
  | literal c, _ => [.literal c]
  | any, _ => [.any]
  | empty, _ => [.nop]
  | seq l r, b => l.code b ++ r.code (b + l.codeSize)
  | alt l r, b =>
    .split (b + 1) (b + l.codeSize + 2) :: (l.code (b + 1) ++
      .jump (b + l.codeSize + r.codeSize + 2) :: (r.code (b + l.codeSize + 2) ++ [.nop]))
  | star p, b => .split (b + 1) (b + p.codeSize + 2) :: (p.code (b + 1) ++ [.jump b, .nop])
  | plus p, b => p.code b ++ [.split b (b + p.codeSize + 1), .nop]
  | opt p, b => .split (b + 1) (b + p.codeSize + 1) :: (p.code (b + 1) ++ [.nop])

/-- Every pattern has an instruction. -/
theorem codeSize_pos (p : Pattern) : 0 < p.codeSize := by
  induction p with
  | literal | any | empty => exact Nat.one_pos
  | seq l r ihl _ => exact Nat.add_pos_left ihl _
  | alt | star | plus | opt => exact Nat.succ_pos _

/-- The code has as many instructions as the pattern. -/
@[simp]
theorem length_code (p : Pattern) (b : Nat) : (p.code b).length = p.codeSize := by
  induction p generalizing b with
  | literal | any | empty => rfl
  | seq l r ihl ihr => simp [code, codeSize, ihl, ihr]
  | alt l r ihl ihr =>
    simp [code, codeSize, ihl, ihr]
    omega
  | star p ih | plus p ih | opt p ih => simp [code, codeSize, ih]

/-- The code of a pattern does not accept; it runs off its end. -/
theorem accept_notMem_code (p : Pattern) (b : Nat) : Instr.accept ∉ p.code b := by
  induction p generalizing b with
  | literal | any | empty => simp [code]
  | seq l r ihl ihr | alt l r ihl ihr => simp [code, ihl, ihr]
  | star p ih | plus p ih | opt p ih => simp [code, ih]

/-- The program of a pattern: its instructions, and `accept` behind them. -/
def program (p : Pattern) : Program :=
  ⟨(p.code Program.start ++ [Instr.accept]).toArray⟩

end Pattern

/-! ## Programs that hold a pattern -/

/-- The program has the instructions of `p`, the first of them at position `b`. -/
def Program.Holds (prog : Program) (b : Nat) (p : Pattern) : Prop :=
  StandsAt (fun k => prog.code[k]?) b (p.code b)

namespace Program

variable {prog : Program} {b : Nat} {l r p : Pattern}

/-- The code of a literal is the instruction that reads it. -/
theorem holds_literal {c : Char} : prog.Holds b (.literal c) ↔
    prog.code[b]? = some (.literal c) := by
  show StandsAt _ b [Instr.literal c] ↔ _
  simp

/-- The code of the wildcard is the instruction that reads any character. -/
theorem holds_any : prog.Holds b .any ↔ prog.code[b]? = some .any := by
  show StandsAt _ b [Instr.any] ↔ _
  simp

/-- The code of the empty pattern is a `nop`. -/
theorem holds_empty : prog.Holds b .empty ↔ prog.code[b]? = some .nop := by
  show StandsAt _ b [Instr.nop] ↔ _
  simp

/-- The code of a sequence is that of its parts, one behind the other. -/
theorem holds_seq : prog.Holds b (.seq l r) ↔
    prog.Holds b l ∧ prog.Holds (b + l.codeSize) r := by
  show StandsAt _ b (l.code b ++ r.code (b + l.codeSize)) ↔ _
  simp [Holds]

/-- The code of an alternative is a `split` to its two branches, the first of which jumps over the
second, and a `nop` where they meet. -/
theorem holds_alt : prog.Holds b (.alt l r) ↔
    prog.code[b]? = some (.split (b + 1) (b + l.codeSize + 2)) ∧ prog.Holds (b + 1) l ∧
      prog.code[b + l.codeSize + 1]? = some (.jump (b + l.codeSize + r.codeSize + 2)) ∧
      prog.Holds (b + l.codeSize + 2) r ∧
      prog.code[b + l.codeSize + r.codeSize + 2]? = some .nop := by
  show StandsAt _ b (.split _ _ :: (l.code _ ++ .jump _ :: (r.code _ ++ [.nop]))) ↔ _
  have h₁ : b + 1 + l.codeSize = b + l.codeSize + 1 := by omega
  have h₂ : b + l.codeSize + 1 + 1 + r.codeSize = b + l.codeSize + r.codeSize + 2 := by omega
  simp only [Holds, StandsAt.cons_iff, StandsAt.append_iff, StandsAt.nil_iff,
    Pattern.length_code, and_true, h₁, h₂]

/-- The code of a `star` is a `split` into its body or behind it; the body jumps back to the
`split`. -/
theorem holds_star : prog.Holds b (.star p) ↔
    prog.code[b]? = some (.split (b + 1) (b + p.codeSize + 2)) ∧ prog.Holds (b + 1) p ∧
      prog.code[b + p.codeSize + 1]? = some (.jump b) ∧
      prog.code[b + p.codeSize + 2]? = some .nop := by
  show StandsAt _ b (.split _ _ :: (p.code _ ++ [.jump b, .nop])) ↔ _
  have h₁ : b + 1 + p.codeSize = b + p.codeSize + 1 := by omega
  simp only [Holds, StandsAt.cons_iff, StandsAt.append_iff, StandsAt.nil_iff,
    Pattern.length_code, and_true, h₁]

/-- The code of a `plus` is its body, and behind it a `split` that leads back or on. -/
theorem holds_plus : prog.Holds b (.plus p) ↔
    prog.Holds b p ∧ prog.code[b + p.codeSize]? = some (.split b (b + p.codeSize + 1)) ∧
      prog.code[b + p.codeSize + 1]? = some .nop := by
  show StandsAt _ b (p.code b ++ [.split b _, .nop]) ↔ _
  simp only [Holds, StandsAt.cons_iff, StandsAt.append_iff, StandsAt.nil_iff,
    Pattern.length_code, and_true]

/-- The code of an `opt` is a `split` into its body or behind it. -/
theorem holds_opt : prog.Holds b (.opt p) ↔
    prog.code[b]? = some (.split (b + 1) (b + p.codeSize + 1)) ∧ prog.Holds (b + 1) p ∧
      prog.code[b + p.codeSize + 1]? = some .nop := by
  show StandsAt _ b (.split _ _ :: (p.code _ ++ [.nop])) ↔ _
  have h₁ : b + 1 + p.codeSize = b + p.codeSize + 1 := by omega
  simp only [Holds, StandsAt.cons_iff, StandsAt.append_iff, StandsAt.nil_iff,
    Pattern.length_code, and_true, h₁]

end Program

namespace Pattern

variable {p : Pattern}

/-- The program of a pattern holds the pattern at its start. -/
theorem holds_program (p : Pattern) : p.program.Holds Program.start p := by
  have := StandsAt.of_append [] (p.code Program.start) [Instr.accept]
  simpa [Program.Holds, program, Program.start] using this

/-- Behind the instructions of the pattern its program accepts. -/
theorem code_program_codeSize (p : Pattern) : p.program.code[p.codeSize]? = some .accept := by
  simp [program]

end Pattern

end PatternMachine
