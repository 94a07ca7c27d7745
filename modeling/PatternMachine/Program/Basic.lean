import PatternMachine.Instr
import PatternMachine.Text.Decimal
import PatternMachine.Text.Quoted

/-!
# Programs

A finished program is a list of instructions that name one another by position. Execution starts
at the first one.
-/

namespace PatternMachine

/-- A finished program. -/
structure Program where
  code : Array (Instr Nat)
deriving DecidableEq

namespace Program

/-- The position at which execution starts. -/
def start : Nat := 0

/-- The number of instructions. -/
def size (p : Program) : Nat :=
  p.code.size

/-- The instruction `i` at position `pc`, as `position: operation operand -> targets`. -/
def line (pc : Nat) (i : Instr Nat) : String :=
  Text.twoDigits pc ++ ": " ++ i.mnemonic ++
    match i with
    | .literal c => " " ++ Text.quoteChar c ++ " -> " ++ Text.twoDigits (pc + 1)
    | .any | .nop => " -> " ++ Text.twoDigits (pc + 1)
    | .jump t => " -> " ++ Text.twoDigits t
    | .split t u => " -> " ++ Text.twoDigits t ++ ", " ++ Text.twoDigits u
    | .accept => ""

/-- The listing of the program, one line for each instruction. -/
def lines (p : Program) : List String :=
  p.code.toList.zipIdx.map fun (i, pc) => line pc i

/-- The listing as one text, every line ended by a line feed. -/
def render (p : Program) : String :=
  String.join (p.lines.map (· ++ "\n"))

end Program

end PatternMachine
