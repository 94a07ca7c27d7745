/-!
# Instructions

The instructions of the matching machine. `α` is what names another instruction: a handle while a
program is being drafted, a position once it is finished.
-/

namespace PatternMachine

/-- An instruction. All but `accept`, `jump` and `split` continue with the next one in order. -/
inductive Instr (α : Type) where
  /-- Reads the character `c`. -/
  | literal (c : Char)
  /-- Reads any character. -/
  | any
  /-- Ends the run with success. -/
  | accept
  /-- Continues at `target`. -/
  | jump (target : α)
  /-- Continues at `first`, and at `second` if that fails. -/
  | split (first second : α)
  /-- Does nothing. -/
  | nop
deriving DecidableEq

namespace Instr

variable {α β : Type}

/-- Whether the instruction continues with the next one in order. -/
def fallsThrough : Instr α → Bool
  | literal _ | any | nop => true
  | accept | jump _ | split _ _ => false

/-- The instructions named by this one, in the order in which they are tried. -/
def targets : Instr α → List α
  | jump t => [t]
  | split t u => [t, u]
  | literal _ | any | accept | nop => []

/-- Renames the targets. -/
def map (f : α → β) : Instr α → Instr β
  | literal c => literal c
  | any => any
  | accept => accept
  | jump t => jump (f t)
  | split t u => split (f t) (f u)
  | nop => nop

/-- Renames the targets in order, up to the first that `f` refuses. -/
def traverse {ε : Type} (f : α → Except ε β) : Instr α → Except ε (Instr β)
  | literal c => .ok (literal c)
  | any => .ok any
  | accept => .ok accept
  | jump t => do return jump (← f t)
  | split t u => do return split (← f t) (← f u)
  | nop => .ok nop

/-- Whether the instruction is a `jump`. -/
def isJump : Instr α → Bool
  | jump _ => true
  | literal _ | any | accept | split _ _ | nop => false

/-- Whether the instruction is a `nop`. -/
def isNop : Instr α → Bool
  | nop => true
  | literal _ | any | accept | jump _ | split _ _ => false

/-- The name of the operation. -/
def mnemonic : Instr α → String
  | literal _ => "literal"
  | any => "any"
  | accept => "match"
  | jump _ => "jump"
  | split _ _ => "split"
  | nop => "nop"

end Instr

end PatternMachine
