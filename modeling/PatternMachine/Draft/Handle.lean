import PatternMachine.Instr
import PatternMachine.Text.Quoted

/-!
# Handles and faults

A draft names its instructions by handles that stay valid while instructions are placed, moved and
removed around them. A fault is a way in which a draft fails to be a program, or an edit to apply.
-/

namespace PatternMachine

/-- The name of an instruction in a draft: the number of its slot. -/
structure Handle where
  index : Nat
deriving DecidableEq, Hashable

namespace Handle

/-- The handle as it is named in messages. -/
def render (h : Handle) : String :=
  "#" ++ toString h.index

/-- The handle of the same instruction once `base` slots have been put in front of it. -/
def rebase (base : Nat) (h : Handle) : Handle :=
  ⟨h.index + base⟩

end Handle

/-- A drafted instruction in full, with the handles it names. -/
def Instr.describe : Instr Handle → String
  | literal c => "Literal(" ++ Text.quoteChar c ++ ")"
  | any => "Any"
  | accept => "Match"
  | jump t => "Jump(InstId(" ++ toString t.index ++ "))"
  | split t u =>
    "Split \x7b goto1: InstId(" ++ toString t.index ++ "), goto2: InstId(" ++ toString u.index
      ++ ") \x7d"
  | nop => "Nop"

/-- Why an edit of a draft, or its completion, fails. -/
inductive Fault where
  /-- No instruction is placed. -/
  | empty
  /-- An instruction is a target but not placed. -/
  | dangling (h : Handle)
  /-- A target and everything after it do nothing. -/
  | unresolvedNop (h : Handle)
  /-- The jumps from here never arrive anywhere. -/
  | jumpCycle (h : Handle)
  /-- The last instruction continues with a next one that does not exist. -/
  | fallsOffEnd
  /-- A handle has no slot. -/
  | unallocated (h : Handle)
  /-- A slot to be filled already holds an instruction. -/
  | occupied (held : Instr Handle)
deriving DecidableEq

/-- The fault in words. -/
def Fault.message : Fault → String
  | empty => "program has no instructions"
  | dangling h => "instruction " ++ h.render ++ " is referenced but is not part of the program"
  | unresolvedNop h => "instruction " ++ h.render ++ " is referenced but only nops follow it"
  | jumpCycle h => "jump chain starting at " ++ h.render ++ " never ends"
  | fallsOffEnd => "the last instruction falls through past the end of the program"
  | unallocated h => "instruction " ++ h.render ++ " has no slot"
  | occupied held =>
    "only reserved instructions can be filled, instead it was called on: " ++ held.describe

end PatternMachine
