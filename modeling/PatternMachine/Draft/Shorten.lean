import PatternMachine.Draft.Jumps
import PatternMachine.Draft.Nops

/-!
# Shortening a draft

The three simplifications, in the order in which each finds what it expects: chains of jumps are
looked for once no `nop` stands between them, and unreachable jumps once no edge leads into the
middle of a chain.
-/

namespace PatternMachine

/-- How many instructions were placed before and after a draft was shortened. -/
structure Savings where
  before : Nat
  /-- After `nop`s had been removed; shortcuts of jumps do not change the number. -/
  withoutNops : Nat
  /-- After unreachable jumps had been removed as well. -/
  withoutJumps : Nat
deriving DecidableEq

/-- Removes `nop`s, shortcuts chains of jumps and removes unreachable jumps. -/
def Edit.shorten : Edit Savings := do
  let before := (← get).size
  skipNops
  let withoutNops := (← get).size
  shortcutJumps
  dropDeadJumps
  return { before, withoutNops, withoutJumps := (← get).size }

end PatternMachine
