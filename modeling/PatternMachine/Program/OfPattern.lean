import PatternMachine.Draft.Finish
import PatternMachine.Draft.OfPattern
import PatternMachine.Draft.Shorten

/-!
# From patterns to programs

The draft of a pattern, ended by `accept`, shortened if that is asked for, and finished.
-/

namespace PatternMachine

/-- A program made from a pattern, and how many instructions it took on the way. -/
structure Assembly where
  program : Program
  /-- The number of instructions of the pattern alone. -/
  patternSize : Nat
  /-- What shortening the program saved, if it was shortened. -/
  savings : Option Savings
deriving DecidableEq

namespace Assembly

/-- Ends a draft with `accept` and shortens it if `shorten` is set. -/
def complete (shorten : Bool) : Edit (Option Savings) := do
  let _ ← Edit.push .accept
  if shorten then
    let savings ← Edit.shorten
    return some savings
  else return none

/-- The assembly of `p`. -/
def ofPattern (shorten : Bool) (p : Pattern) : Except Fault Assembly := do
  let draft ← Draft.ofPattern p
  let patternSize := draft.size
  match (complete shorten).run draft with
  | .error fault _ => throw fault
  | .ok savings draft =>
    let program ← draft.finish
    return { program, patternSize, savings }

end Assembly

end PatternMachine
