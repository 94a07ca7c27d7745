import PatternMachine.Draft.Basic
import PatternMachine.Pattern.Basic

/-!
# From patterns to drafts

A pattern adds its instructions to a draft behind what is already there: it fills new slots, places
new handles last, and names only its own instructions, so that what stands before it makes no
difference to it. Where two ways through a pattern meet again its instructions end in a `nop`. They
run off their end when the pattern has matched: what follows is up to the caller.
-/

namespace PatternMachine

/-- Places the instructions of a pattern last and returns the handle of the first of them. A
`split` that stands before its targets is reserved, and filled once they are known. -/
def Edit.pushPattern : Pattern → Edit Handle
  | .literal c => push (.literal c)
  | .any => push .any
  | .empty => push .nop
  | .seq l r => do
    let first ← pushPattern l
    let _ ← pushPattern r
    return first
  | .alt l r => do
    let branch ← reserve
    place branch
    let meet ← reserve
    let first ← pushPattern l
    let _ ← push (.jump meet)
    let second ← pushPattern r
    place meet
    fill branch (.split first second)
    return branch
  | .star p => do
    let branch ← reserve
    place branch
    let exit ← reserve
    let first ← pushPattern p
    let _ ← push (.jump branch)
    place exit
    fill branch (.split first exit)
    return branch
  | .plus p => do
    let first ← pushPattern p
    let exit ← reserve
    let _ ← push (.split first exit)
    place exit
    return first
  | .opt p => do
    let branch ← reserve
    place branch
    let exit ← reserve
    let first ← pushPattern p
    place exit
    fill branch (.split first exit)
    return branch

/-- The draft that holds the instructions of a pattern and nothing else. -/
def Draft.ofPattern (p : Pattern) : Except Fault Draft :=
  (Edit.pushPattern p).apply {}

end PatternMachine
