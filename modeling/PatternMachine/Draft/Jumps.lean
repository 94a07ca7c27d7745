import PatternMachine.Draft.Basic
import Std.Data.HashMap

/-!
# Shortening jumps

An edge to a `jump` may as well lead to where the jump leads. After that a `jump` behind another
`jump` is never reached unless some edge still leads to it, and can be removed.
-/

namespace PatternMachine

namespace Draft

/-- The first instruction that is no `jump` on the chain of jumps from `start`, of which `h` is the
next to look at and at most `steps` are left. -/
def destination (slots : Array (Instr Handle)) (start : Handle) : (steps : Nat) → (h : Handle) →
    Except Fault Handle
  | 0, _ => .error (.jumpCycle start)
  | steps + 1, h =>
    match slots[h.index]? with
    | some (.jump next) => destination slots start steps next
    | some _ => .ok h
    | none => .error (.dangling h)

/-- How often each instruction is a target of the placed ones. -/
def references (placed : List (Handle × Instr Handle)) : Std.HashMap Handle Nat :=
  (placed.flatMap fun p => p.2.targets).foldl
    (fun counts t => counts.insert t (counts.getD t 0 + 1)) ∅

/-- The counts after one reference to each of `targets` has gone. -/
def release (counts : Std.HashMap Handle Nat) (targets : List Handle) : Std.HashMap Handle Nat :=
  targets.foldl (fun counts t => counts.insert t (counts.getD t 0 - 1)) counts

/-- Removes unreachable jumps from the back. `before` is what is still to be looked at, the last
placed first, and `after` is what was kept behind it. -/
def dropDead (counts : Std.HashMap Handle Nat) (after : List (Handle × Instr Handle)) :
    (before : List (Handle × Instr Handle)) → List (Handle × Instr Handle)
  | p :: q :: rest =>
    if p.2.isJump && q.2.isJump && counts.getD p.1 0 == 0 then
      dropDead (release counts p.2.targets) after (q :: rest)
    else dropDead counts (p :: after) (q :: rest)
  | [p] => p :: after
  | [] => after

end Draft

namespace Edit

/-- Leads every edge to a `jump` to the end of its chain of jumps. A chain of more jumps than there
are placed instructions never ends. -/
def shortcutJumps : Edit Unit := fun d =>
  let steps := d.size + 1
  retarget (fun slots t => Draft.destination slots t steps t) d

/-- Removes every `jump` that directly follows another one and that no edge leads to. -/
def dropDeadJumps : Edit Unit := fun d =>
  match d.instructions with
  | .error fault => .error fault d
  | .ok placed =>
    let kept := Draft.dropDead (Draft.references placed) [] placed.reverse
    .ok () { d with order := (kept.map (·.1)).toArray }

end Edit

end PatternMachine
