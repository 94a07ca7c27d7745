import PatternMachine.Draft.Basic
import PatternMachine.Program.Basic
import Std.Data.HashMap

/-!
# Finishing a draft

A draft becomes a program when every edge leads to a placed instruction and execution cannot run
past the last one. Handles are replaced by positions; slots that are not placed are left behind.
-/

namespace PatternMachine.Draft

/-- The position of every placed instruction. Of a handle placed more than once, the last one
counts. -/
def positions (order : List Handle) : Std.HashMap Handle Nat :=
  order.zipIdx.foldl (fun table (h, pos) => table.insert h pos) ∅

/-- The position of `target`. -/
def resolve (table : Std.HashMap Handle Nat) (target : Handle) : Except Fault Nat :=
  match table[target]? with
  | none => .error (.dangling target)
  | some pos => .ok pos

/-- The program that the draft describes. -/
def finish (d : Draft) : Except Fault Program := do
  let table := positions d.order.toList
  let code ← d.order.toList.mapM fun h => do (← d.get h).traverse (resolve table)
  match code.getLast? with
  | none => .error .empty
  | some last => if last.fallsThrough then .error .fallsOffEnd else return ⟨code.toArray⟩

end PatternMachine.Draft
