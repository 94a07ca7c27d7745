import PatternMachine.Draft.Basic
import Std.Data.HashMap

/-!
# Removing `nop`s

A `nop` only passes on to its successor. Once every edge to a `nop` leads to the first other
instruction after it, the `nop`s can be dropped from the order. Their slots stay.
-/

namespace PatternMachine

namespace Draft

/-- For every place in the order, the first instruction there or later that is not a `nop`. -/
def landings : List (Handle × Instr Handle) → List (Option Handle)
  | [] => []
  | (h, i) :: later =>
    let after := landings later
    (if i.isNop then after.head?.join else some h) :: after

/-- Where an edge to a placed instruction comes to rest. Of a handle placed more than once, the
last place counts. -/
def landingTable (placed : List (Handle × Instr Handle)) : Std.HashMap Handle (Option Handle) :=
  (placed.zip (landings placed)).foldl (fun table (p, landing) => table.insert p.1 landing) ∅

/-- Where an edge to `target` comes to rest, if anywhere. -/
def redirect (table : Std.HashMap Handle (Option Handle)) (target : Handle) :
    Except Fault Handle :=
  match table[target]? with
  | none => .error (.dangling target)
  | some none => .error (.unresolvedNop target)
  | some (some landing) => .ok landing

/-- The draft without the `nop`s in its order. -/
def dropNops (d : Draft) : Draft :=
  { d with order := d.order.filter fun h => !(d.get? h).any Instr.isNop }

end Draft

/-- Leads every edge past `nop`s and removes them from the order. -/
def Edit.skipNops : Edit Unit := fun d =>
  match d.instructions with
  | .error fault => .error fault d
  | .ok placed =>
    let table := Draft.landingTable placed
    match retarget (fun _ => Draft.redirect table) d with
    | .error fault d' => .error fault d'
    | .ok () d' => .ok () d'.dropNops

end PatternMachine
