import PatternMachine.Draft.Handle

/-!
# Drafts

A draft is a program under construction. Its instructions live in slots and are named by handles;
a separate array of handles says in which order they are placed. An edge is a handle, so reordering
or removing placed instructions breaks no edge, and a slot may be reserved before it is known what
it will hold or where it will stand.

An edit that fails still leaves behind what it had done by then, as a draft.
-/

namespace PatternMachine

/-- A program under construction. -/
structure Draft where
  /-- Every instruction ever allocated. -/
  slots : Array (Instr Handle) := #[]
  /-- The placed instructions in the order of execution. -/
  order : Array Handle := #[]
deriving DecidableEq

/-- A change to a draft that may fail. -/
abbrev Edit := EStateM Fault Draft

namespace Draft

/-- The instruction that `h` names, if there is one. -/
def get? (d : Draft) (h : Handle) : Option (Instr Handle) :=
  d.slots[h.index]?

/-- The instruction that `h` names. -/
def get (d : Draft) (h : Handle) : Except Fault (Instr Handle) :=
  match d.get? h with
  | some i => .ok i
  | none => .error (.unallocated h)

/-- The number of placed instructions. -/
def size (d : Draft) : Nat :=
  d.order.size

/-- The first placed instruction. -/
def entry? (d : Draft) : Option Handle :=
  d.order[0]?

/-- The placed instructions with their handles, in order. -/
def instructions (d : Draft) : Except Fault (List (Handle × Instr Handle)) :=
  d.order.toList.mapM fun h => return (h, ← d.get h)

/-- The draft with all its handles moved behind `base` others. -/
def rebase (base : Nat) (d : Draft) : Draft where
  slots := d.slots.map (Instr.map (Handle.rebase base))
  order := d.order.map (Handle.rebase base)

end Draft

namespace Edit

variable {α : Type}

/-- The draft that the edit makes of `d`. -/
def apply (edit : Edit α) (d : Draft) : Except Fault Draft :=
  match edit.run d with
  | .ok _ d' => .ok d'
  | .error fault _ => .error fault

/-- Allocates `i` and places it last. -/
def push (i : Instr Handle) : Edit Handle := fun ⟨slots, order⟩ =>
  let h : Handle := ⟨slots.size⟩
  .ok h ⟨slots.push i, order.push h⟩

/-- Allocates a `nop` that is not placed yet, to be placed as a meeting point or filled once its
targets are known. -/
def reserve : Edit Handle := fun ⟨slots, order⟩ =>
  .ok ⟨slots.size⟩ ⟨slots.push .nop, order⟩

/-- Places `h` last. -/
def place (h : Handle) : Edit Unit := fun ⟨slots, order⟩ =>
  .ok () ⟨slots, order.push h⟩

/-- Puts `i` into the slot of `h`, which has to hold a `nop`. -/
def fill (h : Handle) (i : Instr Handle) : Edit Unit := fun ⟨slots, order⟩ =>
  match slots[h.index]? with
  | none => .error (.unallocated h) ⟨slots, order⟩
  | some .nop => .ok () ⟨slots.setIfInBounds h.index i, order⟩
  | some held => .error (.occupied held) ⟨slots, order⟩

/-- Appends `fragment`, its handles rebased behind those of the draft, and returns the new handle
of its first instruction. -/
def splice (fragment : Draft) : Edit Handle := fun ⟨slots, order⟩ =>
  let moved := fragment.rebase slots.size
  match moved.entry? with
  | none => .error .empty ⟨slots ++ moved.slots, order ++ moved.order⟩
  | some entry => .ok entry ⟨slots ++ moved.slots, order ++ moved.order⟩

/-- Redirects the targets of the instructions in the slots `hs`, one slot after the other. The new
target may depend on the slots as they are by then. -/
def retargetSlots (redirect : Array (Instr Handle) → Handle → Except Fault Handle) :
    List Handle → Array (Instr Handle) → EStateM.Result Fault (Array (Instr Handle)) Unit
  | [], slots => .ok () slots
  | h :: later, slots =>
    match slots[h.index]? with
    | none => .error (.unallocated h) slots
    | some i =>
      match i.traverse (redirect slots) with
      | .error fault => .error fault slots
      | .ok i => retargetSlots redirect later (slots.setIfInBounds h.index i)

/-- Redirects the targets of the placed instructions in order. -/
def retarget (redirect : Array (Instr Handle) → Handle → Except Fault Handle) : Edit Unit :=
  fun ⟨slots, order⟩ =>
    match retargetSlots redirect order.toList slots with
    | .ok () slots => .ok () ⟨slots, order⟩
    | .error fault slots => .error fault ⟨slots, order⟩

end Edit

end PatternMachine
