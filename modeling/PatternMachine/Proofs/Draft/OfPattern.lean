import Mathlib.Data.List.Nodup
import PatternMachine.Draft.OfPattern
import PatternMachine.Proofs.Draft.Finish
import PatternMachine.Proofs.Program.Layout

/-!
# The draft of a pattern

`Pattern.slots` and `Pattern.order` are what a pattern adds to a draft, as functions of the number
of slots that are there already. `Edit.pushPattern` adds exactly these (`run_pushPattern`): it never
fails, since the slots it fills are its own reserved ones. Every slot is placed once (`order_perm`),
and the placed instructions are the code of the pattern (`forall₂_code`), so that the draft of a
pattern, ended by `accept`, is finished as `Pattern.program` (`finish_completed`).
-/

namespace PatternMachine

/-- The draft with these slots and this order. -/
def Draft.ofLists (slots : List (Instr Handle)) (order : List Handle) : Draft :=
  ⟨slots.toArray, order.toArray⟩

/-! ## Single edits -/

namespace Edit

variable {slots : List (Instr Handle)} {order : List Handle}

/-- Pushing an instruction makes a slot for it and places it last. -/
theorem run_push (i : Instr Handle) : (push i).run (.ofLists slots order) =
    .ok ⟨slots.length⟩ (.ofLists (slots ++ [i]) (order ++ [⟨slots.length⟩])) := by
  simp [push, EStateM.run, Draft.ofLists]

/-- Reserving makes a slot and places nothing. -/
theorem run_reserve : reserve.run (.ofLists slots order) =
    .ok ⟨slots.length⟩ (.ofLists (slots ++ [.nop]) order) := by
  simp [reserve, EStateM.run, Draft.ofLists]

/-- Placing adds a handle to the order and leaves the slots alone. -/
theorem run_place (h : Handle) : (place h).run (.ofLists slots order) =
    .ok () (.ofLists slots (order ++ [h])) := by
  simp [place, EStateM.run, Draft.ofLists]

/-- A slot that still holds a `nop` can be filled. -/
theorem run_fill (before after : List (Instr Handle)) (i : Instr Handle) :
    (fill ⟨before.length⟩ i).run (.ofLists (before ++ .nop :: after) order) =
      .ok () (.ofLists (before ++ i :: after) order) := by
  simp [fill, EStateM.run, Draft.ofLists]

end Edit

/-! ## What a pattern adds -/

namespace Pattern

/-- The slots of a pattern, the first of them with number `base`. -/
def slots : Pattern → (base : Nat) → List (Instr Handle)
  | literal c, _ => [.literal c]
  | any, _ => [.any]
  | empty, _ => [.nop]
  | seq l r, base => l.slots base ++ r.slots (base + l.codeSize)
  | alt l r, base =>
    .split ⟨base + 2⟩ ⟨base + l.codeSize + 3⟩ :: .nop :: (l.slots (base + 2) ++
      .jump ⟨base + 1⟩ :: r.slots (base + l.codeSize + 3))
  | star p, base =>
    .split ⟨base + 2⟩ ⟨base + 1⟩ :: .nop :: (p.slots (base + 2) ++ [.jump ⟨base⟩])
  | plus p, base => p.slots base ++ [.nop, .split ⟨base⟩ ⟨base + p.codeSize⟩]
  | opt p, base => .split ⟨base + 2⟩ ⟨base + 1⟩ :: .nop :: p.slots (base + 2)

/-- The order in which the slots of a pattern are placed. -/
def order : Pattern → (base : Nat) → List Handle
  | literal _, base | any, base | empty, base => [⟨base⟩]
  | seq l r, base => l.order base ++ r.order (base + l.codeSize)
  | alt l r, base =>
    ⟨base⟩ :: (l.order (base + 2) ++ ⟨base + l.codeSize + 2⟩ ::
      (r.order (base + l.codeSize + 3) ++ [⟨base + 1⟩]))
  | star p, base => ⟨base⟩ :: (p.order (base + 2) ++ [⟨base + p.codeSize + 2⟩, ⟨base + 1⟩])
  | plus p, base => p.order base ++ [⟨base + p.codeSize + 1⟩, ⟨base + p.codeSize⟩]
  | opt p, base => ⟨base⟩ :: (p.order (base + 2) ++ [⟨base + 1⟩])

/-- A pattern has as many slots as instructions. -/
@[simp]
theorem length_slots (p : Pattern) (base : Nat) : (p.slots base).length = p.codeSize := by
  induction p generalizing base with
  | literal | any | empty => rfl
  | seq l r ihl ihr => simp [slots, codeSize, ihl, ihr]
  | alt l r ihl ihr =>
    simp [slots, codeSize, ihl, ihr]
    omega
  | star p ih | plus p ih | opt p ih => simp [slots, codeSize, ih]

/-- The first slot is placed first. -/
theorem exists_order_eq_cons (p : Pattern) (base : Nat) :
    ∃ rest, p.order base = ⟨base⟩ :: rest := by
  induction p generalizing base with
  | literal | any | empty => exact ⟨[], rfl⟩
  | alt | star | opt => exact ⟨_, rfl⟩
  | seq l r ihl _ =>
    obtain ⟨rest, h⟩ := ihl base
    exact ⟨rest ++ r.order (base + l.codeSize), by rw [order, h, List.cons_append]⟩
  | plus p ih =>
    obtain ⟨rest, h⟩ := ih base
    exact ⟨_, by rw [order, h, List.cons_append]⟩

/-- It has as many places as instructions. -/
@[simp]
theorem length_order (p : Pattern) (base : Nat) : (p.order base).length = p.codeSize := by
  induction p generalizing base with
  | literal | any | empty => rfl
  | seq l r ihl ihr => simp [order, codeSize, ihl, ihr]
  | alt l r ihl ihr =>
    simp [order, codeSize, ihl, ihr]
    omega
  | star p ih | plus p ih | opt p ih => simp [order, codeSize, ih]

/-- Every slot is placed once. -/
theorem order_perm (p : Pattern) (base : Nat) :
    (p.order base).Perm ((List.range' base p.codeSize).map Handle.mk) := by
  induction p generalizing base with
  | literal | any | empty => exact .refl _
  | seq l r ihl ihr =>
    rw [order, codeSize, ← List.range'_append_1, List.map_append]
    exact (ihl base).append (ihr _)
  | alt l r ihl ihr =>
    have h₁ : base + 1 + 1 + l.codeSize = base + l.codeSize + 2 := by omega
    have h₂ : l.codeSize + r.codeSize + 3 = l.codeSize + (r.codeSize + 1) + 1 + 1 := by omega
    rw [order, codeSize, h₂, List.range'_succ, List.range'_succ, ← List.range'_append_1,
      List.range'_succ, h₁]
    refine .cons _ (List.Perm.trans ?_ (List.perm_append_singleton _ _))
    simpa using (ihl (base + 2)).append (((ihr (base + l.codeSize + 3)).cons _).append_right _)
  | star p ih =>
    have h₁ : base + 1 + 1 + p.codeSize = base + p.codeSize + 2 := by omega
    rw [order, codeSize, List.range'_succ, List.range'_succ, List.range'_1_concat, h₁]
    refine .cons _ (List.Perm.trans ?_ (List.perm_append_singleton _ _))
    simpa using (ih (base + 2)).append_right _
  | plus p ih =>
    rw [order, codeSize, ← List.range'_append_1, List.map_append]
    exact (ih base).append (.swap _ _ _)
  | opt p ih =>
    rw [order, codeSize, List.range'_succ, List.range'_succ]
    refine .cons _ (List.Perm.trans ?_ (List.perm_append_singleton _ _))
    exact (ih (base + 2)).append_right _

end Pattern

/-! ## Pushing a pattern -/

/-- Pushing a pattern adds its slots and its order, and returns the first of its handles. -/
theorem Edit.run_pushPattern (p : Pattern) (slots : List (Instr Handle)) (order : List Handle) :
    (pushPattern p).run (.ofLists slots order) = .ok ⟨slots.length⟩
      (.ofLists (slots ++ p.slots slots.length) (order ++ p.order slots.length)) := by
  induction p generalizing slots order with
  | literal c => exact run_push _
  | any => exact run_push _
  | empty => exact run_push _
  | seq l r ihl ihr =>
    simp only [pushPattern, EStateM.run_bind, ihl, ihr]
    simp [Pattern.slots, Pattern.order]
  | alt l r ihl ihr =>
    simp only [pushPattern, EStateM.run_bind, run_reserve, run_place, run_push, ihl, ihr]
    simp only [Pattern.slots, Pattern.order, List.append_assoc, List.cons_append, List.nil_append,
      List.length_append, Pattern.length_slots, List.length_cons, List.length_nil, Nat.zero_add,
      Nat.add_assoc, Nat.reduceAdd, run_fill]
    rfl
  | star p ih | opt p ih =>
    simp only [pushPattern, EStateM.run_bind, run_reserve, run_place, run_push, ih]
    simp only [Pattern.slots, Pattern.order, List.append_assoc, List.cons_append, List.nil_append,
      List.length_append, Pattern.length_slots, List.length_cons, List.length_nil, Nat.zero_add,
      Nat.add_assoc, Nat.reduceAdd, run_fill]
    rfl
  | plus p ih =>
    simp only [pushPattern, EStateM.run_bind, run_reserve, run_place, run_push, ih]
    simp [Pattern.slots, Pattern.order, Nat.add_assoc]

/-- A pattern has a draft, with its slots and its order. -/
theorem Draft.ofPattern_eq_ok (p : Pattern) :
    ofPattern p = .ok (.ofLists (p.slots 0) (p.order 0)) := by
  have hrun := Edit.run_pushPattern p [] []
  rw [List.nil_append, List.nil_append, List.length_nil] at hrun
  show Edit.apply _ (.ofLists [] []) = _
  rw [Edit.apply, hrun]

/-! ## Finishing the draft of a pattern -/

/-- The first instruction of a pattern is in its first slot. -/
theorem Pattern.place_of_order {place? : Nat → Option Handle} (p : Pattern) {base b : Nat}
    (h : StandsAt place? b (p.order base)) : place? b = some ⟨base⟩ := by
  obtain ⟨rest, heq⟩ := p.exists_order_eq_cons base
  rw [heq] at h
  exact h.1

/-- The placed instructions of a pattern are its code, wherever its slots and their places are. -/
theorem Pattern.forall₂_code {slot? : Nat → Option (Instr Handle)} {place? : Nat → Option Handle}
    (p : Pattern) {base b : Nat} (hs : StandsAt slot? base (p.slots base))
    (ho : StandsAt place? b (p.order base)) :
    List.Forall₂ (fun h j => ∃ i, slot? h.index = some i ∧ i.Rel (fun t k => place? k = some t) j)
      (p.order base) (p.code b) := by
  induction p generalizing base b with
  | literal c => exact .cons ⟨_, hs.1, .literal c⟩ .nil
  | any => exact .cons ⟨_, hs.1, .any⟩ .nil
  | empty => exact .cons ⟨_, hs.1, .nop⟩ .nil
  | seq l r ihl ihr =>
    simp only [slots, order, StandsAt.append_iff, length_slots, length_order] at hs ho
    exact List.rel_append (ihl hs.1 ho.1) (ihr hs.2 ho.2)
  | alt l r ihl ihr =>
    have h₁ : base + 1 + 1 + l.codeSize = base + l.codeSize + 2 := by omega
    have h₂ : b + 1 + l.codeSize = b + l.codeSize + 1 := by omega
    have h₃ : b + l.codeSize + 1 + 1 + r.codeSize = b + l.codeSize + r.codeSize + 2 := by omega
    simp only [slots, order, StandsAt.append_iff, StandsAt.cons_iff, StandsAt.nil_iff, length_slots,
      length_order, and_true, h₁, h₂, h₃] at hs ho
    obtain ⟨hbranch, hmeet, hl, hjump, hr⟩ := hs
    obtain ⟨hobranch, hol, hojump, hor, homeet⟩ := ho
    exact .cons ⟨_, hbranch, .split (l.place_of_order hol) (r.place_of_order hor)⟩ <|
      List.rel_append (ihl hl hol) <| .cons ⟨_, hjump, .jump homeet⟩ <|
        List.rel_append (ihr hr hor) <| .cons ⟨_, hmeet, .nop⟩ .nil
  | star p ih =>
    have h₁ : base + 1 + 1 + p.codeSize = base + p.codeSize + 2 := by omega
    have h₂ : b + 1 + p.codeSize = b + p.codeSize + 1 := by omega
    simp only [slots, order, StandsAt.append_iff, StandsAt.cons_iff, StandsAt.nil_iff, length_slots,
      length_order, and_true, h₁, h₂] at hs ho
    obtain ⟨hbranch, hexit, hp, hjump⟩ := hs
    obtain ⟨hobranch, hop, hojump, hoexit⟩ := ho
    exact .cons ⟨_, hbranch, .split (p.place_of_order hop) hoexit⟩ <|
      List.rel_append (ih hp hop) <| .cons ⟨_, hjump, .jump hobranch⟩ <|
        .cons ⟨_, hexit, .nop⟩ .nil
  | plus p ih =>
    simp only [slots, order, StandsAt.append_iff, StandsAt.cons_iff, StandsAt.nil_iff, length_slots,
      length_order, and_true] at hs ho
    obtain ⟨hp, hexit, hbranch⟩ := hs
    obtain ⟨hop, hobranch, hoexit⟩ := ho
    exact List.rel_append (ih hp hop) <| .cons ⟨_, hbranch, .split (p.place_of_order hop) hoexit⟩ <|
      .cons ⟨_, hexit, .nop⟩ .nil
  | opt p ih =>
    have h₂ : b + 1 + p.codeSize = b + p.codeSize + 1 := by omega
    simp only [slots, order, StandsAt.append_iff, StandsAt.cons_iff, StandsAt.nil_iff, length_order,
      and_true, h₂] at hs ho
    obtain ⟨hbranch, hexit, hp⟩ := hs
    obtain ⟨hobranch, hop, hoexit⟩ := ho
    exact .cons ⟨_, hbranch, .split (p.place_of_order hop) hoexit⟩ <|
      List.rel_append (ih hp hop) <| .cons ⟨_, hexit, .nop⟩ .nil

namespace Draft

/-- The draft of a pattern with `accept` placed last. -/
def completed (p : Pattern) : Draft :=
  .ofLists (p.slots 0 ++ [Instr.accept]) (p.order 0 ++ [⟨p.codeSize⟩])

/-- Pushing `accept` completes the draft of a pattern. -/
theorem run_push_accept (p : Pattern) :
    (Edit.push .accept).run (.ofLists (p.slots 0) (p.order 0)) =
      .ok ⟨p.codeSize⟩ (completed p) := by
  rw [Edit.run_push, Pattern.length_slots, completed]

/-- The draft of a pattern places every handle once. -/
theorem nodup_order_completed (p : Pattern) : (completed p).order.toList.Nodup := by
  have hperm := (p.order_perm 0).append_right [⟨p.codeSize⟩]
  have hrange : (List.range' 0 p.codeSize).map Handle.mk ++ [⟨p.codeSize⟩] =
      (List.range' 0 (p.codeSize + 1)).map Handle.mk := by
    rw [List.range'_1_concat, List.map_append, Nat.zero_add]
    rfl
  rw [hrange] at hperm
  refine hperm.nodup_iff.2 (List.Nodup.map ?_ List.nodup_range')
  exact fun _ _ h => congrArg Handle.index h

/-- The draft of a pattern, ended by `accept`, is finished as the program of the pattern. -/
theorem finish_completed (p : Pattern) : (completed p).finish = .ok p.program := by
  have hslots : StandsAt (fun k => (p.slots 0 ++ [Instr.accept])[k]?) 0 (p.slots 0) :=
    StandsAt.of_append [] (p.slots 0) [Instr.accept]
  have horder : StandsAt (fun k => (p.order 0 ++ [⟨p.codeSize⟩])[k]?) 0 (p.order 0) :=
    StandsAt.of_append [] (p.order 0) [⟨p.codeSize⟩]
  have hcode := p.forall₂_code hslots horder
  have hlast : p.program.code.toList.getLast? = some .accept := by simp [Pattern.program]
  refine finish_of_nodup (nodup_order_completed p) ?_ hlast rfl
  simp only [get?, completed, ofLists, List.getElem?_toArray]
  exact List.rel_append hcode (.cons ⟨.accept, by simp, .accept⟩ .nil)

/-- It can be finished, so it is sound. -/
theorem sound_completed (p : Pattern) : (completed p).Sound :=
  .of_finish (finish_completed p) (nodup_order_completed p)

end Draft

end PatternMachine
