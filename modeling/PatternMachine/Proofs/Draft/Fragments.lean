import PatternMachine.Proofs.Draft.OfPattern

/-!
# Putting drafts together from fragments

A pattern can be translated without a draft to add to: every part of it is made into a draft of its
own, and the drafts of the parts are spliced into that of the whole (`Draft.ofFragments`). Splicing
the draft of a pattern does what pushing the pattern does (`Edit.run_splice_ofLists`), so that both
ways lead to the same draft (`Draft.ofFragments_eq_ofPattern`), and no fragment is empty. Ended by
`accept`, the draft becomes the code of the pattern (`Draft.translation_is_code`).
-/

namespace PatternMachine

open Edit in
/-- The draft of a pattern, with the drafts of its parts spliced in. -/
def Draft.ofFragments : Pattern → Except Fault Draft
  | .literal c => (push (.literal c)).apply {}
  | .any => (push .any).apply {}
  | .empty => (push .nop).apply {}
  | .seq l r => do
    let left ← ofFragments l
    let right ← ofFragments r
    (splice right).apply left
  | .alt l r => do
    let left ← ofFragments l
    let right ← ofFragments r
    let edit : Edit Unit := do
      let branch ← reserve
      place branch
      let meet ← reserve
      let first ← splice left
      let _ ← push (.jump meet)
      let second ← splice right
      place meet
      fill branch (.split first second)
    edit.apply {}
  | .star p => do
    let body ← ofFragments p
    let edit : Edit Unit := do
      let branch ← reserve
      place branch
      let exit ← reserve
      let first ← splice body
      let _ ← push (.jump branch)
      place exit
      fill branch (.split first exit)
    edit.apply {}
  | .plus p => do
    let body ← ofFragments p
    match body.entry? with
    | none => throw .empty
    | some first =>
      let edit : Edit Unit := do
        let exit ← reserve
        let _ ← push (.split first exit)
        place exit
      edit.apply body
  | .opt p => do
    let body ← ofFragments p
    let edit : Edit Unit := do
      let branch ← reserve
      place branch
      let exit ← reserve
      let first ← splice body
      place exit
      fill branch (.split first exit)
    edit.apply {}

/-! ## Moving the handles of a pattern -/

namespace Pattern

/-- The slots of a pattern move by changing the number of the first of them. -/
theorem map_rebase_slots (p : Pattern) (base n : Nat) :
    (p.slots base).map (Instr.map (Handle.rebase n)) = p.slots (base + n) := by
  induction p generalizing base with
  | literal | any | empty => rfl
  | seq l r ihl ihr => simp [slots, ihl, ihr, Nat.add_right_comm]
  | alt l r ihl ihr => simp [slots, ihl, ihr, Instr.map, Handle.rebase, Nat.add_right_comm _ _ n]
  | star p ih | plus p ih | opt p ih =>
    simp [slots, ih, Instr.map, Handle.rebase, Nat.add_right_comm _ _ n]

/-- So does the order in which they are placed. -/
theorem map_rebase_order (p : Pattern) (base n : Nat) :
    (p.order base).map (Handle.rebase n) = p.order (base + n) := by
  induction p generalizing base with
  | literal | any | empty => rfl
  | seq l r ihl ihr => simp [order, ihl, ihr, Nat.add_right_comm]
  | alt l r ihl ihr => simp [order, ihl, ihr, Handle.rebase, Nat.add_right_comm _ _ n]
  | star p ih | plus p ih | opt p ih =>
    simp [order, ih, Handle.rebase, Nat.add_right_comm _ _ n]

end Pattern

/-- Splicing the draft of a pattern adds what pushing the pattern adds. -/
theorem Edit.run_splice_ofLists (p : Pattern) (slots : List (Instr Handle)) (order : List Handle) :
    (splice (.ofLists (p.slots 0) (p.order 0))).run (.ofLists slots order) = .ok ⟨slots.length⟩
      (.ofLists (slots ++ p.slots slots.length) (order ++ p.order slots.length)) := by
  have hmoved : (Draft.ofLists (p.slots 0) (p.order 0)).rebase slots.length =
      .ofLists (p.slots slots.length) (p.order slots.length) := by
    have hslots := p.map_rebase_slots 0 slots.length
    have horder := p.map_rebase_order 0 slots.length
    rw [Nat.zero_add] at hslots horder
    simp [Draft.rebase, Draft.ofLists, hslots, horder]
  have hsplice : ∀ fragment : Draft, (splice fragment).run (.ofLists slots order) =
      match Draft.entry? (fragment.rebase slots.length) with
      | none => .error .empty ⟨slots.toArray ++ (fragment.rebase slots.length).slots,
          order.toArray ++ (fragment.rebase slots.length).order⟩
      | some entry => .ok entry ⟨slots.toArray ++ (fragment.rebase slots.length).slots,
          order.toArray ++ (fragment.rebase slots.length).order⟩ := fun _ => rfl
  obtain ⟨rest, hrest⟩ := p.exists_order_eq_cons slots.length
  rw [hsplice, hmoved]
  simp [Draft.entry?, Draft.ofLists, hrest]

/-- An edit that succeeds is applied by taking the draft it leaves. -/
theorem Edit.apply_eq_ok {edit : Edit Unit} {d e : Draft} (h : edit.run d = .ok () e) :
    edit.apply d = .ok e := by
  rw [apply, h]

/-- The draft put together from fragments is that of the pattern. -/
theorem Draft.ofFragments_eq_ofPattern (p : Pattern) : ofFragments p = ofPattern p := by
  rw [ofPattern_eq_ok]
  induction p with
  | literal | any | empty => rfl
  | seq l r ihl ihr =>
    simp only [ofFragments, ihl, ihr, bind, Except.bind, Edit.apply, Edit.run_splice_ofLists]
    simp [Pattern.slots, Pattern.order]
  | alt l r ihl ihr =>
    rw [ofFragments, ihl, ihr]
    refine Edit.apply_eq_ok (d := .ofLists [] []) ?_
    simp only [EStateM.run_bind, Edit.run_reserve, Edit.run_place, Edit.run_push,
      Edit.run_splice_ofLists]
    simp only [Pattern.slots, Pattern.order, List.append_assoc, List.cons_append, List.nil_append,
      List.length_append, Pattern.length_slots, List.length_cons, List.length_nil, Nat.zero_add,
      Nat.add_assoc, Nat.reduceAdd]
    exact Edit.run_fill [] _ _
  | star p ih | opt p ih =>
    rw [ofFragments, ih]
    refine Edit.apply_eq_ok (d := .ofLists [] []) ?_
    simp only [EStateM.run_bind, Edit.run_reserve, Edit.run_place, Edit.run_push,
      Edit.run_splice_ofLists]
    simp only [Pattern.slots, Pattern.order, List.append_assoc, List.cons_append, List.nil_append,
      Pattern.length_slots, List.length_cons, List.length_nil, Nat.zero_add, Nat.add_assoc,
      Nat.reduceAdd]
    exact Edit.run_fill [] _ _
  | plus p ih =>
    obtain ⟨rest, hrest⟩ := p.exists_order_eq_cons 0
    have hentry : Draft.entry? (ofLists (p.slots 0) (p.order 0)) = some ⟨0⟩ := by
      simp [Draft.entry?, ofLists, hrest]
    rw [ofFragments, ih]
    show (match Draft.entry? (ofLists (p.slots 0) (p.order 0)) with
      | none => _
      | some first => _) = _
    rw [hentry]
    refine Edit.apply_eq_ok ?_
    simp only [EStateM.run_bind, Edit.run_reserve, Edit.run_place, Edit.run_push]
    simp [Pattern.slots, Pattern.order]

/-- Handles leave no trace: whichever way the draft of a pattern is put together, ended by `accept`
it is finished as the code of the pattern, which names its instructions by their positions from the
start on, and `accept` behind it. -/
theorem Draft.translation_is_code (p : Pattern) :
    (∀ b, (p.code b).length = p.codeSize) ∧
    ∃ d h e, ofPattern p = .ok d ∧ ofFragments p = .ok d ∧ (Edit.push .accept).run d = .ok h e ∧
      e.finish = .ok ⟨(p.code 0 ++ [Instr.accept]).toArray⟩ := by
  refine ⟨p.length_code, .ofLists (p.slots 0) (p.order 0), ⟨p.codeSize⟩, completed p,
    ofPattern_eq_ok p, ?_, run_push_accept p, finish_completed p⟩
  rw [ofFragments_eq_ofPattern, ofPattern_eq_ok]

/-- The exit of a repetition is reserved before its body is translated and placed behind it. -/
example : (Pattern.seq (.star (.literal 'a')) .any).code 0 =
    [.split 1 3, .literal 'a', .jump 0, .nop, .any] := rfl

end PatternMachine
