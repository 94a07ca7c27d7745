import PatternMachine.Proofs.Draft.Pruning

/-!
# The simplifications in any order

`Edit.shorten` applies its simplifications in one order, in which each of them finds what it
expects, and stops at the first that fails. To keep the answers neither is needed: to what each
simplification leaves of a sound draft, where it fails as well, the draft reduces
(`Sound.reduces_leaves`). The draft that is left is sound again, so the same holds of one
simplification after the other, in any order and as often as one likes (`Sound.reduces_simplified`).
-/

namespace PatternMachine

/-- What the edit leaves of `d`, where it fails as well. -/
def Edit.leaves {α : Type} (edit : Edit α) (d : Draft) : Draft :=
  match edit.run d with
  | .ok _ e => e
  | .error _ e => e

/-- An edit that succeeds leaves what it returns. -/
theorem Edit.leaves_of_ok {α : Type} {edit : Edit α} {d e : Draft} {a : α}
    (h : edit.run d = .ok a e) : edit.leaves d = e := by
  rw [leaves, h]

/-- An edit that fails leaves the draft as far as it has come. -/
theorem Edit.leaves_of_error {α : Type} {edit : Edit α} {d e : Draft} {fault : Fault}
    (h : edit.run d = .error fault e) : edit.leaves d = e := by
  rw [leaves, h]

/-- One of the edits that shorten a draft. -/
inductive Simplification where
  | skipNops
  | shortcutJumps
  | dropDeadJumps
deriving DecidableEq

/-- The edit itself. -/
def Simplification.edit : Simplification → Edit Unit
  | skipNops => Edit.skipNops
  | shortcutJumps => Edit.shortcutJumps
  | dropDeadJumps => Edit.dropDeadJumps

namespace Draft

variable {d : Draft} {p : Program}

/-- What is left of the draft after one simplification after the other. One that fails does not
stop those behind it. -/
def simplified (d : Draft) (steps : List Simplification) : Draft :=
  steps.foldl (fun d step => step.edit.leaves d) d

/-- A sound draft reduces to what a simplification leaves of it. -/
theorem Sound.reduces_leaves (hd : d.Sound) (step : Simplification) :
    Reduces d (step.edit.leaves d) := by
  cases step with
  | skipNops =>
    obtain ⟨e, heq, hred⟩ := hd.skipNops_eq_ok
    exact (Edit.leaves_of_ok heq).symm ▸ hred
  | shortcutJumps =>
    rcases hd.shortcutJumps_cases with ⟨e, heq, hred⟩ | ⟨e, t, heq, hred, -⟩
    · exact (Edit.leaves_of_ok heq).symm ▸ hred
    -- The instructions rewritten before the fault lead where they led before.
    · exact (Edit.leaves_of_error heq).symm ▸ hred.reduces hd
  | dropDeadJumps =>
    obtain ⟨e, heq, hred⟩ := hd.dropDeadJumps_eq_ok
    exact (Edit.leaves_of_ok heq).symm ▸ hred

/-- A sound draft reduces to what is left after any simplifications. -/
theorem Sound.reduces_simplified (hd : d.Sound) (steps : List Simplification) :
    Reduces d (d.simplified steps) := by
  induction steps generalizing d with
  | nil => exact .refl hd
  | cons step steps ih =>
    have hstep := hd.reduces_leaves step
    exact hstep.trans (ih hstep.right)

/-- If every handle of a draft that can be finished is placed once, then any simplifications in any
order leave one that can be finished as well, to a program with the same answers. To it the next
simplification applies without failing, but for chains of jumps that never end; and where
unreachable jumps are dropped, no turn looks at a place or a slot that is not there or takes a count
below zero. -/
theorem simplified_keeps_answers (hp : d.finish = .ok p) (hn : d.order.toList.Nodup)
    (steps : List Simplification) :
    (∃ e, Edit.skipNops.run (d.simplified steps) = .ok () e) ∧
    ((∃ e, Edit.shortcutJumps.run (d.simplified steps) = .ok () e) ∨
      ∃ e t, Edit.shortcutJumps.run (d.simplified steps) = .error (.jumpCycle t) e) ∧
    (∃ placed, (d.simplified steps).instructions = .ok placed ∧
      (∀ n, (Pruning.turn^[n] (.start placed)).Safe (d.simplified steps).slots) ∧
      Edit.dropDeadJumps.run (d.simplified steps) = .ok ()
        ((Pruning.turn^[(d.simplified steps).size - 1] (.start placed)).draft
          (d.simplified steps).slots)) ∧
    ∃ q, (d.simplified steps).finish = .ok q ∧ ∀ (s : Subject) (limit : Nat),
      (∀ start ≤ s.size,
        Machine.matchEnd ⟨q, s, limit⟩ start = Machine.matchEnd ⟨p, s, limit⟩ start ∧
        Machine.matchesAt ⟨q, s, limit⟩ start = Machine.matchesAt ⟨p, s, limit⟩ start) ∧
      ∀ first, Machine.find ⟨q, s, limit⟩ first = Machine.find ⟨p, s, limit⟩ first := by
  have hred := (Sound.of_finish hp hn).reduces_simplified steps
  obtain ⟨d₁, hskip, -⟩ := hred.right.skipNops_eq_ok
  obtain ⟨placed, hplaced⟩ := exists_lists fun _ => hred.right.allocated
  have hexact := Pruning.Exact.start hplaced
  obtain ⟨q, hq⟩ := hred.right.finish
  have hsame := (hred.sameAnswers hp hq).symm
  have hpruned := instructions_eq_ok_iff.2 hplaced
  refine ⟨⟨d₁, hskip⟩, ?_, ⟨placed, hpruned, fun n => (hexact.turns n).safe,
    dropDeadJumps_eq_turns hplaced⟩, q, hq, fun s limit => ⟨fun start hle =>
    ⟨(hsame s limit).1 start hle, hsame.matchesAt_eq s limit hle⟩, (hsame s limit).2⟩⟩
  rcases hred.right.shortcutJumps_cases with ⟨e, heq, -⟩ | ⟨e, t, heq, -⟩
  · exact .inl ⟨e, heq⟩
  · exact .inr ⟨e, t, heq⟩

/-- A draft with a chain of jumps, a `nop`, and a jump to itself that a `split` leads to. -/
def tangled : Draft where
  slots := #[.jump ⟨1⟩, .jump ⟨2⟩, .split ⟨3⟩ ⟨6⟩, .literal 'a', .nop, .accept, .jump ⟨6⟩]
  order := #[⟨0⟩, ⟨1⟩, ⟨2⟩, ⟨3⟩, ⟨4⟩, ⟨5⟩, ⟨6⟩]

/-- The first jump is led to the end of its chain before the edit fails at the `split`. -/
theorem simplified_keeps_answers_jumpCycle :
    ∃ p, tangled.finish = .ok p ∧ tangled.order.toList.Nodup ∧
      Edit.shortcutJumps.run tangled = .error (.jumpCycle ⟨6⟩)
        ⟨tangled.slots.setIfInBounds 0 (.jump ⟨2⟩), tangled.order⟩ ∧
      ∃ q, (tangled.simplified [.shortcutJumps, .dropDeadJumps, .skipNops]).finish = .ok q ∧
        ∀ (s : Subject) (limit : Nat),
          (∀ start ≤ s.size,
            Machine.matchEnd ⟨q, s, limit⟩ start = Machine.matchEnd ⟨p, s, limit⟩ start ∧
            Machine.matchesAt ⟨q, s, limit⟩ start = Machine.matchesAt ⟨p, s, limit⟩ start) ∧
          ∀ first, Machine.find ⟨q, s, limit⟩ first = Machine.find ⟨p, s, limit⟩ first := by
  have hn : tangled.order.toList.Nodup := by decide
  have hp : tangled.finish =
      .ok ⟨#[.jump 1, .jump 2, .split 3 6, .literal 'a', .nop, .accept, .jump 6]⟩ := by
    refine finish_of_nodup hn ?_ rfl rfl
    exact .cons ⟨_, rfl, .jump rfl⟩ (.cons ⟨_, rfl, .jump rfl⟩ (.cons ⟨_, rfl, .split rfl rfl⟩
      (.cons ⟨_, rfl, .literal 'a'⟩ (.cons ⟨_, rfl, .nop⟩ (.cons ⟨_, rfl, .accept⟩
        (.cons ⟨_, rfl, .jump rfl⟩ .nil))))))
  obtain ⟨-, -, -, hq⟩ :=
    simplified_keeps_answers hp hn [.shortcutJumps, .dropDeadJumps, .skipNops]
  exact ⟨_, hp, hn, rfl, hq⟩

end Draft

end PatternMachine
