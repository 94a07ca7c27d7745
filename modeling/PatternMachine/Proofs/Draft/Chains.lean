import PatternMachine.Proofs.Draft.Jumps

/-!
# Chains of jumps are cut short exactly

In a closed draft a chain of jumps either arrives at an instruction that is no jump
(`Draft.ArrivesAt`) or goes on for ever, and `Draft.destination` tells which, since a chain that
arrives has fewer jumps than there are placed instructions (`Closed.destination_cases`).
`Edit.shortcutJumps` follows chains through slots that it has rewritten in part. This does no harm:
where a target is replaced by the arrival of its chain, every chain arrives where it arrived before
(`Retargeted.arrivesAt_iff`). So every target is replaced by the arrival in the draft as it was, and
the edit stops at the first target that has none (`shortcutJumps_exact`).
-/

namespace PatternMachine.Draft

variable {d e : Draft} {t u v : Handle}

/-! ## Arrivals -/

/-- The chain of jumps from `t` has `n` jumps and then `u`, which is no jump. -/
inductive Arrives (d : Draft) : (n : Nat) → (t u : Handle) → Prop
  | here {t : Handle} {i : Instr Handle} : d.get? t = some i → i.isJump = false → Arrives d 0 t t
  | jump {n : Nat} {t g u : Handle} : d.get? t = some (.jump g) → Arrives d n g u →
    Arrives d (n + 1) t u

/-- The first instruction on the chain of jumps from `t` that is no jump is `u`. -/
def ArrivesAt (d : Draft) (t u : Handle) : Prop :=
  ∃ n, d.Arrives n t u

/-- A chain of jumps arrives at one instruction, after one number of jumps. -/
theorem Arrives.unique {n k : Nat} (hu : d.Arrives n t u) (hv : d.Arrives k t v) :
    n = k ∧ u = v := by
  induction hu generalizing k v with
  | here hi hjump =>
    cases hv with
    | here => exact ⟨rfl, rfl⟩
    | jump hi' =>
      cases hi.symm.trans hi'
      cases hjump
  | jump hi _ ih =>
    cases hv with
    | here hi' hjump =>
      cases hi.symm.trans hi'
      cases hjump
    | jump hi' hv =>
      cases hi.symm.trans hi'
      obtain ⟨rfl, rfl⟩ := ih hv
      exact ⟨rfl, rfl⟩

namespace ArrivesAt

/-- A chain of jumps arrives at one instruction only. -/
theorem unique (hu : d.ArrivesAt t u) (hv : d.ArrivesAt t v) : u = v := by
  obtain ⟨_, hu⟩ := hu
  obtain ⟨_, hv⟩ := hv
  exact (hu.unique hv).2

/-- A jump arrives where the instruction it leads to does. -/
theorem jump (hi : d.get? t = some (.jump u)) (hv : d.ArrivesAt u v) : d.ArrivesAt t v :=
  hv.elim fun n hv => ⟨n + 1, .jump hi hv⟩

/-- Where a chain arrives, there is an instruction other than a jump. -/
theorem exists_instr (h : d.ArrivesAt t u) : ∃ i, d.get? u = some i ∧ i.isJump = false := by
  obtain ⟨n, h⟩ := h
  induction h with
  | here hi hjump => exact ⟨_, hi, hjump⟩
  | jump _ _ ih => exact ih

/-- Where a chain arrives, it stays. -/
theorem self (h : d.ArrivesAt t u) : d.ArrivesAt u u := by
  obtain ⟨i, hi, hjump⟩ := h.exists_instr
  exact ⟨0, .here hi hjump⟩

/-- In a draft without loose ends, the chain from a placed instruction arrives at a placed one. -/
theorem mem (h : d.ArrivesAt t u) (hd : d.Closed) (ht : t ∈ d.order) : u ∈ d.order := by
  obtain ⟨n, h⟩ := h
  induction h with
  | here => exact ht
  | jump hi _ ih => exact ih (hd.placed ht hi _ (List.mem_singleton_self _))

end ArrivesAt

/-- A chain of jumps that has come to an instruction which is no jump has arrived. -/
theorem Chain.arrivesAt (h : d.Chain t u) {i : Instr Handle} (hi : d.get? u = some i)
    (hjump : i.isJump = false) : d.ArrivesAt t u := by
  induction h using Relation.ReflTransGen.head_induction_on with
  | refl => exact ⟨0, .here hi hjump⟩
  | head hi' _ ih => exact ih.jump hi'

/-! ## Following a chain -/

/-- A chain of jumps is followed to its end if there are more steps than jumps. -/
theorem Arrives.destination_eq {n steps : Nat} (h : d.Arrives n t u) (hn : n < steps)
    (start : Handle) : destination d.slots start steps t = .ok u := by
  induction h generalizing steps with
  | @here t i hi hjump =>
    obtain ⟨steps, rfl⟩ := Nat.exists_eq_add_of_lt hn
    rw [destination, show d.slots[t.index]? = some i from hi]
    cases i with
    | jump => cases hjump
    | literal | any | accept | split | nop => rfl
  | @jump n t g u hi _ ih =>
    cases steps with
    | zero => cases hn
    | succ steps =>
      rw [destination, show d.slots[t.index]? = some (.jump g) from hi]
      exact ih (Nat.lt_of_succ_lt_succ hn)

/-- A chain that arrives has fewer jumps than there are placed instructions. -/
theorem Closed.arrives_lt (hd : d.Closed) {n : Nat} (ht : t ∈ d.order) (h : d.Arrives n t u) :
    n < d.size := by
  have hpassed : ∀ k ≤ n, ∃ g ∈ d.order.toList, d.Arrives k g u := by
    induction h with
    | @here t i hi hjump =>
      intro k hk
      obtain rfl := Nat.le_zero.1 hk
      exact ⟨t, Array.mem_toList_iff.2 ht, .here hi hjump⟩
    | @jump n t g u hi h ih =>
      intro k hk
      rcases Nat.le_succ_iff.1 hk with hk | rfl
      · exact ih (hd.placed ht hi g (List.mem_singleton_self g)) k hk
      · exact ⟨t, Array.mem_toList_iff.2 ht, .jump hi h⟩
  rw [size, ← Array.length_toList]
  exact lt_length_of_ranks hpassed fun hk hm => (hk.unique hm).1

/-- Where the chain of jumps from `t` arrives within `steps` steps. -/
def follow (steps : Nat) (slots : Array (Instr Handle)) (t : Handle) : Except Fault Handle :=
  destination slots t steps t

/-- Following a chain with one step more than there are placed instructions finds its arrival, and
says that it never ends if it has none. -/
theorem Closed.destination_cases (hd : d.Closed) (ht : t ∈ d.order) :
    (∃ u, d.ArrivesAt t u ∧ follow (d.size + 1) d.slots t = .ok u) ∨
    (∀ u, ¬ d.ArrivesAt t u) ∧ follow (d.size + 1) d.slots t = .error (.jumpCycle t) := by
  unfold follow
  cases h : destination d.slots t (d.size + 1) t with
  | ok u =>
    obtain ⟨hchain, i, hi, hjump⟩ := destination_eq_ok h
    exact .inl ⟨u, hchain.arrivesAt hi hjump, rfl⟩
  | error fault =>
    refine .inr ⟨fun u hu => ?_, by rw [hd.destination_eq_error ht h]⟩
    obtain ⟨n, hu⟩ := hu
    rw [hu.destination_eq (Nat.lt_succ_of_lt (hd.arrives_lt ht hu))] at h
    cases h

/-! ## Replacing targets by arrivals -/

/-- `u` is `t` or the arrival of its chain. -/
def Shortcut (d : Draft) (t u : Handle) : Prop :=
  t = u ∨ d.ArrivesAt t u

namespace Shortcut

/-- One shortcut behind another is a shortcut: an arrival has arrived. -/
theorem trans (htu : d.Shortcut t u) (huv : d.Shortcut u v) : d.Shortcut t v := by
  rcases htu with rfl | htu
  · exact huv
  · rcases huv with rfl | huv
    · exact .inr htu
    · exact .inr (htu.self.unique huv ▸ htu)

/-- A chain arrives where its shortcut does. -/
theorem arrivesAt_iff (htu : d.Shortcut t u) : d.ArrivesAt t v ↔ d.ArrivesAt u v := by
  rcases htu with rfl | htu
  · exact Iff.rfl
  · refine ⟨fun hv => ?_, fun hv => ?_⟩
    · exact htu.unique hv ▸ htu.self
    · exact htu.self.unique hv ▸ htu

/-- A shortcut from a placed instruction leads to a placed one. -/
theorem mem (htu : d.Shortcut t u) (hd : d.Closed) (ht : t ∈ d.order) : u ∈ d.order := by
  rcases htu with rfl | htu
  · exact ht
  · exact htu.mem hd ht

end Shortcut

namespace Retargeted

/-- If some targets are replaced by the arrivals of their chains, all chains arrive where they
arrived before. -/
theorem arrivesAt_iff (h : Retargeted d.Shortcut d e) : e.ArrivesAt t u ↔ d.ArrivesAt t u := by
  refine ⟨?_, ?_⟩
  · rintro ⟨n, hu⟩
    induction hu with
    | here hj hjump =>
      obtain ⟨i, hi, hij⟩ := h.exists_left hj
      exact ⟨0, .here hi (hij.isJump_eq.symm.trans hjump)⟩
    | jump hj _ ih =>
      obtain ⟨i, hi, hij⟩ := h.exists_left hj
      cases hij with
      | jump hg => exact .jump hi (hg.arrivesAt_iff.2 ih)
  · rintro ⟨n, hu⟩
    induction hu with
    | here hi hjump =>
      obtain ⟨j, hj, hij⟩ := h.exists_right hi
      exact ⟨0, .here hj (hij.isJump_eq.trans hjump)⟩
    | @jump n t g u hi hg ih =>
      obtain ⟨j, hj, hij⟩ := h.exists_right hi
      cases hij with
      | jump hshort =>
        rcases hshort with rfl | hshort
        · exact .jump hj ih
        -- The jump has been led to the arrival already.
        · obtain rfl := hshort.unique ⟨n, hg⟩
          exact .jump hj ih.self

/-- Targets may be replaced by shortcuts without making loose ends. -/
theorem closed_of_shortcut (h : Retargeted d.Shortcut d e) (hd : d.Closed) : e.Closed :=
  hd.retargeted (h.mono fun _ _ htu => htu.mem hd)

end Retargeted

/-! ## Cutting chains short -/

/-- `h` is the first target whose chain of jumps never arrives. -/
def FirstEndless (d : Draft) (h : Handle) : Prop :=
  ∃ before after, d.edges = before ++ h :: after ∧ (∀ t ∈ before, ∃ u, d.ArrivesAt t u) ∧
    ∀ u, ¬ d.ArrivesAt h u

/-- There is only one first target without an arrival. -/
theorem FirstEndless.unique {h g : Handle} (hh : d.FirstEndless h) (hg : d.FirstEndless g) :
    h = g := by
  obtain ⟨before, after, hsplit, hbefore, hend⟩ := hh
  obtain ⟨before', after', hsplit', hbefore', hend'⟩ := hg
  rcases List.append_eq_append_iff.1 (hsplit.symm.trans hsplit') with
    ⟨between, hb, ha⟩ | ⟨between, hb, ha⟩
  · cases between with
    | nil => exact (List.cons.inj ha).1
    | cons x between =>
      obtain ⟨u, hu⟩ := hbefore' h (by simp [hb, (List.cons.inj ha).1])
      exact absurd hu (hend u)
  · cases between with
    | nil => exact (List.cons.inj ha).1.symm
    | cons x between =>
      obtain ⟨u, hu⟩ := hbefore g (by simp [hb, (List.cons.inj ha).1])
      exact absurd hu (hend' u)

/-- `e` is `d` with every target of a placed instruction replaced by the arrival of its chain, and
nothing else changed. -/
structure CutShort (d e : Draft) : Prop where
  order_eq : e.order = d.order
  size_eq : e.slots.size = d.slots.size
  placed : ∀ {h : Handle} {i : Instr Handle}, h ∈ d.order → d.get? h = some i →
    ∃ j, e.get? h = some j ∧ i.Rel d.ArrivesAt j
  unplaced : ∀ {h : Handle}, h ∉ d.order → e.get? h = d.get? h

/-- What holds when the targets in the slots `hs` are still to be replaced. -/
structure CuttingShort (d : Draft) (hs : List Handle) (slots : Array (Instr Handle)) : Prop where
  retargeting : Retargeting d d.Shortcut (fun u => d.ArrivesAt u u) hs slots
  size_eq : slots.size = d.slots.size
  unplaced : ∀ {h : Handle}, h ∉ d.order → get? ⟨slots, d.order⟩ h = d.get? h
  done : ∃ earlier, d.order.toList = earlier ++ hs ∧
    ∀ t ∈ earlier.flatMap d.targetsAt, ∃ u, d.ArrivesAt t u

/-- What stands before an element of a related list is related to what stands before its
relative. -/
theorem exists_split_of_forall₂ {α β : Type} {R : α → β → Prop} {l : List α} {before after : List β}
    {b : β} (h : List.Forall₂ R l (before ++ b :: after)) : ∃ before' a after',
      l = before' ++ a :: after' ∧ (∀ x ∈ before', ∃ y ∈ before, R x y) ∧ R a b := by
  induction before generalizing l with
  | nil =>
    obtain ⟨a, after', hab, -, rfl⟩ := List.forall₂_cons_right_iff.1 h
    exact ⟨[], a, after', rfl, by simp, hab⟩
  | cons y before ih =>
    obtain ⟨x, l, hxy, hl, rfl⟩ := List.forall₂_cons_right_iff.1 h
    obtain ⟨before', a, after', rfl, hbefore, hab⟩ := ih hl
    refine ⟨x :: before', a, after', rfl, List.forall_mem_cons.2 ⟨?_, fun x' hx' => ?_⟩, hab⟩
    · exact ⟨y, List.mem_cons_self, hxy⟩
    · exact (hbefore x' hx').imp fun _ hyp => hyp.imp_left (List.mem_cons_of_mem y)

/-- What is found in slots that are rewritten in part is the arrival in the draft as it was. -/
theorem Retargeted.arrivesAt_of_follow (h : Retargeted d.Shortcut d e) {steps : Nat}
    (heq : follow steps e.slots t = .ok u) : d.ArrivesAt t u := by
  obtain ⟨hchain, i, hi, hjump⟩ := destination_eq_ok heq
  exact h.arrivesAt_iff.1 (hchain.arrivesAt hi hjump)

namespace CuttingShort

variable {x : Handle} {hs : List Handle} {slots : Array (Instr Handle)} {i j : Instr Handle}

/-- Before any target has been replaced, the slots are those of the draft. -/
theorem start (d : Draft) : CuttingShort d d.order.toList d.slots where
  retargeting := ⟨.refl (fun _ => .inl rfl) d, fun _ => Array.mem_toList_iff.1,
    fun hx hx' => absurd (Array.mem_toList_iff.2 hx) hx'⟩
  size_eq := rfl
  unplaced _ := rfl
  done := ⟨[], rfl, by simp⟩

/-- The instruction in a slot is the one that was there, up to targets that were replaced. -/
theorem exists_instr (h : CuttingShort d (x :: hs) slots) (hi : slots[x.index]? = some i) :
    ∃ i₀ : Instr Handle, d.targetsAt x = i₀.targets ∧ i₀.Rel d.Shortcut i := by
  obtain ⟨i₀, hi₀, hrel⟩ := h.retargeting.retargeted.exists_left hi
  exact ⟨i₀, targetsAt_eq hi₀, hrel⟩

/-- Replacing the targets in the next slot by their arrivals leaves the later slots to be done. -/
theorem step (h : CuttingShort d (x :: hs) slots) (hi : slots[x.index]? = some i)
    (hj : i.traverse (follow (d.size + 1) slots) = .ok j) :
    CuttingShort d hs (slots.setIfInBounds x.index j) where
  retargeting := by
    have hkind : ∀ e, Retargeted d.Shortcut d e → ∀ x ∈ d.order, ∀ i, e.get? x = some i →
        ∀ t ∈ i.targets, ∀ u, follow (d.size + 1) e.slots t = .ok u →
          d.Shortcut t u ∧ d.ArrivesAt u u := by
      intro e he _ _ _ _ t _ u hu
      have harrive := he.arrivesAt_of_follow hu
      exact ⟨.inr harrive, harrive.self⟩
    exact h.retargeting.step (R := d.Shortcut) Shortcut.trans hkind hi hj
  size_eq := by rw [Array.size_setIfInBounds, h.size_eq]
  unplaced {y} hy := by
    have hne : y ≠ x := fun heq => hy (heq ▸ h.retargeting.placed x List.mem_cons_self)
    rw [get?_set hi, if_neg hne, h.unplaced hy]
  done := by
    obtain ⟨earlier, hsplit, hearlier⟩ := h.done
    obtain ⟨i₀, htargets, hrel⟩ := h.exists_instr hi
    refine ⟨earlier ++ [x], by simp [hsplit], ?_⟩
    rw [List.flatMap_append, List.flatMap_singleton, htargets]
    refine List.forall_mem_append.2 ⟨hearlier, fun t ht => ?_⟩
    obtain ⟨t', ht', hshort⟩ := hrel.exists_mem_right ht
    obtain ⟨u, -, hu⟩ := (Instr.traverse_eq_ok_iff.1 hj).exists_mem_right ht'
    exact ⟨u, hshort.arrivesAt_iff.2 (h.retargeting.retargeted.arrivesAt_of_follow hu)⟩

/-- Once all targets are replaced, all chains are cut short. -/
theorem cutShort (h : CuttingShort d [] slots) : CutShort d ⟨slots, d.order⟩ where
  order_eq := rfl
  size_eq := h.size_eq
  placed hx hi := by
    obtain ⟨j, hj, hij⟩ := h.retargeting.retargeted.exists_right hi
    refine ⟨j, hj, ?_⟩
    have harrived := hij.and_right (h.retargeting.targets hx List.not_mem_nil hj)
    exact harrived.mono fun t _ u hu => hu.1.arrivesAt_iff.2 hu.2
  unplaced hx := h.unplaced hx

/-- Where the edit stops, it has found the first target without an arrival. -/
theorem firstEndless (h : CuttingShort d (x :: hs) slots) (hd : d.Closed) {fault : Fault}
    (hi : slots[x.index]? = some i)
    (hfault : i.traverse (follow (d.size + 1) slots) = .error fault) :
    ∃ t, fault = .jumpCycle t ∧ d.FirstEndless t := by
  obtain ⟨earlier, hsplit, hearlier⟩ := h.done
  obtain ⟨i₀, htargets, hrel⟩ := h.exists_instr hi
  obtain ⟨before, t, after, hbefore, hok, herror⟩ := Instr.first_of_traverse_eq_error hfault
  have hret := h.retargeting.retargeted
  have ht : t ∈ d.order := by
    refine (hret.closed_of_shortcut hd).placed (h.retargeting.placed x List.mem_cons_self) hi t ?_
    simp [hbefore]
  rcases (hret.closed_of_shortcut hd).destination_cases ht with ⟨u, -, hu⟩ | ⟨hend, hcycle⟩
  · cases hu.symm.trans herror
  · refine ⟨t, Except.error.inj (herror.symm.trans hcycle), ?_⟩
    obtain ⟨before₀, t₀, after₀, hbefore₀, hrel₀, hshort⟩ :=
      exists_split_of_forall₂ (hbefore ▸ hrel.targets)
    have hend : ∀ u, ¬ d.ArrivesAt t u := fun u hu => hend u (hret.arrivesAt_iff.2 hu)
    -- The target has not been replaced, since a replaced one has an arrival.
    obtain rfl : t₀ = t := hshort.resolve_right fun harrive => hend t harrive.self
    refine ⟨earlier.flatMap d.targetsAt ++ before₀, after₀ ++ hs.flatMap d.targetsAt, ?_,
      List.forall_mem_append.2 ⟨hearlier, fun s hs => ?_⟩, hend⟩
    · rw [edges, hsplit, List.flatMap_append, List.flatMap_cons, htargets, hbefore₀]
      simp
    · obtain ⟨v, hv, hsv⟩ := hrel₀ s hs
      obtain ⟨u, hu⟩ := hok v hv
      exact ⟨u, hsv.arrivesAt_iff.2 (hret.arrivesAt_of_follow hu)⟩

end CuttingShort

/-- Chains of jumps are cut short, or the edit stops at the first target without an arrival. -/
theorem Closed.shortcutJumps_cases (hd : d.Closed) :
    (∃ e, Edit.shortcutJumps.run d = .ok () e ∧ d.CutShort e ∧ ∀ h, ¬ d.FirstEndless h) ∨
    ∃ e h, Edit.shortcutJumps.run d = .error (.jumpCycle h) e ∧ d.FirstEndless h := by
  rcases retargetSlots_cases (motive := CuttingShort d)
    (fun _ _ _ _ _ h hi hj => h.step hi hj) _ _ (CuttingShort.start d) with
    ⟨slots, heq, h⟩ | ⟨slots, fault, x, later, heq, h, hfault⟩
  · have hrun : Edit.shortcutJumps.run d = .ok () ⟨slots, d.order⟩ := by
      show Edit.retarget (follow (d.size + 1)) d = _
      simp only [Edit.retarget, heq]
    refine .inl ⟨_, hrun, h.cutShort, ?_⟩
    rintro g ⟨before, after, hedges, -, hend⟩
    obtain ⟨earlier, hsplit, hearlier⟩ := h.done
    rw [List.append_nil] at hsplit
    rw [← hsplit, show d.order.toList.flatMap d.targetsAt = _ from hedges] at hearlier
    obtain ⟨u, hu⟩ := hearlier g (by simp)
    exact hend u hu
  · have hrun : Edit.shortcutJumps.run d = .error fault ⟨slots, d.order⟩ := by
      show Edit.retarget (follow (d.size + 1)) d = _
      simp only [Edit.retarget, heq]
    rcases hfault with ⟨hnone, -⟩ | ⟨i, hi, hfault⟩
    · obtain ⟨i, hi⟩ := hd.allocated (h.retargeting.placed x List.mem_cons_self)
      obtain ⟨j, hj, -⟩ := h.retargeting.retargeted.exists_right hi
      cases hnone.symm.trans hj
    · obtain ⟨t, rfl, hfirst⟩ := h.firstEndless hd hi hfault
      exact .inr ⟨_, t, hrun, hfirst⟩

/-- In a draft whose placed instructions have slots and lead to placed instructions, duplicates
allowed, cutting chains of jumps short fails with a cycle exactly if some target has no arrival, and
names the first such target. Otherwise it succeeds, and puts for every target the first instruction
that is no jump on its chain in the draft as it was, and changes nothing else. So no chain that
arrives is taken for a cycle, however long it is. -/
theorem shortcutJumps_exact (hd : d.Closed) :
    (∀ h, (∃ e, Edit.shortcutJumps.run d = .error (.jumpCycle h) e) ↔ d.FirstEndless h) ∧
    ((∀ h, ¬ d.FirstEndless h) → ∃ e, Edit.shortcutJumps.run d = .ok () e ∧ d.CutShort e) := by
  rcases hd.shortcutJumps_cases with ⟨e, hrun, hcut, hnone⟩ | ⟨e, g, hrun, hfirst⟩
  · refine ⟨fun h => ⟨?_, fun hfirst => absurd hfirst (hnone h)⟩, fun _ => ⟨e, hrun, hcut⟩⟩
    rintro ⟨e', herror⟩
    cases hrun.symm.trans herror
  · refine ⟨fun h => ⟨?_, fun hfirst' => ?_⟩, fun hnone => absurd hfirst (hnone g)⟩
    · rintro ⟨e', herror⟩
      cases hrun.symm.trans herror
      exact hfirst
    · exact ⟨e, hfirst.unique hfirst' ▸ hrun⟩

/-- A draft with a chain of all jumps but one, which is in a slot that is not placed and leads to
itself. The first jump of the chain is placed twice. -/
def relay : Draft where
  slots := #[.jump ⟨1⟩, .jump ⟨2⟩, .jump ⟨3⟩, .split ⟨0⟩ ⟨4⟩, .accept, .jump ⟨5⟩]
  order := #[⟨0⟩, ⟨1⟩, ⟨2⟩, ⟨0⟩, ⟨3⟩, ⟨4⟩]

/-- A draft with two jumps that lead to each other, behind an edge that arrives. -/
def circle : Draft where
  slots := #[.split ⟨3⟩ ⟨2⟩, .jump ⟨2⟩, .jump ⟨1⟩, .accept]
  order := #[⟨0⟩, ⟨1⟩, ⟨2⟩, ⟨3⟩]

/-- In `relay` all three jumps and the first way of the `split` are led to the `split` itself, and
the jump that is not placed is left alone. In `circle` the second way of the `split` is the first
target without an arrival. -/
theorem shortcutJumps_exact_relay :
    relay.Closed ∧ (∃ e, Edit.shortcutJumps.run relay = .ok () e ∧ relay.CutShort e ∧
      e.slots = #[.jump ⟨3⟩, .jump ⟨3⟩, .jump ⟨3⟩, .split ⟨3⟩ ⟨4⟩, .accept, .jump ⟨5⟩]) ∧
    circle.Closed ∧ circle.FirstEndless ⟨2⟩ := by
  have hrelay : relay.Closed := by decide
  have hcircle : circle.Closed := by decide
  have hrun : Edit.shortcutJumps.run relay = .ok () ⟨#[.jump ⟨3⟩, .jump ⟨3⟩, .jump ⟨3⟩,
      .split ⟨3⟩ ⟨4⟩, .accept, .jump ⟨5⟩], relay.order⟩ := rfl
  have herror : Edit.shortcutJumps.run circle = .error (.jumpCycle ⟨2⟩) circle := rfl
  obtain ⟨hcycle, hcut⟩ := shortcutJumps_exact hrelay
  refine ⟨hrelay, ?_, hcircle, ((shortcutJumps_exact hcircle).1 ⟨2⟩).1 ⟨circle, herror⟩⟩
  obtain ⟨e, he, hshort⟩ := hcut fun h hfirst => by
    obtain ⟨e, he⟩ := (hcycle h).2 hfirst
    cases hrun.symm.trans he
  cases hrun.symm.trans he
  exact ⟨_, he, hshort, rfl⟩

end PatternMachine.Draft
