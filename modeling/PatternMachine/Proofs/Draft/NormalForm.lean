import Mathlib.Data.List.Chain
import PatternMachine.Proofs.Draft.Shorten

/-!
# Shortened drafts are in normal form

Each simplification reaches what it aims at and keeps what those before it have reached. Once
`nop`s are skipped, none is placed and every edge leads to a placed instruction (`Draft.NopFree`).
Once chains of jumps are cut short, no edge leads to a jump any more (`Draft.Direct`). Then no jump
is a target, so that `Edit.dropDeadJumps` leaves no two of them next to each other (`Draft.Short`);
without the second step it could free a jump that it has passed already. On a draft that is short
the simplifications change nothing.

Nothing is assumed of the draft but that they succeed. In particular a handle may be placed more
than once.
-/

namespace PatternMachine.Draft

variable {d e : Draft} {placed : List (Handle × Instr Handle)}

/-- Every placed instruction has a slot and is no `nop`, and every edge leads to one of them. -/
structure NopFree (d : Draft) : Prop where
  allocated : ∀ {h : Handle}, h ∈ d.order → ∃ i, d.get? h = some i
  not_nop : ∀ {h : Handle} {i : Instr Handle}, h ∈ d.order → d.get? h = some i → i.isNop = false
  placed : ∀ {h : Handle} {i : Instr Handle}, h ∈ d.order → d.get? h = some i →
    ∀ t ∈ i.targets, t ∈ d.order

/-- Moreover no edge leads to a jump. -/
structure Direct (d : Draft) : Prop extends NopFree d where
  not_jump : ∀ {h t : Handle} {i j : Instr Handle}, h ∈ d.order → d.get? h = some i →
    t ∈ i.targets → d.get? t = some j → j.isJump = false

/-- Moreover no jump follows another one. -/
structure Short (d : Draft) : Prop extends Direct d where
  apart : ∀ {h g : Handle} {i j : Instr Handle}, d.Next h g → d.get? h = some i →
    d.get? g = some j → i.isJump = true → j.isJump = false

/-! ## Without `nop`s -/

/-- What is placed without the `nop`s are the handles of other instructions. -/
theorem mem_order_dropNops {h : Handle} :
    h ∈ d.dropNops.order ↔ h ∈ d.order ∧ ∀ i, d.get? h = some i → i.isNop = false := by
  rw [dropNops, Array.mem_filter]
  refine and_congr_right fun _ => ?_
  cases hi : d.get? h with
  | none => simp
  | some i => simp

/-- Where an edge comes to rest, something else than a `nop` is placed. -/
theorem mem_landings {l : List (Handle × Instr Handle)} {g : Handle} (h : some g ∈ landings l) :
    ∃ i, (g, i) ∈ l ∧ i.isNop = false := by
  induction l with
  | nil => cases h
  | cons p l ih =>
    obtain ⟨x, i⟩ := p
    have hlater : some g ∈ landings l → ∃ i', (g, i') ∈ (x, i) :: l ∧ i'.isNop = false :=
      fun hmem => (ih hmem).imp fun _ hyp => hyp.imp_left (List.mem_cons_of_mem _)
    rw [landings, List.mem_cons] at h
    rcases h with h | h
    · split at h
      · exact hlater (List.mem_of_head? (Option.join_eq_some_iff.1 h.symm))
      · rename_i hnop
        cases h
        exact ⟨i, List.mem_cons_self, Bool.eq_false_iff.2 hnop⟩
    · exact hlater h

/-- Edges are led to placed instructions other than `nop`s. -/
theorem Lists.of_redirect (hp : d.Lists placed) {t u : Handle}
    (h : redirect (landingTable placed) t = .ok u) :
    u ∈ d.order ∧ ∃ i, d.get? u = some i ∧ i.isNop = false := by
  have hu : (landingTable placed)[t]? = some (some u) := by
    rw [redirect] at h
    split at h <;> cases h
    assumption
  obtain ⟨⟨p, o⟩, hmem, -, rfl⟩ := exists_of_table
    (fun a : (Handle × Instr Handle) × Option Handle => a.1.1) (fun a => a.2) hu
  obtain ⟨i, hmem, hnop⟩ := mem_landings (List.of_mem_zip hmem).2
  exact ⟨hp.mem_iff.2 ⟨_, hmem, rfl⟩, i, hp.instr _ hmem, hnop⟩

/-- Once `nop`s are skipped, the draft is without them. -/
theorem nopFree_of_skipNops (h : Edit.skipNops.run d = .ok () e) : e.NopFree := by
  obtain ⟨placed, d', hp, heq, rfl⟩ := skipNops_eq_ok_iff.1 h
  rcases retarget_cases (d := d) (fun _ => redirect (landingTable placed)) (fun _ _ => True)
    (fun u => u ∈ d.order ∧ ∃ i, d.get? u = some i ∧ i.isNop = false) (fun _ => trivial)
    (fun _ _ => trivial) (fun _ _ _ _ _ _ _ _ _ hu => ⟨trivial, hp.of_redirect hu⟩) with
    ⟨e', heq', hret, hkind⟩ | ⟨e', fault, heq', -⟩
  · cases heq.symm.trans heq'
    refine ⟨fun hx => ?_, fun hx => (mem_order_dropNops.1 hx).2 _, fun hx hi t ht => ?_⟩
    · obtain ⟨p, hmem, rfl⟩ := hp.mem_iff.1 (hret.order_eq ▸ (mem_order_dropNops.1 hx).1)
      obtain ⟨j, hj, -⟩ := hret.exists_right (hp.instr p hmem)
      exact ⟨j, hj⟩
    · obtain ⟨ht, i₀, hi₀, hnop⟩ := hkind (mem_order_dropNops.1 hx).1 hi t ht
      refine mem_order_dropNops.2 ⟨hret.order_eq ▸ ht, fun j hj => ?_⟩
      obtain ⟨i₁, hi₁, hij⟩ := hret.exists_left hj
      cases hi₀.symm.trans hi₁
      exact hij.isNop_eq.trans hnop
  · cases heq.symm.trans heq'

/-- Without `nop`s every instruction is its own landing. -/
theorem landings_eq {l : List (Handle × Instr Handle)} (h : ∀ p ∈ l, p.2.isNop = false) :
    List.Forall₂ (fun p o => ∃ g, o = some g ∧ p.1 = g) l (landings l) := by
  induction l with
  | nil => exact .nil
  | cons p l ih =>
    have hp := h p List.mem_cons_self
    have hrest := ih fun q hq => h q (List.mem_cons_of_mem p hq)
    rw [landings, hp]
    exact .cons ⟨p.1, rfl, rfl⟩ hrest

/-- In a draft without `nop`s there is nothing to skip. -/
theorem NopFree.skipNops_eq (hd : d.NopFree) : Edit.skipNops.run d = .ok () d := by
  obtain ⟨placed, hp⟩ := exists_lists fun _ => hd.allocated
  have hnop : ∀ p ∈ placed, p.2.isNop = false :=
    fun p hmem => hd.not_nop (hp.mem_iff.2 ⟨p, hmem, rfl⟩) (hp.instr p hmem)
  refine skipNops_eq_ok_iff.2 ⟨placed, d, hp, retarget_eq_self fun x hx => ?_, ?_⟩
  · obtain ⟨i, hi⟩ := hd.allocated hx
    refine ⟨i, hi, fun t ht => ?_⟩
    obtain ⟨u, hu, rfl⟩ := redirect_of_landings (R := fun t u => t = u) (landings_eq hnop)
      (hp.mem_iff.1 (hd.placed hx hi t ht))
    exact hu
  · rw [dropNops, Array.filter_eq_self.2]
    intro x hx
    obtain ⟨i, hi⟩ := hd.allocated hx
    rw [hi, Option.any_some, hd.not_nop hx hi]
    rfl

/-! ## Without edges to jumps -/

/-- Without `nop`s there are no loose ends either. -/
theorem NopFree.closed (hd : d.NopFree) : d.Closed :=
  ⟨hd.allocated, hd.placed⟩

/-- Targets may be replaced by placed ones without bringing in a `nop`. -/
theorem NopFree.retargeted (hd : d.NopFree)
    (h : Retargeted (fun t u => t ∈ d.order → u ∈ d.order) d e) : e.NopFree where
  allocated := (hd.closed.retargeted h).allocated
  not_nop hx hj := by
    obtain ⟨i, hi, hij⟩ := h.exists_left hj
    exact hij.isNop_eq.trans (hd.not_nop (h.order_eq ▸ hx) hi)
  placed := (hd.closed.retargeted h).placed

/-- Once chains of jumps are cut short, no edge leads to a jump. -/
theorem NopFree.direct (hd : d.NopFree) (h : Edit.shortcutJumps.run d = .ok () e) : e.Direct := by
  have hkind : ∀ e, Retargeted (fun t u => t ∈ d.order → u ∈ d.order) d e → ∀ x ∈ d.order, ∀ i,
      e.get? x = some i → ∀ t ∈ i.targets, ∀ u, destination e.slots t (d.size + 1) t = .ok u →
        (t ∈ d.order → u ∈ d.order) ∧ ∀ j, d.get? u = some j → j.isJump = false := by
    intro e hret _ _ _ _ t _ u hu
    -- The chain was followed through slots that are rewritten in part; they are free of `nop`s too.
    obtain ⟨hchain, j', hj', hjump⟩ := destination_eq_ok hu
    refine ⟨fun ht => ?_, fun j hj => ?_⟩
    · rw [← hret.order_eq] at ht ⊢
      exact (hd.closed.retargeted hret).mem_of_chain hchain ht
    · obtain ⟨j'', hj'', hij⟩ := hret.exists_right hj
      cases hj'.symm.trans hj''
      exact hij.isJump_eq.symm.trans hjump
  rcases retarget_cases (fun slots t => destination slots t (d.size + 1) t)
    (fun t u => t ∈ d.order → u ∈ d.order) (fun u => ∀ j, d.get? u = some j → j.isJump = false)
    (fun _ => id) (fun h h' => h' ∘ h) hkind with
    ⟨e', heq, hret, hjump⟩ | ⟨e', fault, heq, -⟩
  · cases heq.symm.trans h
    refine { hd.retargeted hret with not_jump := fun hx hi ht hj => ?_ }
    obtain ⟨j₀, hj₀, hij⟩ := hret.exists_left hj
    exact hij.isJump_eq.trans (hjump hx hi _ ht j₀ hj₀)
  · cases heq.symm.trans h

/-- Where no edge leads to a jump, there is no chain to cut short. -/
theorem Direct.shortcutJumps_eq (hd : d.Direct) : Edit.shortcutJumps.run d = .ok () d := by
  refine retarget_eq_self fun x hx => ?_
  obtain ⟨i, hi⟩ := hd.allocated hx
  refine ⟨i, hi, fun t ht => ?_⟩
  obtain ⟨j, hj⟩ := hd.allocated (hd.placed hx hi t ht)
  have hjump := hd.not_jump hx hi ht hj
  rw [destination, show d.slots[t.index]? = some j from hj]
  cases j with
  | jump => cases hjump
  | literal | any | accept | split | nop => rfl

/-! ## Without jumps behind jumps -/

/-- Of two instructions next to each other at most one is a jump. -/
def Apart (p q : Handle × Instr Handle) : Prop :=
  p.2.isJump = true → q.2.isJump = false

/-- Nothing is added and nothing changes its place. -/
theorem sublist_dropDead (counts : Std.HashMap Handle Nat)
    (after before : List (Handle × Instr Handle)) :
    (dropDead counts after before).Sublist (before.reverse ++ after) := by
  fun_induction dropDead counts after before with
  | case1 counts after p q rest _ ih =>
    rw [List.reverse_cons, List.append_assoc]
    exact ih.trans ((List.Sublist.refl _).append (List.sublist_cons_self p after))
  | case2 counts after p q rest _ ih =>
    rw [List.reverse_cons, List.append_assoc]
    exact ih
  | case3 => exact .refl _
  | case4 => exact .refl _

/-- All that is no jump stays. -/
theorem mem_dropDead {counts : Std.HashMap Handle Nat}
    {after before : List (Handle × Instr Handle)} {p : Handle × Instr Handle}
    (hp : p ∈ before.reverse ++ after) (hjump : p.2.isJump = false) :
    p ∈ dropDead counts after before := by
  fun_induction dropDead counts after before with
  | case1 counts after r q rest hdrop ih =>
    have hne : p ≠ r := by
      rintro rfl
      rw [hjump] at hdrop
      cases hdrop
    exact ih (by simpa [hne] using hp)
  | case2 counts after r q rest _ ih => exact ih (by simpa using hp)
  | case3 counts after r => simpa using hp
  | case4 counts after => simpa using hp

/-- If no jump is a target, then what is left has no jumps next to each other. -/
theorem isChain_dropDead {counts : Std.HashMap Handle Nat}
    {after before : List (Handle × Instr Handle)}
    (hzero : ∀ p ∈ before, p.2.isJump = true → counts.getD p.1 0 = 0)
    (hchain : (before.take 1 ++ after).IsChain Apart) :
    (dropDead counts after before).IsChain Apart := by
  fun_induction dropDead counts after before with
  | case1 counts after p q rest hdrop ih =>
    simp only [Bool.and_eq_true] at hdrop
    -- `p` was a jump itself, so `after` does not begin with one and `q` may stand in front of it.
    obtain ⟨hp, hafter⟩ := List.isChain_cons.1 hchain
    refine ih (fun r hr hjump => ?_) (List.isChain_cons.2 ⟨fun r hr _ => hp r hr hdrop.1.1, hafter⟩)
    rw [getD_release, hzero r (List.mem_cons_of_mem p hr) hjump, Nat.zero_sub]
  | case2 counts after p q rest hkeep ih =>
    have hqp : Apart q p := by
      -- Nothing refers to `p`, so it can only have been kept because one of the two is no jump.
      refine fun hq => Bool.eq_false_iff.2 fun hp => hkeep ?_
      rw [hp, hq, hzero p List.mem_cons_self hp]
      rfl
    exact ih (fun r hr => hzero r (List.mem_cons_of_mem p hr)) (.cons_cons hqp hchain)
  | case3 counts after p => exact hchain
  | case4 counts after => exact hchain

/-- Where no jumps are next to each other, none is dropped. -/
theorem dropDead_eq {counts : Std.HashMap Handle Nat}
    {after before : List (Handle × Instr Handle)} (h : (before.reverse ++ after).IsChain Apart) :
    dropDead counts after before = before.reverse ++ after := by
  fun_induction dropDead counts after before with
  | case1 counts after p q rest hdrop ih =>
    simp only [Bool.and_eq_true] at hdrop
    have hchain : (rest.reverse ++ q :: p :: after).IsChain Apart := by simpa using h
    have hp := (List.isChain_append_cons_cons.1 hchain).2.1 hdrop.1.2
    rw [hdrop.1.1] at hp
    cases hp
  | case2 counts after p q rest _ ih =>
    rw [List.reverse_cons, List.append_assoc] at h ⊢
    exact ih h
  | case3 counts after p => rfl
  | case4 counts after => rfl

/-- The listed instructions are apart if no jump is placed behind another one. -/
theorem Lists.isChain_iff (hp : d.Lists placed) : placed.IsChain Apart ↔
    ∀ {h g : Handle} {i j : Instr Handle}, d.Next h g → d.get? h = some i → d.get? g = some j →
      i.isJump = true → j.isJump = false := by
  refine ⟨fun hchain h g i j hnext hi hj => ?_, fun hapart => ?_⟩
  · obtain ⟨k, hk, hk'⟩ := hnext
    rw [← Array.getElem?_toList, ← hp.handles, List.getElem?_map, Option.map_eq_some_iff] at hk hk'
    obtain ⟨p, hk, rfl⟩ := hk
    obtain ⟨q, hk', rfl⟩ := hk'
    cases (hp.instr p (List.mem_of_getElem? hk)).symm.trans hi
    cases (hp.instr q (List.mem_of_getElem? hk')).symm.trans hj
    obtain ⟨hlt, rfl⟩ := List.getElem?_eq_some_iff.1 hk
    obtain ⟨hlt', rfl⟩ := List.getElem?_eq_some_iff.1 hk'
    exact List.isChain_iff_getElem.1 hchain k hlt'
  · refine List.isChain_iff_forall_rel_of_append_cons_cons.2 fun p q before after hsplit => ?_
    have hmem : p ∈ placed ∧ q ∈ placed := by simp [hsplit]
    exact hapart (hp.next hsplit.symm) (hp.instr p hmem.1) (hp.instr q hmem.2)

/-- Without some of its jumps a draft still has no edge to a jump. -/
theorem Direct.of_sublist {kept : List (Handle × Instr Handle)} (hd : d.Direct)
    (hp : d.Lists placed) (hsub : kept.Sublist placed)
    (hall : ∀ p ∈ placed, p.2.isJump = false → p ∈ kept) : (listed d.slots kept).Direct := by
  have hkept := hp.of_sublist hsub
  have hmem : ∀ {x}, x ∈ (listed d.slots kept).order → x ∈ d.order := by
    intro x hx
    obtain ⟨p, hmem, rfl⟩ := hkept.mem_iff.1 hx
    exact hp.mem_iff.2 ⟨p, hsub.subset hmem, rfl⟩
  refine ⟨⟨fun hx => hd.allocated (hmem hx), fun hx => hd.not_nop (hmem hx),
    fun hx hi t ht => ?_⟩, fun hx => hd.not_jump (hmem hx)⟩
  obtain ⟨p, hplaced, rfl⟩ := hp.mem_iff.1 (hd.placed (hmem hx) hi t ht)
  have hjump := hd.not_jump (hmem hx) hi ht (hp.instr p hplaced)
  exact hkept.mem_iff.2 ⟨p, hall p hplaced hjump, rfl⟩

/-- Once unreachable jumps are dropped from a draft without edges to jumps, no two jumps are next
to each other. -/
theorem Direct.short (hd : d.Direct) (h : Edit.dropDeadJumps.run d = .ok () e) : e.Short := by
  obtain ⟨placed, hp, rfl⟩ := dropDeadJumps_eq_ok_iff.1 h
  have hsub := sublist_dropDead (references placed) [] placed.reverse
  rw [List.reverse_reverse, List.append_nil] at hsub
  have hzero : ∀ p ∈ placed.reverse, p.2.isJump = true → (references placed).getD p.1 0 = 0 := by
    intro p hmem hjump
    rw [List.mem_reverse] at hmem
    rw [getD_references, List.count_eq_zero, List.mem_flatMap]
    rintro ⟨r, hr, ht⟩
    have := hd.not_jump (hp.mem_iff.2 ⟨r, hr, rfl⟩) (hp.instr r hr) ht (hp.instr p hmem)
    rw [hjump] at this
    cases this
  have hlast : (placed.reverse.take 1 ++ []).IsChain Apart := by
    cases placed.reverse with
    | nil => exact .nil
    | cons p _ => exact .singleton p
  exact { hd.of_sublist hp hsub fun p hmem => mem_dropDead (by simpa using hmem) with
    apart := (hp.of_sublist hsub).isChain_iff.1 (isChain_dropDead hzero hlast) }

/-- Where no jumps are next to each other, there is none to drop. -/
theorem Short.dropDeadJumps_eq (hd : d.Short) : Edit.dropDeadJumps.run d = .ok () d := by
  obtain ⟨placed, hp⟩ := exists_lists fun _ => hd.allocated
  refine dropDeadJumps_eq_ok_iff.2 ⟨placed, hp, ?_⟩
  have hchain := hp.isChain_iff.2 hd.apart
  rw [dropDead_eq (by simpa using hchain), List.reverse_reverse, List.append_nil, listed,
    hp.handles]

/-! ## The normal form -/

/-- A shortened draft is short, and nothing is left in it to be shortened: doing it again succeeds
and changes neither the order nor any slot. -/
theorem shorten_reaches_normal_form {savings : Savings} (h : Edit.shorten.run d = .ok savings e) :
    e.Short ∧ Edit.shorten.run e = .ok ⟨e.size, e.size, e.size⟩ e := by
  obtain ⟨d₁, d₂, hskip, hshort, hdrop, -⟩ := shorten_eq_ok_iff.1 h
  have he : e.Short := ((nopFree_of_skipNops hskip).direct hshort).short hdrop
  exact ⟨he, shorten_eq_ok_iff.2
    ⟨e, e, he.skipNops_eq, he.shortcutJumps_eq, he.dropDeadJumps_eq, rfl⟩⟩

/-- A draft with an edge to a `nop`, a chain of jumps, and a jump that is placed twice. -/
def repetitive : Draft where
  slots := #[.split ⟨1⟩ ⟨2⟩, .nop, .jump ⟨3⟩, .jump ⟨1⟩, .accept]
  order := #[⟨0⟩, ⟨2⟩, ⟨2⟩, ⟨3⟩, ⟨1⟩, ⟨4⟩]

/-- What is left of it. The jump stays in its first place. -/
def succinct : Draft where
  slots := #[.split ⟨4⟩ ⟨4⟩, .nop, .jump ⟨4⟩, .jump ⟨4⟩, .accept]
  order := #[⟨0⟩, ⟨2⟩, ⟨4⟩]

/-- One round leaves nothing that could be shortened: the edge passes the `nop` and the chain of
jumps, and of the jumps only the first place of one is left. A second round changes nothing. -/
theorem shorten_reaches_normal_form_repetitive :
    Edit.shorten.run repetitive = .ok ⟨6, 5, 3⟩ succinct ∧ succinct.Short ∧
      Edit.shorten.run succinct = .ok ⟨3, 3, 3⟩ succinct := by
  have hskip : Edit.skipNops.run repetitive = .ok ()
      ⟨#[.split ⟨4⟩ ⟨2⟩, .nop, .jump ⟨3⟩, .jump ⟨4⟩, .accept], #[⟨0⟩, ⟨2⟩, ⟨2⟩, ⟨3⟩, ⟨4⟩]⟩ := by
    simp only [EStateM.run, Edit.skipNops, Edit.retarget, repetitive, Edit.retargetSlots, redirect,
      landingTable, getElem?_foldl_insert, Instr.traverse]
    rfl
  have hshort : Edit.shortcutJumps.run
      ⟨#[.split ⟨4⟩ ⟨2⟩, .nop, .jump ⟨3⟩, .jump ⟨4⟩, .accept], #[⟨0⟩, ⟨2⟩, ⟨2⟩, ⟨3⟩, ⟨4⟩]⟩ =
        .ok () ⟨succinct.slots, #[⟨0⟩, ⟨2⟩, ⟨2⟩, ⟨3⟩, ⟨4⟩]⟩ := rfl
  have hdrop : Edit.dropDeadJumps.run ⟨succinct.slots, #[⟨0⟩, ⟨2⟩, ⟨2⟩, ⟨3⟩, ⟨4⟩]⟩ =
      .ok () succinct := by
    refine dropDeadJumps_eq_ok_iff.2 ⟨[(⟨0⟩, .split ⟨4⟩ ⟨4⟩), (⟨2⟩, .jump ⟨4⟩), (⟨2⟩, .jump ⟨4⟩),
      (⟨3⟩, .jump ⟨4⟩), (⟨4⟩, .accept)], instructions_eq_ok_iff.1 rfl, ?_⟩
    simp [listed, dropDead, getD_references, getD_release, Instr.isJump, Instr.targets, succinct]
  have hrun := shorten_eq_ok_iff.2 ⟨_, _, hskip, hshort, hdrop, rfl⟩
  exact ⟨hrun, shorten_reaches_normal_form hrun⟩

end PatternMachine.Draft
