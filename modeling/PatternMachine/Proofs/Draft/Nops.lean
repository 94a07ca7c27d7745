import PatternMachine.Draft.Nops
import PatternMachine.Proofs.Draft.Drop
import PatternMachine.Proofs.Draft.Redirect

/-!
# Removing `nop`s keeps the answers

In a sound draft something other than a `nop` follows every `nop`, so every edge can be led past
them (`landings_spec`), and then they can be dropped one by one (`Sound.reduces_dropNops`). Hence
`Edit.skipNops` succeeds on every sound draft, and the draft reduces to the one it makes
(`Sound.skipNops_eq_ok`).
-/

namespace PatternMachine.Draft

variable {d e : Draft} {placed : List (Handle × Instr Handle)}

/-! ## The placed instructions -/

/-- `placed` lists the placed instructions of `d` with their handles, in order. -/
structure Lists (d : Draft) (placed : List (Handle × Instr Handle)) : Prop where
  handles : placed.map Prod.fst = d.order.toList
  instr : ∀ p ∈ placed, d.get? p.1 = some p.2

/-- Listing the placed instructions pairs each handle of the order with what is in its slot. -/
theorem lists_iff : d.Lists placed ↔ List.Forall₂ (fun x p => x = p.1 ∧ d.get? p.1 = some p.2)
    d.order.toList placed := by
  refine ⟨fun h => ?_, fun h => ⟨?_, ?_⟩⟩
  · rw [← h.handles, List.forall₂_map_left_iff, List.forall₂_same]
    exact fun p hp => ⟨rfl, h.instr p hp⟩
  · have heq := List.forall₂_map_right_iff.2 (h.imp fun _ _ hxp => hxp.1)
    rw [List.forall₂_eq_eq_eq] at heq
    exact heq.symm
  · exact ((List.forall₂_and_left _ _).1 (h.imp fun _ _ hxp => And.symm hxp).flip).1

/-- The placed instructions are read exactly where all of them have slots. -/
theorem instructions_eq_ok_iff : d.instructions = .ok placed ↔ d.Lists placed := by
  have hstep : ∀ x (p : Handle × Instr Handle),
      (do return (x, ← d.get x) : Except Fault _) = .ok p ↔ x = p.1 ∧ d.get? p.1 = some p.2 := by
    rintro x ⟨y, i⟩
    cases hx : d.get? x with
    | none =>
      simp only [get, hx, bind, Except.bind, reduceCtorEq, false_iff]
      rintro ⟨rfl, hi⟩
      cases hx.symm.trans hi
    | some j =>
      simp only [get, hx, bind, Except.bind, pure, Except.pure, Except.ok.injEq, Prod.mk.injEq]
      refine and_congr_right fun hxy => ?_
      rw [← hxy, hx, Option.some.injEq]
  rw [lists_iff, instructions, mapM_eq_ok_iff]
  simp only [hstep]

/-- The placed instructions can be listed if each of them has a slot. -/
theorem exists_lists (h : ∀ h ∈ d.order, ∃ i, d.get? h = some i) : ∃ placed, d.Lists placed := by
  have hall : ∀ x ∈ d.order.toList,
      ∃ p : Handle × Instr Handle, x = p.1 ∧ d.get? p.1 = some p.2 := by
    intro x hx
    obtain ⟨i, hi⟩ := h x (Array.mem_toList_iff.1 hx)
    exact ⟨(x, i), rfl, hi⟩
  obtain ⟨placed, hplaced⟩ := exists_forall₂ hall
  exact ⟨placed, lists_iff.2 hplaced⟩

/-- The placed handles are those that are listed. -/
theorem Lists.mem_iff (hp : d.Lists placed) {h : Handle} :
    h ∈ d.order ↔ ∃ p ∈ placed, p.1 = h := by
  rw [← Array.mem_toList_iff, ← hp.handles, List.mem_map]

/-- The edges of a draft are the targets that are listed. -/
theorem Lists.edges_eq (hp : d.Lists placed) :
    d.edges = placed.flatMap fun p => p.2.targets := by
  rw [edges, ← hp.handles, List.flatMap_map]
  exact List.flatMap_congr fun p hmem => targetsAt_eq (hp.instr p hmem)

/-- What stands behind an instruction in the list is placed directly after it. -/
theorem Lists.next (hp : d.Lists placed) {before after : List (Handle × Instr Handle)}
    {p q : Handle × Instr Handle} (h : before ++ p :: q :: after = placed) : d.Next p.1 q.1 := by
  have hhandles := hp.handles
  rw [← h, List.map_append, List.map_cons, List.map_cons] at hhandles
  refine ⟨before.length, ?_, ?_⟩ <;> simp [← Array.getElem?_toList, ← hhandles]

/-- Only the last instruction has nothing behind it in the list. -/
theorem Lists.fallsThrough_eq_false (hd : d.Sound) (hp : d.Lists placed)
    {before : List (Handle × Instr Handle)} {p : Handle × Instr Handle}
    (h : before ++ [p] = placed) : p.2.fallsThrough = false := by
  have hhandles := hp.handles
  rw [← h, List.map_append, List.map_singleton] at hhandles
  have hk : d.order[before.length]? = some p.1 := by
    simp [← Array.getElem?_toList, ← hhandles]
  have hsize : d.order.size = before.length + 1 := by
    rw [← Array.length_toList, ← hhandles]
    simp
  rw [Bool.eq_false_iff]
  intro hf
  have := hd.next hk (hp.instr p (h ▸ by simp)) hf
  omega

/-! ## Leading edges past `nop`s -/

/-- From every placed instruction one passes to the first one, there or later, that is no `nop`,
and there is one. -/
theorem landings_spec (hd : d.Sound) (hp : d.Lists placed) {l : List (Handle × Instr Handle)}
    (hl : l <:+ placed) : List.Forall₂
      (fun p o => ∃ g, o = some g ∧ d.Leads p.1 g ∧ d.get? g ≠ some .nop) l (landings l) := by
  induction l with
  | nil => exact .nil
  | cons p l ih =>
    obtain ⟨h, i⟩ := p
    have hi := hp.instr (h, i) (hl.subset List.mem_cons_self)
    have hrest := ih ((List.suffix_cons _ l).trans hl)
    rw [landings]
    refine .cons ?_ hrest
    cases hnop : i.isNop with
    | false =>
      refine ⟨h, rfl, .refl, ?_⟩
      intro heq
      rw [hi] at heq
      cases heq
      cases hnop
    | true =>
      obtain rfl : i = .nop := by
        cases i <;> first | rfl | cases hnop
      obtain ⟨before, hbefore⟩ := hl
      match l, hrest with
      | [], _ => cases hp.fallsThrough_eq_false hd hbefore
      | q :: l, hrest =>
        obtain ⟨o, later, ⟨g, rfl, hlead, hne⟩, -, heq⟩ := List.forall₂_cons_left_iff.1 hrest
        exact ⟨g, by rw [heq]; rfl, hlead.head (.inr ⟨hi, hp.next hbefore⟩), hne⟩

/-- Where every placed instruction has a landing, every edge to one of them is led to such a
landing. -/
theorem redirect_of_landings {R : Handle → Handle → Prop}
    (h : List.Forall₂ (fun p o => ∃ g, o = some g ∧ R p.1 g) placed (landings placed))
    {t : Handle} (ht : ∃ p ∈ placed, p.1 = t) :
    ∃ u, redirect (landingTable placed) t = .ok u ∧ R t u := by
  have hfst : (placed.zip (landings placed)).map Prod.fst = placed :=
    List.map_fst_zip (Nat.le_of_eq h.length_eq)
  obtain ⟨p, hp, rfl⟩ := ht
  rw [← hfst] at hp
  obtain ⟨a, ha, rfl⟩ := List.mem_map.1 hp
  obtain ⟨o, ho⟩ := exists_table (fun a : (Handle × Instr Handle) × Option Handle => a.1.1)
    (fun a => a.2) ha
  obtain ⟨⟨q, o'⟩, hmem, heq, rfl⟩ := exists_of_table
    (fun a : (Handle × Instr Handle) × Option Handle => a.1.1) (fun a => a.2) ho
  obtain ⟨g, rfl, hR⟩ := List.forall₂_zip h hmem
  refine ⟨g, ?_, heq ▸ hR⟩
  have ho : (landingTable placed)[a.1.1]? = some (some g) := ho
  simp only [redirect, ho]

/-- Every edge to a placed instruction is led on, and not to a `nop`. -/
theorem redirect_eq_ok (hd : d.Sound) (hp : d.Lists placed) {t : Handle} (ht : t ∈ d.order) :
    ∃ u, redirect (landingTable placed) t = .ok u ∧ d.Leads t u ∧ d.get? u ≠ some .nop :=
  redirect_of_landings (R := fun t u => d.Leads t u ∧ d.get? u ≠ some .nop)
    (landings_spec hd hp (List.suffix_refl placed)) (hp.mem_iff.1 ht)

/-! ## Dropping `nop`s -/

/-- Once no edge leads to a `nop`, the `nop`s among the last places can be dropped. -/
theorem reduces_filter (slots : Array (Instr Handle)) (before after : List Handle)
    (hd : Sound ⟨slots, (before ++ after).toArray⟩)
    (hnop : ∀ h ∈ before ++ after, ∀ i, slots[h.index]? = some i →
      ∀ t ∈ i.targets, slots[t.index]? ≠ some .nop) :
    Reduces ⟨slots, (before ++ after).toArray⟩
      ⟨slots, (before ++ after.filter fun h => !(slots[h.index]?).any Instr.isNop).toArray⟩ := by
  induction after generalizing before with
  | nil => exact .refl hd
  | cons x after ih =>
    obtain ⟨i, hi⟩ := hd.allocated (h := x) (by simp)
    cases hx : i.isNop with
    | false =>
      have := ih (before ++ [x]) (by simpa using hd) (by simpa using hnop)
      simpa [List.filter_cons, show slots[x.index]? = some i from hi, hx] using this
    | true =>
      obtain rfl : i = .nop := by
        cases i <;> first | rfl | cases hx
      have hdrop : Drops ⟨slots, (before ++ x :: after).toArray⟩
          ⟨slots, (before ++ after).toArray⟩ x := {
        sound := hd
        slots_eq := rfl
        places := ⟨before, after, rfl, rfl⟩
        silent := fun hi' => by
          rw [hi] at hi'
          cases hi'
          rfl
        unnamed := fun {h i} hh hi' ht =>
          hnop h (List.mem_append.2 ((List.mem_append.1 (List.mem_toArray.1 hh)).imp_right
            (List.mem_cons_of_mem x))) i hi' x ht hi
        entered := .inl hi }
      have := ih before hdrop.sound_right fun h hh => hnop h
        (List.mem_append.2 ((List.mem_append.1 hh).imp_right (List.mem_cons_of_mem x)))
      refine hdrop.reduces.trans ?_
      simpa [List.filter_cons, show slots[x.index]? = some .nop from hi, Instr.isNop] using this

/-- If no edge leads to a `nop`, a sound draft reduces to what is left without its `nop`s. -/
theorem Sound.reduces_dropNops (hd : d.Sound) (hnop : ∀ {h : Handle} {i : Instr Handle},
    h ∈ d.order → d.get? h = some i → ∀ t ∈ i.targets, d.get? t ≠ some .nop) :
    Reduces d d.dropNops := by
  have := reduces_filter d.slots [] d.order.toList
    (by simpa using hd) fun h hh i hi => hnop (by simpa using hh) hi
  have hfilter : d.dropNops.order = (d.order.toList.filter fun h =>
      !(d.slots[h.index]?).any Instr.isNop).toArray := by
    apply Array.toList_inj.1
    rw [dropNops, Array.toList_filter]
    rfl
  rw [List.nil_append, List.nil_append, ← hfilter] at this
  exact this

/-! ## Both together -/

/-- Skipping `nop`s is redirecting all edges to where the table says and then leaving the `nop`s
out. -/
theorem skipNops_eq_ok_iff : Edit.skipNops.run d = .ok () e ↔ ∃ placed d', d.Lists placed ∧
    (Edit.retarget fun _ => redirect (landingTable placed)).run d = .ok () d' ∧
      d'.dropNops = e := by
  refine ⟨fun h => ?_, ?_⟩
  · change Edit.skipNops d = _ at h
    cases hplaced : d.instructions with
    | error fault => simp only [Edit.skipNops, hplaced, reduceCtorEq] at h
    | ok placed =>
      cases hret : Edit.retarget (fun _ => redirect (landingTable placed)) d with
      | error fault d' => simp only [Edit.skipNops, hplaced, hret, reduceCtorEq] at h
      | ok _ d' =>
        simp only [Edit.skipNops, hplaced, hret] at h
        cases h
        exact ⟨placed, d', instructions_eq_ok_iff.1 hplaced, hret, rfl⟩
  · rintro ⟨placed, d', hp, hret, rfl⟩
    change Edit.retarget _ d = _ at hret
    show Edit.skipNops d = _
    simp only [Edit.skipNops, instructions_eq_ok_iff.2 hp, hret]

/-- `nop`s can be removed from every sound draft, and this keeps the answers. -/
theorem Sound.skipNops_eq_ok (hd : d.Sound) :
    ∃ e, Edit.skipNops.run d = .ok () e ∧ Reduces d e := by
  obtain ⟨placed, hp⟩ := exists_lists fun _ => hd.allocated
  obtain ⟨e, heq, hred, hkind⟩ := hd.retarget_eq_ok (fun _ => redirect (landingTable placed))
    (fun g => d.get? g ≠ some .nop) fun e _ t ht => redirect_eq_ok hd hp ht
  refine ⟨e.dropNops, skipNops_eq_ok_iff.2 ⟨placed, e, hp, heq, rfl⟩, (hred.reduces hd).trans
    ((hred.sound hd).reduces_dropNops fun hh hi t ht hnop => ?_)⟩
  obtain ⟨i, hi', hrel⟩ := hred.exists_left hnop
  cases hrel
  exact hkind hh hi t ht hi'

end PatternMachine.Draft
