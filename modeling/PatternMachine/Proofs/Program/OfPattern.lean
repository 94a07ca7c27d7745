import PatternMachine.Program.OfPattern
import PatternMachine.Proofs.Draft.OfPattern
import PatternMachine.Proofs.Draft.Shorten
import PatternMachine.Proofs.Program.Landing

/-!
# Assembling the program of a pattern

The draft of a pattern is sound and every edge of it lands, so it can be shortened or left as it is,
and finished (`Assembly.ofPattern_eq_ok`). Either way the program gives the answers of
`Pattern.program`, is closed, and ends in its only `accept`.
-/

namespace PatternMachine

/-! ## Ending in `accept` -/

/-- The last instruction of the program, and no other one, is `accept`. -/
def Program.EndsInAccept (p : Program) : Prop :=
  ∀ k, p.code[k]? = some .accept ↔ k + 1 = p.size

namespace Draft

variable {d e : Draft} {p : Program}

/-- The last placed instruction, and no other one, is `accept`. -/
def EndsInAccept (d : Draft) : Prop :=
  ∀ (k : Nat) (h : Handle), d.order[k]? = some h →
    (d.get? h = some .accept ↔ k + 1 = d.order.size)

/-- A draft that ends in `accept` is finished to a program that does. -/
theorem EndsInAccept.finish (h : d.EndsInAccept) (hp : d.finish = .ok p) : p.EndsInAccept := by
  have hres := resolves_of_finish hp
  intro k
  rw [hres.size_eq]
  rcases Nat.lt_or_ge k d.order.size with hlt | hge
  · have hk := Array.getElem?_eq_getElem hlt
    obtain ⟨i, j, hi, hj, hrel⟩ := hres.code hk
    rw [← h k _ hk, hi, hj, Option.some.injEq, Option.some.injEq, hrel.accept_iff]
  · have hnone : p.code[k]? = none :=
      Array.getElem?_eq_none (Nat.le_trans (Nat.le_of_eq hres.size_eq) hge)
    rw [hnone]
    simp only [reduceCtorEq, false_iff]
    omega

/-- In other words, the order ends in a handle, and this is the one handle of an `accept`. -/
theorem Sound.endsInAccept_iff (hd : d.Sound) : d.EndsInAccept ↔
    ∃ before x, d.order.toList = before ++ [x] ∧
      ∀ h ∈ d.order, d.get? h = some .accept ↔ h = x := by
  have hlast : ∀ {before : List Handle} {x : Handle}, d.order.toList = before ++ [x] →
      d.order[before.length]? = some x ∧ d.order.size = before.length + 1 := by
    intro before x heq
    rw [← Array.getElem?_toList, ← Array.length_toList, heq]
    simp
  refine ⟨?_, ?_⟩
  · intro h
    have hne : d.order.toList ≠ [] := fun heq => by
      have := hd.nonempty
      simp [← Array.length_toList, heq] at this
    obtain ⟨before, x, heq⟩ : ∃ before x, d.order.toList = before ++ [x] :=
      ⟨_, _, (List.dropLast_append_getLast hne).symm⟩
    obtain ⟨hx, hsize⟩ := hlast heq
    refine ⟨before, x, heq, ?_⟩
    intro y hy
    obtain ⟨k, hk⟩ := Array.getElem?_of_mem hy
    rw [h k y hk, hsize]
    refine ⟨?_, ?_⟩
    · intro hk'
      obtain rfl : k = before.length := by omega
      exact Option.some.inj (hk.symm.trans hx)
    · rintro rfl
      rw [hd.index_unique hk hx]
  · rintro ⟨before, x, heq, hkind⟩ k y hk
    obtain ⟨hx, hsize⟩ := hlast heq
    rw [hkind y (Array.mem_of_getElem? hk), hsize]
    refine ⟨?_, ?_⟩
    · rintro rfl
      rw [hd.index_unique hk hx]
    · intro hk'
      obtain rfl : k = before.length := by omega
      exact Option.some.inj (hk.symm.trans hx)

/-- Leaving out silent instructions keeps the `accept` at the end. -/
theorem EndsInAccept.reduces (h : d.EndsInAccept) (hde : Reduces d e) : e.EndsInAccept := by
  obtain ⟨before, x, heq, hkind⟩ := hde.left.endsInAccept_iff.1 h
  have hx : x ∈ d.order := Array.mem_toList_iff.1 (by simp [heq])
  have hxe : x ∈ e.order := hde.rests hx ⟨_, (hkind x hx).2 rfl, rfl⟩
  refine hde.right.endsInAccept_iff.2 ?_
  have hsub := hde.sublist
  rw [heq, List.sublist_append_iff] at hsub
  obtain ⟨before', last, heq', hbefore, hlast⟩ := hsub
  rcases List.sublist_singleton.1 hlast with rfl | rfl
  · -- The `accept` cannot have been left out.
    rw [List.append_nil] at heq'
    have hmem := hbefore.subset (heq' ▸ Array.mem_toList_iff.2 hxe)
    have hnodup := hde.left.nodup
    rw [heq, List.nodup_append] at hnodup
    exact absurd rfl (hnodup.2.2 x hmem x (List.mem_singleton_self x))
  · refine ⟨before', x, heq', ?_⟩
    intro y hy
    obtain ⟨i, hi⟩ := hde.left.allocated (hde.mem hy)
    obtain ⟨j, hj⟩ := hde.right.allocated hy
    rw [hj, Option.some.injEq, (hde.instr hy hi hj).accept_iff, ← hkind y (hde.mem hy), hi,
      Option.some.injEq]

/-- The slots of a pattern hold no `accept`. -/
theorem accept_notMem_slots (p : Pattern) (base : Nat) : Instr.accept ∉ p.slots base := by
  induction p generalizing base with
  | literal | any | empty => simp [Pattern.slots]
  | seq l r ihl ihr | alt l r ihl ihr => simp [Pattern.slots, ihl, ihr]
  | star p ih | plus p ih | opt p ih => simp [Pattern.slots, ih]

/-- Hence the `accept` that completes the draft of a pattern is its only one. -/
theorem endsInAccept_completed (p : Pattern) : (completed p).EndsInAccept := by
  intro k h hk
  have hsize : (completed p).order.size = p.codeSize + 1 := by simp [completed, ofLists]
  rw [hsize]
  have hget : ∀ h, (completed p).get? h = (p.slots 0 ++ [Instr.accept])[h.index]? := by
    simp [get?, completed, ofLists]
  have horder : (p.order 0 ++ [⟨p.codeSize⟩])[k]? = some h := by
    simpa [completed, ofLists] using hk
  rcases Nat.lt_trichotomy k p.codeSize with hlt | rfl | hgt
  · rw [List.getElem?_append_left (by simpa using hlt)] at horder
    have hmem := (p.order_perm 0).mem_iff.1 (List.mem_of_getElem? horder)
    obtain ⟨i, hi, rfl⟩ := List.mem_map.1 hmem
    have hi : i < p.codeSize := by
      have := List.mem_range'_1.1 hi
      omega
    rw [hget, List.getElem?_append_left (by simpa using hi)]
    refine ⟨?_, ?_⟩
    · exact fun h => absurd (List.mem_of_getElem? h) (accept_notMem_slots p 0)
    · omega
  · have : h = ⟨p.codeSize⟩ := by simpa using horder.symm
    subst this
    simp [hget]
  · rw [List.getElem?_eq_none (by simp; omega)] at horder
    cases horder

end Draft

/-! ## The program of a pattern -/

/-- The program of a pattern leads to its own instructions only. -/
theorem Pattern.closed_program (p : Pattern) : p.program.Closed :=
  Draft.closed_of_finish (Draft.finish_completed p)

/-- From every instruction of the draft of a pattern one comes to rest. -/
theorem Draft.exists_landsOn_completed (p : Pattern) :
    ∀ h ∈ (completed p).order, ∃ x, (completed p).LandsOn h x := by
  intro h hh
  -- The machine lands in the program of the draft as one does in the draft itself.
  let m : Machine := ⟨p.program, ⟨#[], #[]⟩, 0⟩
  have hres : (completed p).Resolves m.program := resolves_of_finish (finish_completed p)
  obtain ⟨k, hk⟩ := Array.getElem?_of_mem hh
  have hexit : ∃ n x, m.Lands n ⟨Program.start + p.codeSize, 0⟩ x :=
    Machine.exists_lands_of_silent_eq_none (by
      rw [Program.start, Nat.zero_add]
      simp [Machine.silent?, m, p.code_program_codeSize])
  have hlands : ∃ n x, m.Lands n ⟨k, 0⟩ x := by
    have hsize : (completed p).order.size = p.codeSize + 1 := by simp [completed, ofLists]
    have hlt := (Array.getElem?_eq_some_iff.1 hk).1
    rcases Nat.lt_or_ge k p.codeSize with hlt' | hge
    · exact p.holds_program.lands hexit (Nat.zero_le k) (by rwa [Program.start, Nat.zero_add])
    · obtain rfl : k = p.codeSize := by omega
      rwa [Program.start, Nat.zero_add] at hexit
  obtain ⟨n, x, hl⟩ := hlands
  obtain ⟨-, g, -, hl⟩ := (lands_iff hres (sound_completed p) hk).1 hl
  exact ⟨g, n, hl⟩

/-- Every pattern has an assembly, shortened or not. Its program answers every search as the program
of the pattern does, is closed, and ends in its only `accept`. -/
theorem Assembly.ofPattern_eq_ok (shorten : Bool) (p : Pattern) :
    ∃ a, Assembly.ofPattern shorten p = .ok a ∧ p.program.SameAnswers a.program ∧
      a.program.Closed ∧ a.program.EndsInAccept := by
  have hrun : ∀ {savings : Option Savings} {e : Draft} {q : Program},
      (complete shorten).run (.ofLists (p.slots 0) (p.order 0)) = .ok savings e →
      e.finish = .ok q → Assembly.ofPattern shorten p =
        .ok ⟨q, (Draft.ofLists (p.slots 0) (p.order 0)).size, savings⟩ := by
    intro savings e q h hq
    simp only [ofPattern, Draft.ofPattern_eq_ok, bind, Except.bind, h, hq]
    rfl
  have hends : (Draft.completed p).EndsInAccept := Draft.endsInAccept_completed p
  cases shorten with
  | false =>
    have hcomplete : (complete false).run (.ofLists (p.slots 0) (p.order 0)) =
        .ok none (Draft.completed p) := by
      rw [complete, EStateM.run_bind, Draft.run_push_accept]
      rfl
    exact ⟨_, hrun hcomplete (Draft.finish_completed p), .refl _, p.closed_program,
      hends.finish (Draft.finish_completed p)⟩
  | true =>
    obtain ⟨savings, e, hshorten, hred⟩ := (Draft.sound_completed p).shorten_eq_ok
      (Draft.exists_landsOn_completed p)
    obtain ⟨q, hq⟩ := hred.right.finish
    have hcomplete : (complete true).run (.ofLists (p.slots 0) (p.order 0)) =
        .ok (some savings) e := by
      rw [complete, EStateM.run_bind, Draft.run_push_accept]
      simp only [if_true, EStateM.run_bind, hshorten]
      rfl
    exact ⟨_, hrun hcomplete hq, hred.sameAnswers (Draft.finish_completed p) hq,
      Draft.closed_of_finish hq, (hends.reduces hred).finish hq⟩

end PatternMachine
