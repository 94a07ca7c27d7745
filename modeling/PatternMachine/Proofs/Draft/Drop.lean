import PatternMachine.Proofs.Draft.Reduces

/-!
# Dropping an instruction from the order

An instruction that is passed silently may be dropped from the order if no edge leads to it and if
it is a `nop` or nothing runs into it from before: what ran into a dropped `nop` runs into its
successor, where it lands all the same. `Drops.reduces` proves that such a draft reduces to the one
without the instruction.
-/

namespace PatternMachine.Draft

variable {d e : Draft} {x : Handle}

/-- `e` is `d` without the place of `x`, an instruction that is passed silently, is no target, and
is a `nop` unless the instruction before it does not run into it. -/
structure Drops (d e : Draft) (x : Handle) : Prop where
  sound : d.Sound
  slots_eq : e.slots = d.slots
  places : ∃ before after, d.order.toList = before ++ x :: after ∧ e.order.toList = before ++ after
  silent : ∀ {i : Instr Handle}, d.get? x = some i → i.silent = true
  unnamed : ∀ {h : Handle} {i : Instr Handle}, h ∈ e.order → d.get? h = some i → x ∉ i.targets
  entered : d.get? x = some .nop ∨
    ∃ h i, d.Next h x ∧ d.get? h = some i ∧ i.fallsThrough = false

namespace Drops

/-- The slots are not touched. -/
theorem get?_eq (hd : Drops d e x) (h : Handle) : e.get? h = d.get? h := by
  rw [get?, get?, hd.slots_eq]

/-- The places behind the dropped one move up by one. -/
theorem exists_index (hd : Drops d e x) : ∃ a, d.order[a]? = some x ∧
    d.order.size = e.order.size + 1 ∧
    ∀ k, e.order[k]? = if k < a then d.order[k]? else d.order[k + 1]? := by
  obtain ⟨before, after, hdo, heo⟩ := hd.places
  refine ⟨before.length, ?_, ?_, fun k => ?_⟩
  · simp [← Array.getElem?_toList, hdo]
  · rw [← Array.length_toList, ← Array.length_toList, hdo, heo]
    simp only [List.length_append, List.length_cons]
    omega
  · rw [← Array.getElem?_toList, ← Array.getElem?_toList, ← Array.getElem?_toList, hdo, heo]
    split
    · rename_i hk
      rw [List.getElem?_append_left hk, List.getElem?_append_left hk]
    · rename_i hk
      have hle := Nat.not_lt.1 hk
      rw [List.getElem?_append_right hle, List.getElem?_append_right (Nat.le_succ_of_le hle),
        Nat.succ_sub hle, List.getElem?_cons_succ]

/-- Of the placed handles only `x` goes. -/
theorem mem_iff (hd : Drops d e x) {h : Handle} : h ∈ e.order ↔ h ∈ d.order ∧ h ≠ x := by
  obtain ⟨before, after, hdo, heo⟩ := hd.places
  have hnodup := hd.sound.nodup
  rw [hdo, List.perm_middle.nodup_iff, List.nodup_cons] at hnodup
  rw [← Array.mem_toList_iff, ← Array.mem_toList_iff, hdo, heo, List.mem_append, List.mem_append,
    List.mem_cons]
  refine ⟨?_, ?_⟩
  · intro hh
    exact ⟨hh.imp_right .inr, fun heq => hnodup.1 (heq ▸ List.mem_append.2 hh)⟩
  · rintro ⟨hh | rfl | hh, hne⟩
    · exact .inl hh
    · exact absurd rfl hne
    · exact .inr hh

/-- What rests in one of the drafts rests in the other. -/
theorem rests_iff (hd : Drops d e x) {h : Handle} : e.Rests h ↔ d.Rests h := by
  rw [Rests, Rests, hd.get?_eq]

/-- The instruction that goes is one that is passed silently. -/
theorem not_rests (hd : Drops d e x) : ¬ d.Rests x := by
  intro h
  obtain ⟨i, hi, hs⟩ := h
  rw [hd.silent hi] at hs
  cases hs

/-- Whatever runs into the dropped instruction runs into a `nop`. -/
theorem nop_of_next (hd : Drops d e x) {h : Handle} {i : Instr Handle} (hi : d.get? h = some i)
    (hf : i.fallsThrough = true) (hn : d.Next h x) : d.get? x = some .nop := by
  refine hd.entered.resolve_right ?_
  intro hyp
  obtain ⟨h', i', ⟨k', hk', hx'⟩, hi', hf'⟩ := hyp
  obtain ⟨k, hk, hx⟩ := hn
  obtain rfl := Nat.succ.inj (hd.sound.index_unique hx hx')
  rw [hk] at hk'
  cases hk'
  rw [hi] at hi'
  cases hi'
  rw [hf] at hf'
  cases hf'

/-- The successor of an instruction is the old one, or the dropped instruction was between them. -/
theorem next_iff (hd : Drops d e x) {h g : Handle} : e.Next h g ↔
    h ≠ x ∧ (d.Next h g ∧ g ≠ x ∨ d.Next h x ∧ d.Next x g) := by
  obtain ⟨a, hx, -, hidx⟩ := hd.exists_index
  refine ⟨?_, ?_⟩
  · intro hyp
    obtain ⟨k, hk, hk'⟩ := hyp
    have hne := (hd.mem_iff.1 (Array.mem_of_getElem? hk)).2
    have hne' := (hd.mem_iff.1 (Array.mem_of_getElem? hk')).2
    refine ⟨hne, ?_⟩
    rw [hidx] at hk hk'
    rcases Nat.lt_trichotomy (k + 1) a with hlt | rfl | hgt
    · rw [if_pos (by omega)] at hk hk'
      exact .inl ⟨⟨k, hk, hk'⟩, hne'⟩
    · rw [if_pos (by omega)] at hk
      rw [if_neg (by omega)] at hk'
      exact .inr ⟨⟨k, hk, hx⟩, ⟨k + 1, hx, hk'⟩⟩
    · rw [if_neg (by omega)] at hk hk'
      exact .inl ⟨⟨k + 1, hk, hk'⟩, hne'⟩
  · rintro ⟨hne, ⟨⟨k, hk, hk'⟩, hne'⟩ | ⟨⟨k, hk, hk'⟩, l, hl, hl'⟩⟩
    · have hka : k ≠ a := by
        rintro rfl
        rw [hk] at hx
        exact hne (Option.some.inj hx)
      have hka' : k + 1 ≠ a := by
        rintro rfl
        rw [hk'] at hx
        exact hne' (Option.some.inj hx)
      rcases Nat.lt_or_gt_of_ne hka with hlt | hgt
      · exact ⟨k, by rw [hidx, if_pos hlt, hk], by rw [hidx, if_pos (by omega), hk']⟩
      · obtain ⟨k, rfl⟩ : ∃ j, k = j + 1 := ⟨k - 1, by omega⟩
        exact ⟨k, by rw [hidx, if_neg (by omega), hk], by rw [hidx, if_neg (by omega), hk']⟩
    · obtain rfl := hd.sound.index_unique hk' hx
      obtain rfl := hd.sound.index_unique hl hx
      exact ⟨k, by rw [hidx, if_pos (by omega), hk], by rw [hidx, if_neg (by omega), hl']⟩

/-- The dropped instruction passes to the next one, if it can be run into. -/
theorem passes_of_next (hd : Drops d e x) {h g : Handle} {i : Instr Handle}
    (hi : d.get? h = some i) (hf : i.fallsThrough = true) (hn : d.Next h x) (hg : d.Next x g) :
    d.Passes x g :=
  .inr ⟨hd.nop_of_next hi hf hn, hg⟩

/-! ## Landing -/

/-- Where one lands with the dropped instruction in place one lands without it. -/
theorem lands_left (hd : Drops d e x) {n : Nat} {h y : Handle} (hh : h ∈ e.order)
    (hl : d.Lands n h y) : e.LandsOn h y := by
  induction n using Nat.strongRecOn generalizing h with
  | _ n ih =>
    cases hl with
    | here hr => exact (hd.rests_iff.2 hr).landsOn
    | @pass n _ g _ hp hl =>
      have hmem := hd.mem_iff.1 hh
      have hg := hd.sound.mem_of_passes hmem.1 hp
      rcases hp with hj | ⟨hn, hnext⟩
      · have hne : g ≠ x := fun h => hd.unnamed hh hj (h ▸ List.mem_singleton_self g)
        exact (ih n (by omega) (hd.mem_iff.2 ⟨hg, hne⟩) hl).pass (.inl ((hd.get?_eq h).trans hj))
      · have hn' : e.get? h = some .nop := (hd.get?_eq h).trans hn
        by_cases hgx : g = x
        · subst hgx
          cases hl with
          | here hr => exact absurd hr hd.not_rests
          | @pass n _ g' _ hp hl =>
            -- The dropped instruction is a `nop` here, so one goes on with its successor.
            have hnop := hd.nop_of_next hn rfl hnext
            rcases hp with hj | ⟨-, hnext'⟩
            · rw [hnop] at hj
              cases hj
            · have he : e.Next h g' := hd.next_iff.2 ⟨hmem.2, .inr ⟨hnext, hnext'⟩⟩
              have hg' : g' ∈ e.order := he.elim fun k hk => Array.mem_of_getElem? hk.2
              exact (ih n (by omega) hg' hl).pass (.inr ⟨hn', he⟩)
        · have he : e.Next h g := hd.next_iff.2 ⟨hmem.2, .inl ⟨hnext, hgx⟩⟩
          exact (ih n (by omega) (hd.mem_iff.2 ⟨hg, hgx⟩) hl).pass (.inr ⟨hn', he⟩)

/-- Where one lands without the dropped instruction one lands with it. -/
theorem lands_right (hd : Drops d e x) {n : Nat} {h y : Handle} (hl : e.Lands n h y) :
    d.LandsOn h y := by
  induction hl with
  | here hr => exact (hd.rests_iff.1 hr).landsOn
  | pass hp _ ih =>
    rcases hp with hj | ⟨hn, hnext⟩
    · exact ih.pass (.inl ((hd.get?_eq _).symm.trans hj))
    · have hn' := (hd.get?_eq _).symm.trans hn
      obtain ⟨-, ⟨hnext', -⟩ | ⟨hx, hnext'⟩⟩ := hd.next_iff.1 hnext
      · exact ih.pass (.inr ⟨hn', hnext'⟩)
      · exact (ih.pass (hd.passes_of_next hn' rfl hx hnext')).pass (.inr ⟨hn', hx⟩)

/-- What stays lands where it landed before. -/
theorem sameLanding (hd : Drops d e x) {h : Handle} (hh : h ∈ e.order) : SameLanding d e h h :=
  fun _ => ⟨fun ⟨_, hl⟩ => hd.lands_left hh hl, fun ⟨_, hl⟩ => hd.lands_right hl⟩

/-- If the dropped instruction is a `nop`, then it lands where its successor does. -/
theorem sameLanding_next (hd : Drops d e x) {g : Handle} (hnop : d.get? x = some .nop)
    (hn : d.Next x g) (hg : g ∈ e.order) : SameLanding d e x g := by
  intro y
  refine Iff.trans ⟨?_, ?_⟩ (hd.sameLanding hg y)
  · intro h
    obtain ⟨n, hl⟩ := h
    cases hl with
    | here hr => exact absurd hr hd.not_rests
    | @pass n _ _ _ hp hl =>
      obtain rfl := hd.sound.passes_unique hp (.inr ⟨hnop, hn⟩)
      exact ⟨n, hl⟩
  · exact fun hl => hl.pass (.inr ⟨hnop, hn⟩)

/-! ## The smaller draft -/

/-- What stays keeps its order. -/
theorem sublist (hd : Drops d e x) : e.order.toList.Sublist d.order.toList := by
  obtain ⟨before, after, hdo, heo⟩ := hd.places
  rw [hdo, heo]
  exact (List.sublist_cons_self x after).append_left before

/-- What is left is sound again: no edge leads to what has gone, and the program still ends where it
did. -/
theorem sound_right (hd : Drops d e x) : e.Sound where
  nodup := hd.sublist.nodup hd.sound.nodup
  nonempty := by
    rcases hd.entered with hnop | ⟨h, i, hn, hi, hf⟩
    · obtain ⟨a, hx, hsize, -⟩ := hd.exists_index
      have := hd.sound.next hx hnop rfl
      omega
    · obtain ⟨k, hk, hk'⟩ := hn
      have := (Array.getElem?_eq_some_iff.1 hk').1
      obtain ⟨-, -, hsize, -⟩ := hd.exists_index
      omega
  allocated hh := by
    obtain ⟨i, hi⟩ := hd.sound.allocated (hd.mem_iff.1 hh).1
    exact ⟨i, (hd.get?_eq _).trans hi⟩
  placed hh hi t ht := by
    rw [hd.get?_eq] at hi
    exact hd.mem_iff.2 ⟨hd.sound.placed (hd.mem_iff.1 hh).1 hi t ht,
      fun heq => hd.unnamed hh hi (heq ▸ ht)⟩
  next {k h i} hk hi hf := by
    obtain ⟨a, hx, hsize, hidx⟩ := hd.exists_index
    rw [hd.get?_eq] at hi
    rw [hidx] at hk
    split at hk
    · rename_i hlt
      have hnext := hd.sound.next hk hi hf
      by_cases hlast : k + 1 = e.order.size
      · -- The dropped instruction was the last one, but then it did not end the draft.
        have hax := (Array.getElem?_eq_some_iff.1 hx).1
        obtain rfl : a = k + 1 := by omega
        have := hd.sound.next hx (hd.nop_of_next hi hf ⟨k, hk, hx⟩) rfl
        omega
      · omega
    · have := hd.sound.next hk hi hf
      omega

/-- A draft reduces to the one without an instruction that may be dropped. -/
theorem reduces (hd : Drops d e x) : Reduces d e where
  left := hd.sound
  right := hd.sound_right
  sublist := hd.sublist
  rests hh hr := hd.mem_iff.2 ⟨hh, fun h => hd.not_rests (h ▸ hr)⟩
  instr hh hi hj := by
    rw [hd.get?_eq, hi] at hj
    cases hj
    refine (Instr.Rel.refl (S := Eq) (fun _ => rfl) _).mono ?_
    rintro t ht _ rfl
    exact hd.sameLanding (hd.sound_right.placed hh ((hd.get?_eq _).trans hi) t ht)
  landing hh := hd.sameLanding hh
  start {h g} hh hg := by
    obtain ⟨a, hx, -, hidx⟩ := hd.exists_index
    have hgmem := Array.mem_of_getElem? hg
    rw [hidx] at hg
    split at hg
    · rw [hh] at hg
      cases hg
      exact hd.sameLanding hgmem
    · obtain rfl : a = 0 := by omega
      rw [hh] at hx
      cases hx
      have hnop : d.get? x = some .nop := hd.entered.resolve_right fun ⟨_, _, ⟨k, _, hk⟩, _⟩ =>
        absurd (hd.sound.index_unique hh hk) (Nat.succ_ne_zero k).symm
      exact hd.sameLanding_next hnop ⟨0, hh, hg⟩ hgmem
  next {h g g' i} hi hf hn hn' := by
    have hg' : g' ∈ e.order := hn'.elim fun k hk => Array.mem_of_getElem? hk.2
    obtain ⟨-, ⟨hn', -⟩ | ⟨hx, hn'⟩⟩ := hd.next_iff.1 hn'
    · obtain rfl := hd.sound.next_unique hn hn'
      exact hd.sameLanding hg'
    · obtain rfl := hd.sound.next_unique hn hx
      exact hd.sameLanding_next (hd.nop_of_next hi hf hx) hn' hg'

end Drops

end PatternMachine.Draft
