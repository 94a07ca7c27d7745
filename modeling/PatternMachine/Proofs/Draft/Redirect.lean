import Mathlib.Logic.Relation
import PatternMachine.Proofs.Draft.Reduces

/-!
# Redirecting edges

Two drafts may differ in the targets of their instructions only (`Draft.Retargeted`). An edit that
goes through the placed instructions and redirects their targets one after the other makes such a
draft, even if it looks at what it has redirected already, and even if it stops half-way
(`retarget_cases`).

In particular an edge may be led past instructions that one passes silently (`Draft.Redirected`).
Then the first draft reduces to the second (`Redirected.reduces`): one lands where one landed
before, after no more steps.
-/

namespace PatternMachine.Draft

variable {d e : Draft}

/-- From `t` one can pass silently to `u`. -/
def Leads (d : Draft) : (t u : Handle) → Prop :=
  Relation.ReflTransGen d.Passes

namespace Leads

variable {t u x : Handle}

/-- In a sound draft one passes from a placed instruction to a placed one. -/
theorem mem (hd : d.Sound) (h : d.Leads t u) (ht : t ∈ d.order) : u ∈ d.order := by
  induction h with
  | refl => exact ht
  | tail _ hp ih => exact hd.mem_of_passes ih hp

/-- One lands where the instruction lands that one passes to. -/
theorem landsOn (h : d.Leads t u) (hu : d.LandsOn u x) : d.LandsOn t x := by
  induction h using Relation.ReflTransGen.head_induction_on with
  | refl => exact hu
  | head hp _ ih => exact ih.pass hp

/-- Farther on the way one lands where one would have landed, after no more steps. -/
theorem lands (hd : d.Sound) (h : d.Leads t u) {n : Nat} (hl : d.Lands n t x) :
    ∃ k ≤ n, d.Lands k u x := by
  induction h using Relation.ReflTransGen.head_induction_on generalizing n with
  | refl => exact ⟨n, Nat.le_refl n, hl⟩
  | head hp _ ih =>
    cases hl with
    | here hr => exact absurd hp hr.not_passes
    | pass hp' hl =>
      obtain rfl := hd.passes_unique hp hp'
      obtain ⟨k, hk, hu⟩ := ih hl
      exact ⟨k, Nat.le_succ_of_le hk, hu⟩

end Leads

/-! ## Drafts with other targets -/

/-- `e` holds the instructions of `d` in the same order, with targets related to theirs. -/
structure Retargeted (R : Handle → Handle → Prop) (d e : Draft) : Prop where
  order_eq : e.order = d.order
  slots : ∀ h, Option.Rel (Instr.Rel R) (d.get? h) (e.get? h)

namespace Retargeted

variable {R : Handle → Handle → Prop} {h : Handle} {i j : Instr Handle}

/-- A draft has the targets that it has. -/
theorem refl (hR : ∀ t, R t t) (d : Draft) : Retargeted R d d where
  order_eq := rfl
  slots h := by
    cases d.get? h with
    | none => exact .none
    | some i => exact .some (.refl hR i)

/-- What holds of related targets may be weakened. -/
theorem mono {S : Handle → Handle → Prop} (hde : Retargeted R d e) (h : ∀ t u, R t u → S t u) :
    Retargeted S d e where
  order_eq := hde.order_eq
  slots x := by
    have hrel := hde.slots x
    generalize d.get? x = i at hrel ⊢
    generalize e.get? x = j at hrel ⊢
    cases hrel with
    | none => exact .none
    | some hij => exact .some (hij.mono fun t _ u => h t u)

/-- An instruction with other targets comes from one. -/
theorem exists_left (hde : Retargeted R d e) (hj : e.get? h = some j) :
    ∃ i, d.get? h = some i ∧ i.Rel R j := by
  have hrel := hde.slots h
  cases hi : d.get? h with
  | none =>
    rw [hi, hj] at hrel
    cases hrel
  | some i =>
    rw [hi, hj] at hrel
    cases hrel with
    | some hij => exact ⟨i, rfl, hij⟩

/-- An instruction is left in its slot, with other targets. -/
theorem exists_right (hde : Retargeted R d e) (hi : d.get? h = some i) :
    ∃ j, e.get? h = some j ∧ i.Rel R j := by
  have hrel := hde.slots h
  cases hj : e.get? h with
  | none =>
    rw [hi, hj] at hrel
    cases hrel
  | some j =>
    rw [hi, hj] at hrel
    cases hrel with
    | some hij => exact ⟨j, rfl, hij⟩

end Retargeted

/-- A closed draft stays closed if the targets stay in it. -/
theorem Closed.retargeted (hd : d.Closed)
    (h : Retargeted (fun t u => t ∈ d.order → u ∈ d.order) d e) : e.Closed where
  allocated hx := by
    obtain ⟨i, hi⟩ := hd.allocated (h.order_eq ▸ hx)
    obtain ⟨j, hj, -⟩ := h.exists_right hi
    exact ⟨j, hj⟩
  placed hx hj u hu := by
    rw [h.order_eq] at hx ⊢
    obtain ⟨i, hi, hij⟩ := h.exists_left hj
    obtain ⟨t, ht, htu⟩ := hij.exists_left hu
    exact htu (hd.placed hx hi t ht)

/-! ## Drafts with redirected edges -/

/-- `e` is `d` with some edges led past instructions that one passes silently. -/
abbrev Redirected (d e : Draft) : Prop :=
  Retargeted d.Leads d e

namespace Redirected

variable {h x : Handle} {i j : Instr Handle}

/-- The places are those they were, and so are the successors. -/
theorem next_iff (hde : Redirected d e) {g : Handle} : e.Next h g ↔ d.Next h g := by
  rw [Next, Next, hde.order_eq]

/-- Other targets do not make an instruction silent or keep it from being so. -/
theorem rests_iff (hde : Redirected d e) : e.Rests h ↔ d.Rests h := by
  refine ⟨?_, ?_⟩
  · intro hyp
    obtain ⟨j, hj, hs⟩ := hyp
    obtain ⟨i, hi, hij⟩ := hde.exists_left hj
    exact ⟨i, hi, hij.silent_eq.symm.trans hs⟩
  · intro hyp
    obtain ⟨i, hi, hs⟩ := hyp
    obtain ⟨j, hj, hij⟩ := hde.exists_right hi
    exact ⟨j, hj, hij.silent_eq.trans hs⟩

/-- One lands with redirected edges where one landed before, after no more steps. -/
theorem lands_left (hde : Redirected d e) (hd : d.Sound) {n : Nat} (hl : d.Lands n h x) :
    ∃ k ≤ n, e.Lands k h x := by
  induction n using Nat.strongRecOn generalizing h with
  | _ n ih =>
    cases hl with
    | here hr => exact ⟨0, Nat.le_refl 0, .here (hde.rests_iff.2 hr)⟩
    | @pass n _ g _ hp hl =>
      rcases hp with hi | ⟨hi, hn⟩
      · obtain ⟨j, hj, hij⟩ := hde.exists_right hi
        cases hij with
        | @jump _ g' hlead =>
          obtain ⟨k, hk, hl'⟩ := hlead.lands hd hl
          obtain ⟨k', hk', hle⟩ := ih k (Nat.lt_succ_of_le hk) hl'
          exact ⟨k' + 1, by omega, .pass (.inl hj) hle⟩
      · obtain ⟨j, hj, hij⟩ := hde.exists_right hi
        cases hij
        obtain ⟨k, hk, hle⟩ := ih n (Nat.lt_succ_self n) hl
        exact ⟨k + 1, by omega, .pass (.inr ⟨hj, hde.next_iff.2 hn⟩) hle⟩

/-- One landed before where one lands with redirected edges. -/
theorem lands_right (hde : Redirected d e) {n : Nat} (hl : e.Lands n h x) : d.LandsOn h x := by
  induction hl with
  | here hr => exact (hde.rests_iff.1 hr).landsOn
  | pass hp _ ih =>
    rcases hp with hj | ⟨hj, hn⟩
    · obtain ⟨i, hi, hij⟩ := hde.exists_left hj
      cases hij with
      | jump hlead => exact (hlead.landsOn ih).pass (.inl hi)
    · obtain ⟨i, hi, hij⟩ := hde.exists_left hj
      cases hij
      exact ih.pass (.inr ⟨hi, hde.next_iff.1 hn⟩)

/-- Every instruction lands where it landed before. -/
theorem sameLanding (hde : Redirected d e) (hd : d.Sound) (h : Handle) : SameLanding d e h h := by
  intro x
  refine ⟨?_, ?_⟩
  · intro hyp
    obtain ⟨n, hl⟩ := hyp
    obtain ⟨k, -, hle⟩ := hde.lands_left hd hl
    exact ⟨k, hle⟩
  · intro hyp
    obtain ⟨n, hl⟩ := hyp
    exact hde.lands_right hl

/-- A draft with redirected edges is as sound as it was. -/
theorem sound (hde : Redirected d e) (hd : d.Sound) : e.Sound where
  nodup := hde.order_eq ▸ hd.nodup
  nonempty := hde.order_eq ▸ hd.nonempty
  allocated hh := by
    rw [hde.order_eq] at hh
    obtain ⟨i, hi⟩ := hd.allocated hh
    obtain ⟨j, hj, -⟩ := hde.exists_right hi
    exact ⟨j, hj⟩
  placed hh hj u hu := by
    rw [hde.order_eq] at hh ⊢
    obtain ⟨i, hi, hij⟩ := hde.exists_left hj
    obtain ⟨t, ht, hlead⟩ := hij.exists_left hu
    exact hlead.mem hd (hd.placed hh hi t ht)
  next hk hj hf := by
    rw [hde.order_eq] at hk ⊢
    obtain ⟨i, hi, hij⟩ := hde.exists_left hj
    exact hd.next hk hi (hij.fallsThrough_eq.symm.trans hf)

/-- A draft reduces to one with redirected edges. -/
theorem reduces (hde : Redirected d e) (hd : d.Sound) : Reduces d e where
  left := hd
  right := hde.sound hd
  sublist := hde.order_eq ▸ .refl _
  rests hh _ := hde.order_eq ▸ hh
  instr hh hi hj := by
    obtain ⟨i, hi', hij⟩ := hde.exists_left hj
    rw [hi] at hi'
    cases hi'
    refine hij.mono ?_
    intro t _ u hlead x
    refine Iff.trans ⟨?_, hlead.landsOn⟩ (hde.sameLanding hd u x)
    intro hyp
    obtain ⟨n, hl⟩ := hyp
    obtain ⟨k, -, hl'⟩ := hlead.lands hd hl
    exact ⟨k, hl'⟩
  landing _ := hde.sameLanding hd _
  start {h g} hh hg := by
    rw [hde.order_eq, hh] at hg
    cases hg
    exact hde.sameLanding hd h
  next {h g g' i} _ _ hn hn' := by
    obtain rfl := hd.next_unique hn (hde.next_iff.1 hn')
    exact hde.sameLanding hd g

end Redirected

/-! ## Redirecting one slot after the other -/

/-- Writing to the slot of one handle leaves those of the others. -/
theorem get?_set {slots : Array (Instr Handle)} {order : Array Handle} {h x : Handle}
    {i j : Instr Handle} (hi : slots[h.index]? = some i) :
    get? ⟨slots.setIfInBounds h.index j, order⟩ x =
      if x = h then some j else get? ⟨slots, order⟩ x := by
  obtain ⟨hlt, -⟩ := Array.getElem?_eq_some_iff.1 hi
  rw [get?, get?, Array.getElem?_setIfInBounds]
  by_cases hx : x = h
  · rw [if_pos hx, hx, if_pos rfl, if_pos hlt]
  · rw [if_neg hx, if_neg fun heq => hx (by cases x; cases h; cases heq; rfl)]

/-- Redirecting goes through, or it stops at an instruction that is missing or that has a target
which cannot be redirected; what every step preserves holds in the end, and where it stops. -/
theorem retargetSlots_cases {redirect : Array (Instr Handle) → Handle → Except Fault Handle}
    {motive : List Handle → Array (Instr Handle) → Prop}
    (step : ∀ x later slots i j, motive (x :: later) slots → slots[x.index]? = some i →
      i.traverse (redirect slots) = .ok j → motive later (slots.setIfInBounds x.index j))
    (hs : List Handle) (slots : Array (Instr Handle)) (h : motive hs slots) :
    (∃ slots', Edit.retargetSlots redirect hs slots = .ok () slots' ∧ motive [] slots') ∨
      ∃ slots' fault x later, Edit.retargetSlots redirect hs slots = .error fault slots' ∧
        motive (x :: later) slots' ∧ (slots'[x.index]? = none ∧ fault = .unallocated x ∨
          ∃ i, slots'[x.index]? = some i ∧ i.traverse (redirect slots') = .error fault) := by
  induction hs generalizing slots with
  | nil => exact .inl ⟨slots, rfl, h⟩
  | cons x later ih =>
    cases hi : slots[x.index]? with
    | none =>
      exact .inr ⟨slots, _, x, later, by simp only [Edit.retargetSlots, hi], h, .inl ⟨hi, rfl⟩⟩
    | some i =>
      cases hj : i.traverse (redirect slots) with
      | error fault =>
        exact .inr ⟨slots, fault, x, later, by simp only [Edit.retargetSlots, hi, hj], h,
          .inr ⟨i, hi, hj⟩⟩
      | ok j =>
        simp only [Edit.retargetSlots, hi, hj]
        exact ih _ (step x later slots i j h hi hj)

/-- What holds when the targets in the slots `hs` are still to be redirected: those of the other
placed instructions are of the desired kind. -/
structure Retargeting (d : Draft) (R : Handle → Handle → Prop) (kind : Handle → Prop)
    (hs : List Handle) (slots : Array (Instr Handle)) : Prop where
  retargeted : Retargeted R d ⟨slots, d.order⟩
  placed : ∀ x ∈ hs, x ∈ d.order
  targets : ∀ {x : Handle} {i : Instr Handle}, x ∈ d.order → x ∉ hs →
    get? ⟨slots, d.order⟩ x = some i → ∀ t ∈ i.targets, kind t

section

variable {redirect : Array (Instr Handle) → Handle → Except Fault Handle}
  {R : Handle → Handle → Prop} {kind : Handle → Prop}

/-- If targets are replaced by related ones of the desired kind, then the next instruction may be
rewritten. -/
theorem Retargeting.step (htrans : ∀ {t u v}, R t u → R u v → R t v)
    (hkind : ∀ e, Retargeted R d e → ∀ x ∈ d.order, ∀ i, e.get? x = some i → ∀ t ∈ i.targets,
      ∀ u, redirect e.slots t = .ok u → R t u ∧ kind u)
    {x : Handle} {hs : List Handle} {slots : Array (Instr Handle)} {i j : Instr Handle}
    (h : Retargeting d R kind (x :: hs) slots) (hi : slots[x.index]? = some i)
    (hj : i.traverse (redirect slots) = .ok j) :
    Retargeting d R kind hs (slots.setIfInBounds x.index j) := by
  obtain ⟨i₀, hi₀, hi₀i⟩ := h.retargeted.exists_left hi
  have hij : i.Rel (fun t u => R t u ∧ kind u) j :=
    (Instr.traverse_eq_ok_iff.1 hj).mono
      (hkind _ h.retargeted x (h.placed x List.mem_cons_self) i hi)
  refine ⟨⟨rfl, fun y => ?_⟩, fun y hy => h.placed y (List.mem_cons_of_mem _ hy),
    fun {y i'} hy hys hi' t ht => ?_⟩
  · rw [get?_set hi]
    split
    · rename_i hyx
      subst hyx
      rw [hi₀]
      refine .some ((hi₀i.trans hij).mono ?_)
      rintro t₀ - u ⟨t, ht, hu, -⟩
      exact htrans ht hu
    · exact h.retargeted.slots y
  · rw [get?_set hi] at hi'
    split at hi'
    -- `x` itself, which may have been rewritten before if it is placed more than once.
    · cases hi'
      obtain ⟨-, -, -, hk⟩ := hij.exists_left ht
      exact hk
    · rename_i hne
      exact h.targets hy (List.not_mem_cons_of_ne_of_not_mem hne hys) hi' t ht

/-- If targets are replaced by related ones of some kind, then in the end all targets of placed
instructions are of this kind, or the edit stops at an instruction that is missing or has a target
which cannot be redirected. Either way it leaves the instructions with related targets. -/
theorem retarget_cases (redirect : Array (Instr Handle) → Handle → Except Fault Handle)
    (R : Handle → Handle → Prop) (kind : Handle → Prop) (hrefl : ∀ t, R t t)
    (htrans : ∀ {t u v}, R t u → R u v → R t v)
    (hkind : ∀ e, Retargeted R d e → ∀ x ∈ d.order, ∀ i, e.get? x = some i → ∀ t ∈ i.targets,
      ∀ u, redirect e.slots t = .ok u → R t u ∧ kind u) :
    (∃ e, (Edit.retarget redirect).run d = .ok () e ∧ Retargeted R d e ∧
      ∀ {x : Handle} {i : Instr Handle}, x ∈ e.order → e.get? x = some i →
        ∀ t ∈ i.targets, kind t) ∨
    ∃ e fault, (Edit.retarget redirect).run d = .error fault e ∧ Retargeted R d e ∧
      ∃ x ∈ d.order, e.get? x = none ∧ fault = .unallocated x ∨
        ∃ i, e.get? x = some i ∧ ∃ t ∈ i.targets, redirect e.slots t = .error fault := by
  have hstart : Retargeting d R kind d.order.toList d.slots :=
    ⟨.refl hrefl d, fun x hx => Array.mem_toList_iff.1 hx,
      fun hx hx' => absurd (Array.mem_toList_iff.2 hx) hx'⟩
  rcases retargetSlots_cases (motive := Retargeting d R kind)
    (fun _ _ _ _ _ h hi hj => h.step (R := R) htrans hkind hi hj) _ _ hstart with
    ⟨slots, heq, h⟩ | ⟨slots, fault, x, later, heq, h, hfault⟩
  · have hrun : (Edit.retarget redirect).run d = .ok () ⟨slots, d.order⟩ := by
      simp only [EStateM.run, Edit.retarget, heq]
    exact .inl ⟨⟨slots, d.order⟩, hrun, h.retargeted, fun hx => h.targets hx List.not_mem_nil⟩
  · have hrun : (Edit.retarget redirect).run d = .error fault ⟨slots, d.order⟩ := by
      simp only [EStateM.run, Edit.retarget, heq]
    exact .inr ⟨⟨slots, d.order⟩, fault, hrun, h.retargeted, x, h.placed x List.mem_cons_self,
      hfault.imp_right fun hi => hi.imp fun _ => And.imp_right Instr.exists_of_traverse_eq_error⟩

/-- Where every target is replaced by itself, the slots stay as they are. -/
theorem retargetSlots_eq_self {slots : Array (Instr Handle)} {hs : List Handle}
    (h : ∀ x ∈ hs, ∃ i, slots[x.index]? = some i ∧ ∀ t ∈ i.targets, redirect slots t = .ok t) :
    Edit.retargetSlots redirect hs slots = .ok () slots := by
  induction hs with
  | nil => rfl
  | cons x hs ih =>
    obtain ⟨i, hi, htargets⟩ := h x List.mem_cons_self
    have htraverse : i.traverse (redirect slots) = .ok i := by
      refine Instr.traverse_eq_ok_iff.2 ((Instr.Rel.refl (fun _ => rfl) i).mono ?_)
      rintro t ht _ rfl
      exact htargets t ht
    have hset : slots.setIfInBounds x.index i = slots := by
      obtain ⟨hlt, rfl⟩ := Array.getElem?_eq_some_iff.1 hi
      rw [Array.setIfInBounds_def, dif_pos hlt, Array.set_getElem_self]
    simp only [Edit.retargetSlots, hi, htraverse, hset]
    exact ih fun y hy => h y (List.mem_cons_of_mem x hy)

/-- Where every target stays what it is, nothing changes. -/
theorem retarget_eq_self (h : ∀ x ∈ d.order, ∃ i, d.get? x = some i ∧
    ∀ t ∈ i.targets, redirect d.slots t = .ok t) :
    (Edit.retarget redirect).run d = .ok () d := by
  have hslots := retargetSlots_eq_self fun x hx => h x (Array.mem_toList_iff.1 hx)
  simp only [EStateM.run, Edit.retarget, hslots]

/-- In a sound draft, leading targets farther on their ways can only fail for the targets: none of
the instructions is missing. -/
theorem Sound.retarget_cases (hd : d.Sound)
    (redirect : Array (Instr Handle) → Handle → Except Fault Handle) (kind : Handle → Prop)
    (hkind : ∀ e, Redirected d e → ∀ t ∈ d.order, ∀ u, redirect e.slots t = .ok u →
      d.Leads t u ∧ kind u) :
    (∃ e, (Edit.retarget redirect).run d = .ok () e ∧ Redirected d e ∧
      ∀ {x : Handle} {i : Instr Handle}, x ∈ e.order → e.get? x = some i →
        ∀ t ∈ i.targets, kind t) ∨
    ∃ e fault, (Edit.retarget redirect).run d = .error fault e ∧ Redirected d e ∧
      ∃ t ∈ d.order, redirect e.slots t = .error fault := by
  have hplaced : ∀ e, Redirected d e → ∀ x ∈ d.order, ∀ i, e.get? x = some i →
      ∀ t ∈ i.targets, t ∈ d.order := by
    intro e hred x hx i hi t ht
    have hx' : x ∈ e.order := hred.order_eq ▸ hx
    exact hred.order_eq ▸ (hred.sound hd).placed hx' hi t ht
  rcases Draft.retarget_cases redirect d.Leads kind (fun _ => .refl) .trans
    fun e hred x hx i hi t ht => hkind e hred t (hplaced e hred x hx i hi t ht) with
    h | ⟨e, fault, heq, hred, x, hx, ⟨hnone, -⟩ | ⟨i, hi, t, ht, herror⟩⟩
  · exact .inl h
  · obtain ⟨i₀, hi₀⟩ := hd.allocated hx
    obtain ⟨i, hi, -⟩ := hred.exists_right hi₀
    exact absurd (hi.symm.trans hnone) (by simp)
  · exact .inr ⟨e, fault, heq, hred, t, hplaced e hred x hx i hi t ht, herror⟩

/-- If moreover every target can be led on, then the edit succeeds. -/
theorem Sound.retarget_eq_ok (hd : d.Sound)
    (redirect : Array (Instr Handle) → Handle → Except Fault Handle) (kind : Handle → Prop)
    (hkind : ∀ e, Redirected d e → ∀ t ∈ d.order,
      ∃ u, redirect e.slots t = .ok u ∧ d.Leads t u ∧ kind u) :
    ∃ e, (Edit.retarget redirect).run d = .ok () e ∧ Redirected d e ∧
      ∀ {x : Handle} {i : Instr Handle}, x ∈ e.order → e.get? x = some i →
        ∀ t ∈ i.targets, kind t := by
  have hkind' : ∀ e, Redirected d e → ∀ t ∈ d.order, ∀ u, redirect e.slots t = .ok u →
      d.Leads t u ∧ kind u := by
    intro e hred t ht u hu
    obtain ⟨u', hu', h⟩ := hkind e hred t ht
    cases hu'.symm.trans hu
    exact h
  rcases hd.retarget_cases redirect kind hkind' with h | ⟨e, fault, -, hred, t, ht, herror⟩
  · exact h
  · obtain ⟨u, hu, -⟩ := hkind e hred t ht
    cases hu.symm.trans herror

end

end PatternMachine.Draft
