import Mathlib.Data.List.FinRange
import PatternMachine.Draft.Jumps
import PatternMachine.Proofs.Draft.Nops

/-!
# Shortening jumps keeps the answers

A chain of jumps that arrives anywhere passes every placed instruction at most once, so it is
shorter than the order (`Sound.lands_lt`) and `Draft.destination` follows it to its end. Hence
`Edit.shortcutJumps` succeeds on every sound draft in which every edge lands
(`Sound.shortcutJumps_eq_ok`), and on any other one it may stop half-way but does no harm
(`Sound.shortcutJumps_cases`). `Edit.dropDeadJumps` keeps exact counts of the references to every
instruction (`reduces_dropDead`), so that what it drops is neither a target nor run into
(`Sound.dropDeadJumps_eq_ok`).
-/

namespace PatternMachine.Draft

variable {d e : Draft}

/-! ## Chains of jumps -/

/-- If every number up to `n` belongs to an element of the list, and only one number to each, then
the list has more than `n` elements. -/
theorem lt_length_of_ranks {α : Type} {l : List α} {n : Nat} {rank : Nat → α → Prop}
    (hex : ∀ k ≤ n, ∃ a ∈ l, rank k a) (huniq : ∀ {a k m}, rank k a → rank m a → k = m) :
    n < l.length := by
  have hall : ∀ k : Fin (n + 1), ∃ a, a ∈ l ∧ rank k a := fun k => hex k (Nat.lt_succ_iff.1 k.2)
  choose f hmem hrank using hall
  have hinj : Function.Injective f := fun k m heq => Fin.ext (huniq (hrank k) (heq ▸ hrank m))
  have hsub : List.ofFn f ⊆ l := fun a ha => by
    obtain ⟨k, rfl⟩ := (List.mem_ofFn' f a).1 ha
    exact hmem k
  have hle := (List.nodup_ofFn.2 hinj).length_le_of_subset hsub
  rwa [List.length_ofFn] at hle

/-- The ways from the placed instructions pass no instruction twice. -/
theorem Sound.lands_lt (hd : d.Sound) {n : Nat} {h x : Handle} (hh : h ∈ d.order)
    (hl : d.Lands n h x) : n < d.order.size := by
  have hpassed : ∀ k ≤ n, ∃ g ∈ d.order.toList, d.Lands k g x := by
    induction hl with
    | @here h hr =>
      intro k hk
      obtain rfl := Nat.le_zero.1 hk
      exact ⟨h, Array.mem_toList_iff.2 hh, .here hr⟩
    | @pass n h _ x hp hl ih =>
      intro k hk
      rcases Nat.le_succ_iff.1 hk with hk | rfl
      · exact ih (hd.mem_of_passes hh hp) k hk
      · exact ⟨h, Array.mem_toList_iff.2 hh, .pass hp hl⟩
  rw [← Array.length_toList]
  exact lt_length_of_ranks hpassed fun hk hm => (hd.lands_unique hk hm).1

/-- A chain of jumps leads from `t` to `u`. -/
def Chain (d : Draft) : (t u : Handle) → Prop :=
  Relation.ReflTransGen fun t u => d.get? t = some (.jump u)

/-- Along a chain of jumps one passes silently. -/
theorem Chain.leads {t u : Handle} (h : d.Chain t u) : d.Leads t u :=
  h.lift id fun _ _ => .inl

/-- In a draft without loose ends a chain of jumps stays among the placed instructions. -/
theorem Closed.mem_of_chain (hd : d.Closed) {t u : Handle} (h : d.Chain t u) (ht : t ∈ d.order) :
    u ∈ d.order := by
  induction h with
  | refl => exact ht
  | tail _ hi ih => exact hd.placed ih hi _ (List.mem_singleton_self _)

/-- What is found stands at the end of a chain of jumps and is none itself. -/
theorem destination_eq_ok {start : Handle} {steps : Nat} {t u : Handle}
    (h : destination d.slots start steps t = .ok u) :
    d.Chain t u ∧ ∃ i, d.get? u = some i ∧ i.isJump = false := by
  induction steps generalizing t with
  | zero => cases h
  | succ steps ih =>
    rw [destination] at h
    cases hi : d.get? t with
    | none =>
      rw [show d.slots[t.index]? = none from hi] at h
      cases h
    | some i =>
      rw [show d.slots[t.index]? = some i from hi] at h
      cases i with
      | jump g => exact (ih h).imp_left (.head hi)
      | literal | any | accept | split | nop =>
        cases h
        exact ⟨.refl, _, hi, rfl⟩

/-- In a closed draft a chain of jumps is followed to its end, or it is said to never end. -/
theorem Closed.destination_eq_error (hd : d.Closed) {start : Handle} {steps : Nat} {t : Handle}
    {fault : Fault} (ht : t ∈ d.order) (h : destination d.slots start steps t = .error fault) :
    fault = .jumpCycle start := by
  induction steps generalizing t with
  | zero =>
    cases h
    rfl
  | succ steps ih =>
    obtain ⟨i, hi⟩ := hd.allocated ht
    rw [destination, show d.slots[t.index]? = some i from hi] at h
    cases i with
    | jump g => exact ih (hd.placed ht hi g (List.mem_singleton_self g)) h
    | literal | any | accept | split | nop => cases h

/-- A chain of jumps that lands within the number of steps allowed is not said to never end. -/
theorem destination_ne_jumpCycle {n : Nat} {t x : Handle} (hl : d.Lands n t x) {steps : Nat}
    (hn : n < steps) (start : Handle) :
    destination d.slots start steps t ≠ .error (.jumpCycle start) := by
  induction steps generalizing n t with
  | zero => omega
  | succ steps ih =>
    intro herror
    rw [destination] at herror
    cases hl with
    | here hr =>
      obtain ⟨i, hi, hs⟩ := hr
      rw [get?] at hi
      rw [hi] at herror
      cases i with
      | jump => cases hs
      | literal | any | accept | split | nop => cases herror
    | pass hp hl =>
      rcases hp with hj | ⟨hnop, -⟩
      · rw [get?] at hj
        rw [hj] at herror
        exact ih hl (by omega) herror
      · rw [get?] at hnop
        rw [hnop] at herror
        cases herror

/-- The way from a handle in a draft with redirected edges is one of the draft it was made from. -/
theorem Redirected.leads (hde : Redirected d e) {t u : Handle} (h : e.Leads t u) : d.Leads t u := by
  induction h with
  | refl => exact .refl
  | tail _ hp ih =>
    refine ih.trans ?_
    rcases hp with hj | ⟨hn, hnext⟩
    · obtain ⟨i, hi, hij⟩ := hde.exists_left hj
      cases hij with
      | jump hlead => exact hlead.head (.inl hi)
    · obtain ⟨i, hi, hij⟩ := hde.exists_left hn
      cases hij
      exact .single (.inr ⟨hi, hde.next_iff.1 hnext⟩)

/-- Chains of jumps can be cut short in every sound draft, unless one of them never ends; and even
then the answers are kept. -/
theorem Sound.shortcutJumps_cases (hd : d.Sound) :
    (∃ e, Edit.shortcutJumps.run d = .ok () e ∧ Reduces d e) ∨
    ∃ e t, Edit.shortcutJumps.run d = .error (.jumpCycle t) e ∧ Redirected d e ∧ t ∈ d.order ∧
      destination e.slots t (d.size + 1) t = .error (.jumpCycle t) := by
  have hkind : ∀ e, Redirected d e → ∀ t ∈ d.order, ∀ u,
      destination e.slots t (d.size + 1) t = .ok u → d.Leads t u ∧ True :=
    fun e hred t _ u hu => ⟨hred.leads (destination_eq_ok hu).1.leads, trivial⟩
  rcases hd.retarget_cases (fun slots t => destination slots t (d.size + 1) t) (fun _ => True)
    hkind with ⟨e, heq, hred, -⟩ | ⟨e, fault, heq, hred, t, ht, herror⟩
  · exact .inl ⟨e, heq, hred.reduces hd⟩
  · have hte : t ∈ e.order := hred.order_eq ▸ ht
    obtain rfl := (hred.sound hd).closed.destination_eq_error hte herror
    exact .inr ⟨e, t, heq, hred, ht, herror⟩

/-- If every edge lands, then no chain of jumps goes on for ever. -/
theorem Sound.shortcutJumps_eq_ok (hd : d.Sound) (hland : ∀ h ∈ d.order, ∃ x, d.LandsOn h x) :
    ∃ e, Edit.shortcutJumps.run d = .ok () e ∧ Reduces d e := by
  rcases hd.shortcutJumps_cases with ⟨e, heq, hred⟩ | ⟨e, t, -, hred, ht, herror⟩
  · exact ⟨e, heq, hred⟩
  · obtain ⟨x, n, hl⟩ := hland t ht
    obtain ⟨k, hk, hl'⟩ := hred.lands_left hd hl
    have hlt : n < d.size := hd.lands_lt ht hl
    exact absurd herror (destination_ne_jumpCycle hl' (by omega) t)

/-! ## Unreachable jumps -/

/-- Counting a list adds its number of occurrences to every count. -/
theorem getD_foldl_insert_add (l : List Handle) (counts : Std.HashMap Handle Nat) (h : Handle) :
    (l.foldl (fun counts t => counts.insert t (counts.getD t 0 + 1)) counts).getD h 0 =
      counts.getD h 0 + l.count h := by
  induction l generalizing counts with
  | nil => rfl
  | cons t l ih =>
    rw [List.foldl_cons, ih, Std.HashMap.getD_insert, List.count_cons]
    by_cases hth : t = h
    · subst hth
      simp
      omega
    · simp [hth]

/-- The counts are how often each handle is a target of the placed instructions. -/
theorem getD_references (placed : List (Handle × Instr Handle)) (h : Handle) :
    (references placed).getD h 0 = (placed.flatMap fun p => p.2.targets).count h := by
  rw [references, getD_foldl_insert_add, Std.HashMap.getD_empty, Nat.zero_add]

/-- Releasing references takes their number from every count, or what there is of it. -/
theorem getD_release (l : List Handle) (counts : Std.HashMap Handle Nat) (h : Handle) :
    (release counts l).getD h 0 = counts.getD h 0 - l.count h := by
  unfold release
  induction l generalizing counts with
  | nil => rfl
  | cons t l ih =>
    rw [List.foldl_cons, ih, Std.HashMap.getD_insert, List.count_cons]
    by_cases hth : t = h
    · subst hth
      simp
      omega
    · simp [hth]

/-- Exact counts stay exact if a placed instruction goes and its references are released. -/
theorem getD_release_targets {counts : Std.HashMap Handle Nat}
    {before after : List (Handle × Instr Handle)} {p q : Handle × Instr Handle}
    (hcounts : ∀ h, counts.getD h 0 =
      ((before ++ q :: p :: after).flatMap fun r => r.2.targets).count h) (h : Handle) :
    (release counts p.2.targets).getD h 0 =
      ((before ++ q :: after).flatMap fun r => r.2.targets).count h := by
  rw [getD_release, hcounts]
  simp only [List.flatMap_append, List.flatMap_cons, List.count_append]
  omega

/-- The draft with `slots` whose order is that of the list `placed`. -/
def listed (slots : Array (Instr Handle)) (placed : List (Handle × Instr Handle)) : Draft :=
  ⟨slots, (placed.map Prod.fst).toArray⟩

/-- Some of the placed instructions are listed by the draft that places only them. -/
theorem Lists.of_sublist {placed kept : List (Handle × Instr Handle)} (hp : d.Lists placed)
    (hsub : kept.Sublist placed) : (listed d.slots kept).Lists kept where
  handles := rfl
  instr p hmem := hp.instr p (hsub.subset hmem)

/-- A jump behind another jump may be dropped if no edge leads to it. -/
theorem drops_dead {slots : Array (Instr Handle)} {before after : List (Handle × Instr Handle)}
    {p q : Handle × Instr Handle} (hd : (listed slots (before ++ q :: p :: after)).Sound)
    (hinstr : ∀ r ∈ before ++ q :: p :: after, slots[r.1.index]? = some r.2)
    (hp : p.2.isJump = true) (hq : q.2.isJump = true)
    (hdead : p.1 ∉ (before ++ q :: p :: after).flatMap fun r => r.2.targets) :
    Drops (listed slots (before ++ q :: p :: after)) (listed slots (before ++ q :: after)) p.1 where
  sound := hd
  slots_eq := rfl
  places := ⟨(before ++ [q]).map Prod.fst, after.map Prod.fst, by simp [listed], by simp [listed]⟩
  silent := fun hi => by
    have hi' := hinstr p (by simp)
    rw [show slots[p.1.index]? = some _ from hi] at hi'
    cases hi'
    rw [Instr.silent, hp]
    rfl
  unnamed := fun {h i} hh hi ht => by
    obtain ⟨r, hr, rfl⟩ := List.mem_map.1 (List.mem_toArray.1 hh)
    have hr : r ∈ before ++ q :: p :: after := by
      simp only [List.mem_append, List.mem_cons] at hr ⊢
      tauto
    have hi' := hinstr r hr
    rw [show slots[r.1.index]? = some _ from hi] at hi'
    cases hi'
    exact hdead (List.mem_flatMap.2 ⟨r, hr, ht⟩)
  entered := .inr ⟨q.1, q.2, ⟨before.length, by simp [listed], by simp [listed]⟩,
    hinstr q (by simp), Instr.fallsThrough_of_isJump hq⟩

/-- While the counts of the references are exact, every jump that is dropped may be dropped. -/
theorem reduces_dropDead (slots : Array (Instr Handle)) (counts : Std.HashMap Handle Nat)
    (after before : List (Handle × Instr Handle))
    (hd : (listed slots (before.reverse ++ after)).Sound)
    (hinstr : ∀ p ∈ before.reverse ++ after, slots[p.1.index]? = some p.2)
    (hcounts : ∀ h, counts.getD h 0 =
      ((before.reverse ++ after).flatMap fun p => p.2.targets).count h) :
    Reduces (listed slots (before.reverse ++ after))
      (listed slots (dropDead counts after before)) := by
  fun_induction dropDead counts after before with
  | case1 counts after p q rest hdrop ih =>
    simp only [Bool.and_eq_true, beq_iff_eq] at hdrop
    obtain ⟨⟨hp, hq⟩, hzero⟩ := hdrop
    have hplaced : (p :: q :: rest).reverse ++ after = rest.reverse ++ q :: p :: after := by simp
    have hplaced' : (q :: rest).reverse ++ after = rest.reverse ++ q :: after := by simp
    rw [hplaced] at hd hinstr hcounts ⊢
    rw [hplaced'] at ih
    have hdrops := drops_dead hd hinstr hp hq (List.count_eq_zero.1 (hcounts p.1 ▸ hzero))
    refine hdrops.reduces.trans
      (ih hdrops.sound_right (fun r hr => hinstr r ?_) (getD_release_targets hcounts))
    simp only [List.mem_append, List.mem_cons] at hr ⊢
    tauto
  | case2 counts after p q rest _ ih =>
    have hplaced : (p :: q :: rest).reverse ++ after = (q :: rest).reverse ++ p :: after := by simp
    rw [hplaced] at hd hinstr hcounts ⊢
    exact ih hd hinstr hcounts
  | case3 counts after p => exact .refl hd
  | case4 counts after => exact .refl hd

/-- Dropping unreachable jumps succeeds where the placed instructions can be listed, and rearranges
nothing but their order. -/
theorem dropDeadJumps_eq_ok_iff : Edit.dropDeadJumps.run d = .ok () e ↔ ∃ placed, d.Lists placed ∧
    listed d.slots (dropDead (references placed) [] placed.reverse) = e := by
  refine ⟨fun h => ?_, ?_⟩
  · change Edit.dropDeadJumps d = _ at h
    cases hplaced : d.instructions with
    | error fault => simp only [Edit.dropDeadJumps, hplaced, reduceCtorEq] at h
    | ok placed =>
      simp only [Edit.dropDeadJumps, hplaced] at h
      cases h
      exact ⟨placed, instructions_eq_ok_iff.1 hplaced, rfl⟩
  · rintro ⟨placed, hp, rfl⟩
    show Edit.dropDeadJumps d = _
    simp only [Edit.dropDeadJumps, instructions_eq_ok_iff.2 hp]
    rfl

/-- Unreachable jumps can be dropped from every sound draft, and this keeps the answers. -/
theorem Sound.dropDeadJumps_eq_ok (hd : d.Sound) :
    ∃ e, Edit.dropDeadJumps.run d = .ok () e ∧ Reduces d e := by
  obtain ⟨placed, hp⟩ := exists_lists fun _ => hd.allocated
  have hlisted : listed d.slots (placed.reverse.reverse ++ []) = d := by
    rw [listed, List.append_nil, List.reverse_reverse, hp.handles]
  refine ⟨_, dropDeadJumps_eq_ok_iff.2 ⟨placed, hp, rfl⟩, ?_⟩
  have := reduces_dropDead d.slots (references placed) [] placed.reverse
    (by rw [hlisted]; exact hd) (fun p hmem => hp.instr p (by simpa using hmem)) fun h => by
      rw [getD_references, List.append_nil, List.reverse_reverse]
  rwa [hlisted] at this

end PatternMachine.Draft
