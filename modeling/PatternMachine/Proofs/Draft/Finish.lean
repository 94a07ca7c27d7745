import PatternMachine.Draft.Finish
import PatternMachine.Proofs.Instr
import PatternMachine.Proofs.Machine.InRange

/-!
# Which drafts are programs

`Draft.Sound` collects what makes a draft a program: every instruction is placed once and has a
slot, every edge leads to a placed instruction, and the last instruction does not run off the end.
Duplicates aside, this is also needed: a draft can be finished exactly if it is closed and its last
instruction does not run off the end (`Draft.exists_finish_iff`). Whatever draft could be finished,
its program holds the placed instructions in order, each target replaced by a position at which it
is placed (`Draft.resolves_of_finish`), and is closed (`Draft.closed_of_finish`).
-/

namespace PatternMachine

/-! ## Successful traversals and tables -/

/-- A traversal of a list succeeds exactly with the list of what its steps return. -/
theorem mapM_eq_ok_iff {ε α β : Type} {f : α → Except ε β} {xs : List α} {ys : List β} :
    xs.mapM f = .ok ys ↔ List.Forall₂ (fun x y => f x = .ok y) xs ys := by
  induction xs generalizing ys with
  | nil =>
    rw [List.mapM_nil, List.forall₂_nil_left_iff]
    exact ⟨fun h => (Except.ok.inj h).symm, fun h => h ▸ rfl⟩
  | cons x xs ih =>
    rw [List.mapM_cons]
    cases hx : f x with
    | error e =>
      simp only [bind, Except.bind, reduceCtorEq, false_iff]
      intro h
      cases h with
      | cons hy _ => rw [hx] at hy; cases hy
    | ok y =>
      cases hxs : xs.mapM f with
      | error e =>
        simp only [bind, Except.bind, reduceCtorEq, false_iff]
        intro h
        cases h with
        | cons _ hys => rw [ih.2 hys] at hxs; cases hxs
      | ok ys' =>
        simp only [bind, Except.bind, pure, Except.pure, Except.ok.injEq]
        refine ⟨?_, ?_⟩
        · rintro rfl
          exact .cons hx (ih.1 hxs)
        · intro h
          cases h with
          | cons hy hys =>
            rw [hx] at hy
            rw [ih.2 hys] at hxs
            cases hy
            cases hxs
            rfl

/-- Elements that are all related to something make a related list. -/
theorem exists_forall₂ {α β : Type} {R : α → β → Prop} {xs : List α} (h : ∀ x ∈ xs, ∃ y, R x y) :
    ∃ ys, List.Forall₂ R xs ys := by
  induction xs with
  | nil => exact ⟨[], .nil⟩
  | cons x xs ih =>
    obtain ⟨y, hy⟩ := h x List.mem_cons_self
    obtain ⟨ys, hys⟩ := ih fun x' hx' => h x' (List.mem_cons_of_mem _ hx')
    exact ⟨y :: ys, .cons hy hys⟩

section

variable {α γ : Type} (key : γ → Handle) (val : γ → α)

/-- Of the entries with one key, the last one inserted counts. -/
theorem getElem?_foldl_insert (l : List γ) (table : Std.HashMap Handle α) (h : Handle) :
    (l.foldl (fun table a => table.insert (key a) (val a)) table)[h]? =
      ((l.reverse.find? fun a => key a = h).map val).or table[h]? := by
  induction l generalizing table with
  | nil => rfl
  | cons a l ih =>
    rw [List.foldl_cons, ih, List.reverse_cons, List.find?_append, Std.HashMap.getElem?_insert]
    cases hl : l.reverse.find? fun a => key a = h with
    | some c => rfl
    | none =>
      by_cases ha : key a = h
      · simp [ha]
      · simp [ha]

/-- What a table built from a list holds comes from the list. -/
theorem exists_of_table {l : List γ} {h : Handle} {v : α}
    (hv : (l.foldl (fun table a => table.insert (key a) (val a))
      (∅ : Std.HashMap Handle α))[h]? = some v) : ∃ a ∈ l, key a = h ∧ val a = v := by
  rw [getElem?_foldl_insert, Std.HashMap.getElem?_empty, Option.or_none,
    Option.map_eq_some_iff] at hv
  obtain ⟨a, ha, rfl⟩ := hv
  exact ⟨a, List.mem_reverse.1 (List.mem_of_find?_eq_some ha), by simpa using List.find?_some ha,
    rfl⟩

/-- A table built from a list holds every key of the list. -/
theorem exists_table {l : List γ} {a : γ} (ha : a ∈ l) :
    ∃ v, (l.foldl (fun table a => table.insert (key a) (val a))
      (∅ : Std.HashMap Handle α))[key a]? = some v := by
  rw [getElem?_foldl_insert, Std.HashMap.getElem?_empty, Option.or_none]
  cases hf : l.reverse.find? fun c => key c = key a with
  | some c => exact ⟨val c, rfl⟩
  | none =>
    rw [List.find?_eq_none] at hf
    exact absurd (by simp) (hf a (List.mem_reverse.2 ha))

end

namespace Draft

variable {d : Draft} {p : Program}

/-! ## Sound drafts -/

/-- The draft describes a program, with every instruction in one place. -/
structure Sound (d : Draft) : Prop where
  nodup : d.order.toList.Nodup
  nonempty : 0 < d.order.size
  allocated : ∀ {h : Handle}, h ∈ d.order → ∃ i, d.get? h = some i
  placed : ∀ {h : Handle} {i : Instr Handle}, h ∈ d.order → d.get? h = some i →
    ∀ t ∈ i.targets, t ∈ d.order
  next : ∀ {k : Nat} {h : Handle} {i : Instr Handle}, d.order[k]? = some h → d.get? h = some i →
    i.fallsThrough = true → k + 1 < d.order.size

/-- Every placed instruction has a slot and leads to placed instructions only. -/
structure Closed (d : Draft) : Prop where
  allocated : ∀ {h : Handle}, h ∈ d.order → ∃ i, d.get? h = some i
  placed : ∀ {h : Handle} {i : Instr Handle}, h ∈ d.order → d.get? h = some i →
    ∀ t ∈ i.targets, t ∈ d.order

/-- A sound draft has no loose ends. -/
theorem Sound.closed (hd : d.Sound) : d.Closed :=
  ⟨hd.allocated, hd.placed⟩

/-- Whether a draft has loose ends can be read off its placed instructions. -/
theorem closed_iff : d.Closed ↔
    ∀ h ∈ d.order.toList, (d.get? h).any fun i => i.targets.all fun t => t ∈ d.order.toList := by
  simp only [Option.any_eq_true, List.all_eq_true, decide_eq_true_eq, Array.mem_toList_iff]
  refine ⟨fun hd h hh => ?_, fun hall => ⟨fun hh => ?_, fun hh hi => ?_⟩⟩
  · obtain ⟨i, hi⟩ := hd.allocated hh
    exact ⟨i, hi, hd.placed hh hi⟩
  · obtain ⟨i, hi, -⟩ := hall _ hh
    exact ⟨i, hi⟩
  · obtain ⟨i, hi', htargets⟩ := hall _ hh
    cases hi.symm.trans hi'
    exact htargets

instance (d : Draft) : Decidable d.Closed :=
  decidable_of_iff _ closed_iff.symm

/-- The targets of the instruction in the slot of `h`, if there is one. -/
def targetsAt (d : Draft) (h : Handle) : List Handle :=
  (d.get? h).elim [] Instr.targets

/-- The targets named at a handle are those of its instruction. -/
theorem targetsAt_eq {h : Handle} {i : Instr Handle} (hi : d.get? h = some i) :
    d.targetsAt h = i.targets := by
  rw [targetsAt, hi, Option.elim_some]

/-- The targets of the placed instructions in order. -/
def edges (d : Draft) : List Handle :=
  d.order.toList.flatMap d.targetsAt

/-- The targets of a placed instruction are edges of the draft. -/
theorem mem_edges {h t : Handle} {i : Instr Handle} (hh : h ∈ d.order) (hi : d.get? h = some i)
    (ht : t ∈ i.targets) : t ∈ d.edges :=
  List.mem_flatMap.2 ⟨h, Array.mem_toList_iff.2 hh, targetsAt_eq hi ▸ ht⟩

/-- No handle is at two places. -/
theorem Sound.index_unique (hd : d.Sound) {k l : Nat} {h : Handle} (hk : d.order[k]? = some h)
    (hl : d.order[l]? = some h) : k = l := by
  rw [← Array.getElem?_toList] at hk hl
  exact (List.getElem?_inj (List.getElem?_eq_some_iff.1 hk).1 hd.nodup).1 (hk.trans hl.symm)

/-- The program has the placed instructions in order, with a position for every target. -/
structure Resolves (d : Draft) (p : Program) : Prop where
  size_eq : p.size = d.order.size
  code : ∀ {k : Nat} {h : Handle}, d.order[k]? = some h → ∃ i j, d.get? h = some i ∧
    p.code[k]? = some j ∧ i.Rel (fun t pos => d.order[pos]? = some t) j

/-! ## Positions -/

/-- A handle is placed at the position that the table has for it. -/
theorem getElem?_of_positions {order : List Handle} {h : Handle} {pos : Nat}
    (hp : (positions order)[h]? = some pos) : order[pos]? = some h := by
  obtain ⟨⟨h', pos'⟩, hmem, rfl, rfl⟩ := exists_of_table Prod.fst Prod.snd hp
  exact List.mem_zipIdx_iff_getElem?.1 hmem

/-- Every handle that is placed has a position. -/
theorem exists_positions {order : List Handle} {h : Handle} (hmem : h ∈ order) :
    ∃ pos, (positions order)[h]? = some pos := by
  obtain ⟨pos, hpos⟩ := List.getElem?_of_mem hmem
  have hmem : (h, pos) ∈ order.zipIdx := List.mem_zipIdx_iff_getElem?.2 hpos
  exact exists_table Prod.fst Prod.snd hmem

/-- Handles placed once have their places as positions. -/
theorem positions_eq_some_iff {order : List Handle} (hn : order.Nodup) {h : Handle} {pos : Nat} :
    (positions order)[h]? = some pos ↔ order[pos]? = some h := by
  refine ⟨getElem?_of_positions, fun hpos => ?_⟩
  obtain ⟨pos', hpos'⟩ := exists_positions (List.mem_of_getElem? hpos)
  have hplace := getElem?_of_positions hpos'
  have hlt := (List.getElem?_eq_some_iff.1 hplace).1
  rw [hpos', (List.getElem?_inj hlt hn).1 (hplace.trans hpos.symm)]

/-- A target is resolved to its position in the table. -/
theorem resolve_eq_ok_iff {table : Std.HashMap Handle Nat} {t : Handle} {pos : Nat} :
    resolve table t = .ok pos ↔ table[t]? = some pos := by
  unfold resolve
  split <;> rename_i h <;> simp [h]

/-! ## Finishing -/

/-- The instruction of `h` with positions for its targets. -/
def resolved (d : Draft) (h : Handle) : Except Fault (Instr Nat) := do
  (← d.get h).traverse (resolve (positions d.order.toList))

/-- A placed instruction is resolved to the instruction with the positions of its targets. -/
theorem resolved_eq_ok_iff {h : Handle} {j : Instr Nat} : d.resolved h = .ok j ↔
    ∃ i, d.get? h = some i ∧
      i.Rel (fun t pos => (positions d.order.toList)[t]? = some pos) j := by
  unfold resolved get
  cases hi : d.get? h with
  | none => simp [bind, Except.bind]
  | some i =>
    show i.traverse (resolve (positions d.order.toList)) = .ok j ↔ _
    rw [Instr.traverse_eq_ok_iff]
    simp only [resolve_eq_ok_iff, Option.some.injEq, exists_eq_left']

/-- A draft is finished exactly if all its placed instructions are resolved and the last one is
there and does not run off the end. -/
theorem finish_eq_ok_iff : d.finish = .ok p ↔
    List.Forall₂ (fun h j => d.resolved h = .ok j) d.order.toList p.code.toList ∧
      ∃ last, p.code.toList.getLast? = some last ∧ last.fallsThrough = false := by
  rw [← mapM_eq_ok_iff, finish]
  show d.order.toList.mapM d.resolved >>= _ = _ ↔ _
  cases hm : d.order.toList.mapM d.resolved with
  | error fault => simp [bind, Except.bind]
  | ok code =>
    simp only [bind, Except.bind, Except.ok.injEq]
    cases hl : code.getLast? with
    | none =>
      simp only [reduceCtorEq, false_iff]
      intro hyp
      obtain ⟨rfl, last, hlast, -⟩ := hyp
      rw [hl] at hlast
      cases hlast
    | some last =>
      cases hf : last.fallsThrough with
      | true =>
        simp only [hf, if_true, reduceCtorEq, false_iff]
        intro hyp
        obtain ⟨rfl, last', hlast, hf'⟩ := hyp
        rw [hl] at hlast
        cases hlast
        rw [hf] at hf'
        cases hf'
      | false =>
        simp only [hf, Bool.false_eq_true, if_false, pure, Except.pure, Except.ok.injEq]
        refine ⟨?_, ?_⟩
        · rintro rfl
          exact ⟨rfl, last, hl, hf⟩
        · intro hyp
          obtain ⟨rfl, -⟩ := hyp
          rfl

/-- A draft whose handles are placed once is finished with the places of its targets for them. -/
theorem finish_of_nodup (hn : d.order.toList.Nodup)
    (hcode : List.Forall₂ (fun h j => ∃ i, d.get? h = some i ∧
      i.Rel (fun t pos => d.order.toList[pos]? = some t) j) d.order.toList p.code.toList)
    {last : Instr Nat} (hlast : p.code.toList.getLast? = some last)
    (hf : last.fallsThrough = false) : d.finish = .ok p := by
  refine finish_eq_ok_iff.2 ⟨hcode.imp fun h j hj => ?_, last, hlast, hf⟩
  simpa only [resolved_eq_ok_iff, positions_eq_some_iff hn] using hj

/-- The instructions of a finished draft are in its program, in order. -/
theorem resolves_of_finish (h : d.finish = .ok p) : d.Resolves p := by
  obtain ⟨hall, -⟩ := finish_eq_ok_iff.1 h
  have hlen : d.order.size = p.code.size := by simpa using hall.length_eq
  refine ⟨hlen.symm, fun {k h} hk => ?_⟩
  obtain ⟨hlt, rfl⟩ := Array.getElem?_eq_some_iff.1 hk
  have hres := (List.forall₂_iff_get.1 hall).2 k (by simpa using hlt)
    (by simpa using hlen ▸ hlt)
  obtain ⟨i, hi, hrel⟩ := resolved_eq_ok_iff.1 hres
  refine ⟨i, _, by simpa using hi, ?_, hrel.mono fun t _ pos hpos => ?_⟩
  · rw [Array.getElem?_eq_getElem (hlen ▸ hlt)]
    simp
  · rw [← Array.getElem?_toList]
    exact getElem?_of_positions hpos

/-- Every finished program is closed. -/
theorem closed_of_finish (h : d.finish = .ok p) : p.Closed := by
  obtain ⟨-, last, hlast, hf⟩ := finish_eq_ok_iff.1 h
  have hres := resolves_of_finish h
  have hpos : 0 < p.size := by
    have : p.code.toList ≠ [] := fun h => by simp [h] at hlast
    simpa [Program.size, List.length_pos_iff] using List.length_pos_iff.2 this
  refine ⟨hpos, fun {pc j} hj t ht => ?_, fun {pc j} hj hfall => ?_⟩
  · obtain ⟨hlt, -⟩ := Array.getElem?_eq_some_iff.1 hj
    have hk : pc < d.order.size := hres.size_eq ▸ hlt
    obtain ⟨i, j', -, hj', hrel⟩ := hres.code (Array.getElem?_eq_getElem hk)
    cases hj.symm.trans hj'
    obtain ⟨s, -, hs⟩ := hrel.exists_left ht
    exact hres.size_eq ▸ (Array.getElem?_eq_some_iff.1 hs).1
  · obtain ⟨hlt, rfl⟩ := Array.getElem?_eq_some_iff.1 hj
    refine Nat.lt_of_le_of_ne hlt ?_
    intro heq
    rw [List.getLast?_eq_getElem?, Array.length_toList, Array.getElem?_toList] at hlast
    have : p.code.size - 1 = pc := by
      rw [Program.size] at heq
      omega
    rw [this, hj] at hlast
    cases hlast
    rw [hf] at hfall
    cases hfall

/-- A draft can be finished exactly if it is closed and its last instruction is there and does not
run off the end. -/
theorem exists_finish_iff : (∃ p, d.finish = .ok p) ↔ d.Closed ∧
    ∃ h i, d.order.back? = some h ∧ d.get? h = some i ∧ i.fallsThrough = false := by
  rw [Array.back?_eq_getElem?]
  refine ⟨?_, ?_⟩
  · rintro ⟨p, hp⟩
    have hres := resolves_of_finish hp
    have hclosed := closed_of_finish hp
    refine ⟨⟨fun hx => ?_, fun hx hi t ht => ?_⟩, ?_⟩
    · obtain ⟨k, hk⟩ := Array.getElem?_of_mem hx
      obtain ⟨i, j, hi, -⟩ := hres.code hk
      exact ⟨i, hi⟩
    · obtain ⟨k, hk⟩ := Array.getElem?_of_mem hx
      obtain ⟨i, j, hi', -, hrel⟩ := hres.code hk
      cases hi.symm.trans hi'
      obtain ⟨pos, -, hpos⟩ := hrel.exists_mem_right ht
      exact Array.mem_of_getElem? hpos
    · have hpos := hclosed.size_pos
      rw [hres.size_eq] at hpos
      have hk := Array.getElem?_eq_getElem (Nat.sub_lt hpos Nat.one_pos)
      obtain ⟨i, j, hi, hj, hrel⟩ := hres.code hk
      refine ⟨_, i, hk, hi, Bool.eq_false_iff.2 fun hf => ?_⟩
      have := hclosed.next_lt hj (hrel.fallsThrough_eq.trans hf)
      rw [hres.size_eq] at this
      omega
  · rintro ⟨hd, h, i, hlast, hi, hf⟩
    have hall : ∀ h ∈ d.order.toList, ∃ j, d.resolved h = .ok j := by
      intro h hh
      obtain ⟨i, hi⟩ := hd.allocated (Array.mem_toList_iff.1 hh)
      obtain ⟨j, hj⟩ := Instr.Rel.exists_right fun t ht =>
        exists_positions (Array.mem_toList_iff.2 (hd.placed (Array.mem_toList_iff.1 hh) hi t ht))
      exact ⟨j, resolved_eq_ok_iff.2 ⟨i, hi, hj⟩⟩
    obtain ⟨code, hcode⟩ := exists_forall₂ hall
    have hlen : d.order.size = code.length := by simpa using hcode.length_eq
    obtain ⟨hlt, rfl⟩ := Array.getElem?_eq_some_iff.1 hlast
    have hres := (List.forall₂_iff_get.1 hcode).2 (d.order.size - 1) (by simpa using hlt)
      (hlen ▸ hlt)
    obtain ⟨i', hi', hrel⟩ := resolved_eq_ok_iff.1 hres
    cases hi.symm.trans (by simpa using hi')
    refine ⟨⟨code.toArray⟩, finish_eq_ok_iff.2 ⟨hcode, _, ?_, hrel.fallsThrough_eq.trans hf⟩⟩
    have hlt' : code.length - 1 < code.length := hlen ▸ hlt
    simp [List.getLast?_eq_getElem?, hlen, hlt']

/-- A draft that could be finished is sound if no handle is placed twice. -/
theorem Sound.of_finish (h : d.finish = .ok p) (hn : d.order.toList.Nodup) : d.Sound := by
  have hres := resolves_of_finish h
  have hclosed := closed_of_finish h
  obtain ⟨hd, -⟩ := exists_finish_iff.1 ⟨p, h⟩
  refine ⟨hn, hres.size_eq ▸ hclosed.size_pos, hd.allocated, hd.placed, fun {k x i} hk hi hf => ?_⟩
  obtain ⟨i', j, hi', hj, hrel⟩ := hres.code hk
  cases hi.symm.trans hi'
  exact hres.size_eq ▸ hclosed.next_lt hj (hrel.fallsThrough_eq.trans hf)

/-- A sound draft can be finished. -/
theorem Sound.finish (hd : d.Sound) : ∃ p, d.finish = .ok p := by
  have hk := Array.getElem?_eq_getElem (Nat.sub_lt hd.nonempty Nat.one_pos)
  obtain ⟨i, hi⟩ := hd.allocated (Array.mem_of_getElem? hk)
  refine exists_finish_iff.2 ⟨hd.closed, _, i, Array.back?_eq_getElem?.trans hk, hi, ?_⟩
  refine Bool.eq_false_iff.2 fun hf => ?_
  have := hd.next hk hi hf
  omega

end Draft

end PatternMachine
