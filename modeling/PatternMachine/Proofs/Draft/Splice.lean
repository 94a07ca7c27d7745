import Mathlib.Data.List.Induction
import PatternMachine.Proofs.Draft.Finish
import PatternMachine.Proofs.Draft.Simplifications

/-!
# Splicing

What a draft says, however its handles are numbered, is its listing: the placed instructions in
order, each target replaced by the position at which it is placed last, if it is placed at all
(`Draft.listing`). The listing of a draft that can be finished is the code of its program
(`Draft.listing_of_finish`).

Splicing moves the slots of the fragment behind those of the draft and its places behind the placed
instructions, by different distances, since not every slot is placed. In a contained draft, whose
placed handles and their targets all have slots, no handle can come to name one of the new slots.
So the listing of the fragment is appended to that of the draft with its positions moved, and
nothing else changes (`Draft.splice_relocates`). A handle without a place in the fragment is left
without one.
-/

namespace PatternMachine

namespace Draft

variable {d f : Draft}

/-! ## Positions -/

/-- A handle placed last has the last position, whatever it had before. -/
theorem positions_concat (order : List Handle) (h : Handle) :
    positions (order ++ [h]) = (positions order).insert h order.length := by
  rw [positions, positions, List.zipIdx_append, List.foldl_append, Nat.zero_add]
  rfl

/-- Nothing has a position where nothing is placed. -/
theorem positions_nil (h : Handle) : (positions [])[h]? = none :=
  Std.HashMap.getElem?_empty

/-- A handle that is placed in the second part has its last position there. -/
theorem positions_append (xs ys : List Handle) (h : Handle) :
    (positions (xs ++ ys))[h]? =
      ((positions ys)[h]?.map (· + xs.length)).or (positions xs)[h]? := by
  induction ys using List.reverseRecOn with
  | nil => rw [List.append_nil, positions_nil, Option.map_none, Option.none_or]
  | append_singleton ys y ih =>
    rw [← List.append_assoc, positions_concat, positions_concat, Std.HashMap.getElem?_insert,
      Std.HashMap.getElem?_insert, ih, List.length_append]
    by_cases hy : y = h
    · simp [hy, Nat.add_comm]
    · simp [hy]

/-- New names for the handles move none of them, if no two are given one name. -/
theorem positions_map {g : Handle → Handle} (hg : Function.Injective g) (order : List Handle)
    (h : Handle) : (positions (order.map g))[g h]? = (positions order)[h]? := by
  induction order using List.reverseRecOn with
  | nil => rw [List.map_nil, positions_nil, positions_nil]
  | append_singleton order x ih =>
    rw [List.map_append, List.map_singleton, positions_concat, positions_concat,
      Std.HashMap.getElem?_insert, Std.HashMap.getElem?_insert, ih, List.length_map]
    by_cases hx : x = h
    · simp [hx]
    · simp [hx, hg.ne hx]

/-- What has no position is not placed. -/
theorem positions_eq_none_iff {order : List Handle} {h : Handle} :
    (positions order)[h]? = none ↔ h ∉ order := by
  refine ⟨fun hnone hmem => ?_, fun hmem => ?_⟩
  · obtain ⟨pos, hpos⟩ := exists_positions hmem
    cases hnone.symm.trans hpos
  · rw [Option.eq_none_iff_forall_ne_some]
    intro pos hpos
    exact hmem (List.mem_of_getElem? (getElem?_of_positions hpos))

/-- The last position at which `h` is placed. -/
def position? (d : Draft) (h : Handle) : Option Nat :=
  (positions d.order.toList)[h]?

/-- A handle without a position is not placed. -/
theorem position?_eq_none_iff {h : Handle} : d.position? h = none ↔ h ∉ d.order := by
  rw [position?, positions_eq_none_iff, Array.mem_toList_iff]

/-- No place of `h` is behind its position. -/
theorem position?_eq_some_iff {h : Handle} {pos : Nat} :
    d.position? h = some pos ↔
      d.order[pos]? = some h ∧ ∀ later, d.order[later]? = some h → later ≤ pos := by
  simp only [position?, ← Array.getElem?_toList]
  induction d.order.toList using List.reverseRecOn with
  | nil => simp [positions]
  | append_singleton order x ih =>
    rw [positions_concat, Std.HashMap.getElem?_insert]
    by_cases hx : x = h
    · have hlt : ∀ {k : Nat}, (order ++ [x])[k]? = some h → k ≤ order.length := fun hk => by
        simpa [Nat.lt_succ_iff] using (List.getElem?_eq_some_iff.1 hk).1
      have hlast : (order ++ [x])[order.length]? = some h := by simp [hx]
      simp only [hx, beq_self_eq_true, if_true, Option.some.injEq]
      refine ⟨?_, fun hpos => Nat.le_antisymm (hpos.2 _ (hx ▸ hlast)) (hlt (hx ▸ hpos.1))⟩
      rintro rfl
      exact ⟨hx ▸ hlast, fun later hlater => hlt (hx.symm ▸ hlater)⟩
    · have hplaced : ∀ k, (order ++ [x])[k]? = some h ↔ order[k]? = some h := fun k => by
        rw [List.getElem?_append]
        split
        · rfl
        · rename_i hge
          rw [List.getElem?_eq_none (Nat.le_of_not_lt hge)]
          simp [List.getElem?_singleton, hx]
      simp only [hplaced, beq_iff_eq, hx, if_false]
      exact ih

/-! ## Listings -/

/-- The instruction of `h` with the positions of its targets, where they have one. -/
def located (d : Draft) (h : Handle) : Option (Instr (Option Nat)) :=
  (d.get? h).map (Instr.map d.position?)

/-- The placed instructions in order, with the positions of their targets. -/
def listing (d : Draft) : List (Option (Instr (Option Nat))) :=
  d.order.toList.map d.located

/-- The listing of a finished draft is the code of its program. -/
theorem listing_of_finish {p : Program} (h : d.finish = .ok p) :
    d.listing = p.code.toList.map fun i => some (i.map some) := by
  obtain ⟨hall, -⟩ := finish_eq_ok_iff.1 h
  have hlocated : ∀ {h : Handle} {j : Instr Nat}, d.resolved h = .ok j →
      d.located h = some (j.map some) := fun hj => by
    obtain ⟨i, hi, hrel⟩ := resolved_eq_ok_iff.1 hj
    rw [located, hi]
    exact congrArg some (Instr.Rel.map_eq_map hrel)
  have hmap : ∀ {hs : List Handle} {js : List (Instr Nat)},
      List.Forall₂ (fun h j => d.resolved h = .ok j) hs js →
        hs.map d.located = js.map fun i => some (i.map some) := fun hjs => by
    induction hjs with
    | nil => rfl
    | cons hj _ ih => rw [List.map_cons, List.map_cons, hlocated hj, ih]
  exact hmap hall

/-- The placed handles and the targets of their instructions have slots. -/
structure Contained (d : Draft) : Prop where
  allocated : ∀ {h : Handle}, h ∈ d.order → h.index < d.slots.size
  targets : ∀ {h : Handle} {i : Instr Handle}, h ∈ d.order → d.get? h = some i →
    ∀ t ∈ i.targets, t.index < d.slots.size

/-! ## The spliced draft -/

/-- The draft with the slots and the places of `f` behind its own. -/
def spliced (d f : Draft) : Draft where
  slots := d.slots ++ (f.rebase d.slots.size).slots
  order := d.order ++ (f.rebase d.slots.size).order

/-- The slots of the fragment are added to those of the draft. -/
@[simp] theorem size_slots_spliced : (d.spliced f).slots.size = d.slots.size + f.slots.size := by
  simp [spliced, rebase]

/-- The places of the fragment are added to those of the draft. -/
@[simp] theorem size_spliced : (d.spliced f).size = d.size + f.size := by
  simp [spliced, rebase, size]

/-- The handles of the fragment are placed behind those of the draft, moved behind its slots. -/
theorem toList_order_spliced : (d.spliced f).order.toList =
    d.order.toList ++ f.order.toList.map (Handle.rebase d.slots.size) := by
  simp [spliced, rebase]

/-- Splicing succeeds if there is a first instruction. -/
theorem run_splice_of_entry {first : Handle} (h : f.entry? = some first) :
    (Edit.splice f).run d = .ok (first.rebase d.slots.size) (d.spliced f) := by
  have hentry : Draft.entry? (f.rebase d.slots.size) = some (first.rebase d.slots.size) := by
    rw [Draft.entry?] at h
    simp [Draft.entry?, rebase, h]
  unfold Edit.splice EStateM.run
  simp only [hentry, spliced]

/-- Splicing fails if there is no first instruction, but the slots have been moved by then. -/
theorem run_splice_of_empty (h : f.size = 0) :
    (Edit.splice f).run d = .error .empty (d.spliced f) := by
  have hentry : Draft.entry? (f.rebase d.slots.size) = none := by
    rw [size] at h
    simp [Draft.entry?, rebase, h]
  unfold Edit.splice EStateM.run
  simp only [hentry, spliced]

/-- Splicing adds slots and places, where it fails as well. -/
theorem leaves_splice : (Edit.splice f).leaves d = d.spliced f := by
  cases hf : f.entry? with
  | some first => exact Edit.leaves_of_ok (run_splice_of_entry hf)
  | none =>
    refine Edit.leaves_of_error (run_splice_of_empty ?_)
    simpa [Draft.entry?, size] using hf

/-! ## What is where -/

/-- The slots of the draft are not touched. -/
theorem get?_spliced_of_lt {h : Handle} (hlt : h.index < d.slots.size) :
    (d.spliced f).get? h = d.get? h :=
  Array.getElem?_append_left hlt

/-- The slots of the fragment hold its instructions with moved targets. -/
theorem get?_spliced_rebase (h : Handle) : (d.spliced f).get? (h.rebase d.slots.size) =
    (f.get? h).map (Instr.map (Handle.rebase d.slots.size)) := by
  simp only [get?, spliced, rebase, Handle.rebase]
  rw [Array.getElem?_append_right (Nat.le_add_left _ _), Nat.add_sub_cancel, Array.getElem?_map]

/-- Different handles move to different ones. -/
theorem injective_rebase (base : Nat) : Function.Injective (Handle.rebase base) := by
  intro h h' heq
  have hindex : h.index + base = h'.index + base := congrArg Handle.index heq
  cases h
  cases h'
  exact congrArg Handle.mk (Nat.add_right_cancel hindex)

/-- No handle of the fragment takes the place of one of the draft. -/
theorem position?_spliced_of_lt {h : Handle} (hlt : h.index < d.slots.size) :
    (d.spliced f).position? h = d.position? h := by
  have hmoved : h ∉ f.order.toList.map (Handle.rebase d.slots.size) := by
    rw [List.mem_map]
    rintro ⟨h', -, rfl⟩
    exact absurd hlt (Nat.not_lt.2 (Nat.le_add_left _ _))
  rw [position?, toList_order_spliced, positions_append, positions_eq_none_iff.2 hmoved,
    Option.map_none, Option.none_or, position?]

/-- A handle of the fragment is as far behind the draft as it was from the start. -/
theorem position?_spliced_rebase (hd : d.Contained) (h : Handle) :
    (d.spliced f).position? (h.rebase d.slots.size) = (f.position? h).map (· + d.size) := by
  have hold : h.rebase d.slots.size ∉ d.order.toList := fun hmem =>
    absurd (hd.allocated (Array.mem_toList_iff.1 hmem)) (Nat.not_lt.2 (Nat.le_add_left _ _))
  rw [position?, toList_order_spliced, positions_append, positions_eq_none_iff.2 hold,
    Option.or_none, positions_map (injective_rebase _), Array.length_toList]
  rfl

/-- The entry of a listing once `base` instructions have been placed in front of it. -/
def relocate (base : Nat) : Option (Instr (Option Nat)) → Option (Instr (Option Nat)) :=
  Option.map (Instr.map (Option.map (· + base)))

/-- What the draft has placed keeps its positions and those of its targets. -/
theorem located_spliced_of_mem (hd : d.Contained) {h : Handle} (hh : h ∈ d.order) :
    (d.spliced f).located h = d.located h := by
  rw [located, located, get?_spliced_of_lt (hd.allocated hh)]
  cases hi : d.get? h with
  | none => rfl
  | some i =>
    exact congrArg some (Instr.map_congr fun t ht =>
      position?_spliced_of_lt (hd.targets hh hi t ht))

/-- What the fragment has placed has moved positions, and so have its targets. -/
theorem located_spliced_rebase (hd : d.Contained) (h : Handle) :
    (d.spliced f).located (h.rebase d.slots.size) = relocate d.size (f.located h) := by
  rw [located, located, get?_spliced_rebase, relocate, Option.map_map, Option.map_map]
  refine congrArg (fun g => (f.get? h).map g) (funext fun i => ?_)
  rw [Function.comp_apply, Function.comp_apply, Instr.map_map, Instr.map_map]
  exact Instr.map_congr fun t _ => position?_spliced_rebase hd t

/-- The listing of the fragment stands behind that of the draft, moved by the length of that one. -/
theorem listing_spliced (hd : d.Contained) :
    (d.spliced f).listing = d.listing ++ f.listing.map (relocate d.size) := by
  rw [listing, toList_order_spliced, List.map_append, List.map_map, listing, listing, List.map_map]
  congr 1
  · exact List.map_congr_left fun h hh => located_spliced_of_mem hd (Array.mem_toList_iff.1 hh)
  · exact List.map_congr_left fun h _ => located_spliced_rebase hd h

/-- A contained draft stays contained when another one is spliced in. -/
theorem Contained.spliced (hd : d.Contained) (hf : f.Contained) : (d.spliced f).Contained := by
  have hcases : ∀ {h : Handle}, h ∈ (d.spliced f).order →
      h ∈ d.order ∨ ∃ h' ∈ f.order, h'.rebase d.slots.size = h := fun hh => by
    simpa [Draft.spliced, rebase] using hh
  have hlt : ∀ {h : Handle}, h.index < f.slots.size →
      (h.rebase d.slots.size).index < d.slots.size + f.slots.size := fun h => by
    rw [Handle.rebase, Nat.add_comm]
    exact Nat.add_lt_add_left h _
  constructor
  · intro h hh
    rw [size_slots_spliced]
    rcases hcases hh with hmem | ⟨h', hmem, rfl⟩
    · exact Nat.lt_add_right _ (hd.allocated hmem)
    · exact hlt (hf.allocated hmem)
  · intro h i hh hi t ht
    rw [size_slots_spliced]
    rcases hcases hh with hmem | ⟨h', hmem, rfl⟩
    · rw [get?_spliced_of_lt (hd.allocated hmem)] at hi
      exact Nat.lt_add_right _ (hd.targets hmem hi t ht)
    · rw [get?_spliced_rebase, Option.map_eq_some_iff] at hi
      obtain ⟨i, hi, rfl⟩ := hi
      rw [Instr.targets_map, List.mem_map] at ht
      obtain ⟨t, ht, rfl⟩ := ht
      exact hlt (hf.targets hmem hi t ht)

/-! ## Splicing in one fragment after the other -/

/-- What is left of the draft after one fragment after the other has been spliced in. -/
def splicedAll (d : Draft) (fragments : List Draft) : Draft :=
  fragments.foldl (fun d f => (Edit.splice f).leaves d) d

/-- The listings of the fragments, one behind the other, with `base` instructions in front. -/
def relocatedListings (base : Nat) : List Draft → List (Option (Instr (Option Nat)))
  | [] => []
  | f :: later => f.listing.map (relocate base) ++ relocatedListings (base + f.size) later

/-- So do the listings of several fragments, each behind the ones before it. -/
theorem splicedAll_spec (hd : d.Contained) {fragments : List Draft}
    (hall : ∀ f ∈ fragments, f.Contained) : (d.splicedAll fragments).Contained ∧
      (d.splicedAll fragments).listing = d.listing ++ relocatedListings d.size fragments := by
  induction fragments generalizing d with
  | nil => exact ⟨hd, (List.append_nil _).symm⟩
  | cons f later ih =>
    have hf := hall f List.mem_cons_self
    obtain ⟨hcontained, hlisting⟩ :=
      ih (hd.spliced hf) fun f' hf' => hall f' (List.mem_cons_of_mem _ hf')
    rw [splicedAll, List.foldl_cons, leaves_splice, relocatedListings, ← List.append_assoc,
      ← listing_spliced hd, ← size_spliced]
    exact ⟨hcontained, hlisting⟩

/-- Splicing appends the listing of the fragment with its positions moved behind the draft and
returns the handle of the first of its instructions. Without one it fails, and only slots have been
added. What a handle named before it still names, whether or not the fragment is the draft itself;
and in a chain of fragments each is moved behind all before it. -/
theorem splice_relocates (hd : d.Contained) (hf : f.Contained) :
    (0 < f.size → ∃ h e, (Edit.splice f).run d = .ok h e ∧
      e.listing = d.listing ++ f.listing.map (relocate d.size) ∧
      (f.order.toList.Nodup → e.position? h = some d.size)) ∧
    (f.size = 0 → ∃ e, (Edit.splice f).run d = .error .empty e ∧ e.listing = d.listing) ∧
    ((Edit.splice f).leaves d).slots.size = d.slots.size + f.slots.size ∧
    (∀ h : Handle, h.index < d.slots.size → ((Edit.splice f).leaves d).get? h = d.get? h) ∧
    ∀ later : List Draft, (∀ g ∈ later, g.Contained) →
      (d.splicedAll (f :: later)).Contained ∧
      (d.splicedAll (f :: later)).listing = d.listing ++ relocatedListings d.size (f :: later) := by
  rw [leaves_splice]
  refine ⟨fun hpos => ?_, fun hzero => ⟨_, run_splice_of_empty hzero, ?_⟩, size_slots_spliced,
    fun h => get?_spliced_of_lt, fun later hlater =>
    splicedAll_spec hd (List.forall_mem_cons.2 ⟨hf, hlater⟩)⟩
  · have hentry : f.entry? = some f.order[0] := Array.getElem?_eq_getElem hpos
    refine ⟨_, _, run_splice_of_entry hentry, listing_spliced hd, fun hn => ?_⟩
    have hfirst : f.position? f.order[0] = some 0 :=
      (positions_eq_some_iff hn).2 (by rw [Array.getElem?_toList]; exact hentry)
    rw [position?_spliced_rebase hd, hfirst, Option.map_some, Nat.zero_add]
  · have hnone : f.listing = [] := by
      rw [size, Array.size_eq_zero_iff] at hzero
      rw [listing, hzero, List.toList_toArray, List.map_nil]
    rw [listing_spliced hd, hnone, List.map_nil, List.append_nil]

/-- A draft with a slot that is not placed, to which its first instruction may lead. -/
def gapped : Draft where
  slots := #[.nop, .split ⟨2⟩ ⟨0⟩, .literal 'a', .jump ⟨1⟩]
  order := #[⟨1⟩, ⟨2⟩, ⟨3⟩]

/-- In its copy the first instruction leads to no place either, though its slot has moved. -/
theorem splice_relocates_itself : gapped.Contained ∧
    gapped.listing = [some (.split (some 1) none), some (.literal 'a'), some (.jump (some 0))] ∧
    ∃ h e, (Edit.splice gapped).run gapped = .ok h e ∧ e.position? h = some 3 ∧
      e.listing = gapped.listing ++
        [some (.split (some 4) none), some (.literal 'a'), some (.jump (some 3))] := by
  have hn : gapped.order.toList.Nodup := by decide
  have hcontained : gapped.Contained := by
    constructor
    · rintro h hh
      have hmem : h = ⟨1⟩ ∨ h = ⟨2⟩ ∨ h = ⟨3⟩ := by simpa [gapped] using hh
      rcases hmem with rfl | rfl | rfl <;> decide
    · rintro h i hh hi t ht
      have hmem : h = ⟨1⟩ ∨ h = ⟨2⟩ ∨ h = ⟨3⟩ := by simpa [gapped] using hh
      rcases hmem with rfl | rfl | rfl <;> cases hi
      · rcases List.mem_pair.1 ht with rfl | rfl <;> decide
      · cases ht
      · cases List.mem_singleton.1 ht
        decide
  have hlisting : gapped.listing =
      [some (.split (some 1) none), some (.literal 'a'), some (.jump (some 0))] := by
    have hzero : gapped.position? ⟨0⟩ = none := position?_eq_none_iff.2 (by simp [gapped])
    have hone : gapped.position? ⟨1⟩ = some 0 := (positions_eq_some_iff hn).2 rfl
    have htwo : gapped.position? ⟨2⟩ = some 1 := (positions_eq_some_iff hn).2 rfl
    show [some (Instr.split (gapped.position? ⟨2⟩) (gapped.position? ⟨0⟩)), some (.literal 'a'),
      some (.jump (gapped.position? ⟨1⟩))] = _
    rw [hzero, hone, htwo]
  obtain ⟨hok, -⟩ := splice_relocates hcontained hcontained
  obtain ⟨h, e, hrun, hlisting', hfirst⟩ := hok (by decide)
  refine ⟨hcontained, hlisting, h, e, hrun, hfirst hn, ?_⟩
  rw [hlisting', hlisting]
  rfl

end Draft

end PatternMachine
