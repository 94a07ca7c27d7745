import PatternMachine.Proofs.Draft.Jumps

/-!
# Only unreachable jumps are dropped

`Edit.dropDeadJumps` looks at the placed instructions from the last one on and drops some of them
from the order it walks through. `Draft.Pruning` is what it holds between two turns, and
`Pruning.turn` makes one turn (`dropDead_eq_turns`). Before every turn the counts are those of the
draft as it is then (`Pruning.Exact`), although a dropped jump may have been the only one that led
to a jump before it, or may lead to itself. So no count is ever taken below zero
(`Pruning.Exact.safe`), and nothing that is left leads to what was dropped (`Draft.Pruned`).

Nothing is assumed of the draft but that its placed instructions have slots. There may be `nop`s
and chains of jumps in it, and a handle may be placed more than once.
-/

namespace PatternMachine.Draft

variable {d e : Draft} {placed : List (Handle × Instr Handle)}

/-! ## Turns -/

/-- What is held between two turns: how often each handle is a target, what has been kept, and what
is still to be looked at, the last placed first. -/
structure Pruning where
  counts : Std.HashMap Handle Nat
  after : List (Handle × Instr Handle)
  before : List (Handle × Instr Handle)

namespace Pruning

/-- What is held before the first turn. -/
def start (placed : List (Handle × Instr Handle)) : Pruning :=
  ⟨references placed, [], placed.reverse⟩

/-- The instructions that are still placed. -/
def remaining (s : Pruning) : List (Handle × Instr Handle) :=
  s.before.reverse ++ s.after

/-- The draft as it is between two turns. -/
def draft (slots : Array (Instr Handle)) (s : Pruning) : Draft :=
  listed slots s.remaining

/-- Drops the last of what is to be looked at, or keeps it. -/
def turn : Pruning → Pruning
  | ⟨counts, after, p :: q :: rest⟩ =>
    if p.2.isJump && q.2.isJump && counts.getD p.1 0 == 0 then
      ⟨release counts p.2.targets, after, q :: rest⟩
    else ⟨counts, p :: after, q :: rest⟩
  | s => s

end Pruning

/-- Unreachable jumps are removed in as many turns as there are instructions behind the first. -/
theorem dropDead_eq_turns (counts : Std.HashMap Handle Nat)
    (after before : List (Handle × Instr Handle)) : dropDead counts after before =
      (Pruning.turn^[before.length - 1] ⟨counts, after, before⟩).remaining := by
  fun_induction dropDead counts after before with
  | case1 counts after p q rest hdrop ih =>
    show _ = (Pruning.turn^[rest.length + 1] _).remaining
    rw [Function.iterate_succ_apply, Pruning.turn, if_pos hdrop]
    exact ih
  | case2 counts after p q rest hkeep ih =>
    show _ = (Pruning.turn^[rest.length + 1] _).remaining
    rw [Function.iterate_succ_apply, Pruning.turn, if_neg hkeep]
    exact ih
  | case3 => rfl
  | case4 => rfl

/-- A jump is placed at `k`. -/
def JumpAt (d : Draft) (k : Nat) : Prop :=
  ∃ h i, d.order[k]? = some h ∧ d.get? h = some i ∧ i.isJump = true

/-- `e` is `d` without its places `dropped`, the last of which is left out first. At each of them
there was a jump behind another one, and no edge of `e` leads to it. -/
structure Pruned (d e : Draft) (dropped : List Nat) : Prop where
  slots_eq : e.slots = d.slots
  order_eq : e.order.toList = dropped.foldl List.eraseIdx d.order.toList
  descending : dropped.Pairwise (· > ·)
  behind : ∀ k ∈ dropped, ∃ j, k = j + 1 ∧ d.JumpAt j ∧ d.JumpAt k
  unnamed : ∀ k ∈ dropped, ∀ h, d.order[k]? = some h → h ∉ e.edges

/-- No edges are added if instructions are taken out. -/
theorem edges_subset (hslots : e.slots = d.slots) (horder : e.order.toList ⊆ d.order.toList) :
    e.edges ⊆ d.edges := by
  intro t ht
  obtain ⟨h, hh, ht⟩ := List.mem_flatMap.1 ht
  rw [targetsAt, get?, hslots] at ht
  exact List.mem_flatMap.2 ⟨h, horder hh, ht⟩

/-- Before the first turn nothing has been dropped. -/
theorem Pruned.refl (d : Draft) : d.Pruned d [] where
  slots_eq := rfl
  order_eq := rfl
  descending := .nil
  behind := by simp
  unnamed := by simp

/-- One more jump behind a jump may be dropped if no edge leads to it any more. -/
theorem Pruned.drop {e' : Draft} {dropped : List Nat} {j : Nat} (h : d.Pruned e dropped)
    (hslots : e'.slots = e.slots) (horder : e'.order.toList = e.order.toList.eraseIdx (j + 1))
    (hlast : ∀ k ∈ dropped, j + 1 < k) (hbehind : d.JumpAt j ∧ d.JumpAt (j + 1))
    (hdead : ∀ h, d.order[j + 1]? = some h → h ∉ e.edges) :
    d.Pruned e' (dropped ++ [j + 1]) where
  slots_eq := hslots.trans h.slots_eq
  order_eq := by rw [List.foldl_concat, ← h.order_eq, horder]
  descending := by
    refine List.pairwise_append.2 ⟨h.descending, List.pairwise_singleton _ _, ?_⟩
    simpa using hlast
  behind := List.forall_mem_append.2
    ⟨h.behind, List.forall_mem_singleton.2 ⟨j, rfl, hbehind⟩⟩
  unnamed := by
    have hsubset : e'.edges ⊆ e.edges :=
      edges_subset hslots (horder ▸ List.eraseIdx_subset)
    refine List.forall_mem_append.2 ⟨fun k hk g hg hmem => ?_, ?_⟩
    · exact h.unnamed k hk g hg (hsubset hmem)
    · exact List.forall_mem_singleton.2 fun g hg hmem => hdead g hg (hsubset hmem)

/-- A draft that can be finished still can without an instruction behind a jump to which no edge
leads. -/
theorem exists_finish_drop {slots : Array (Instr Handle)}
    {before after : List (Handle × Instr Handle)} {p q : Handle × Instr Handle}
    (hp : (listed slots (before ++ q :: p :: after)).Lists (before ++ q :: p :: after))
    (hq : q.2.isJump = true) (hdead : p.1 ∉ (listed slots (before ++ q :: p :: after)).edges)
    (hf : ∃ program, (listed slots (before ++ q :: p :: after)).finish = .ok program) :
    ∃ program, (listed slots (before ++ q :: after)).finish = .ok program := by
  obtain ⟨hd, h, i, hlast, hi, hfall⟩ := exists_finish_iff.1 hf
  have hmem : ∀ {x}, x ∈ (listed slots (before ++ q :: p :: after)).order ↔
      x = p.1 ∨ x ∈ (listed slots (before ++ q :: after)).order := by
    intro x
    simp only [listed, List.mem_toArray, List.map_append, List.map_cons, List.mem_append,
      List.mem_cons]
    tauto
  refine exists_finish_iff.2 ⟨⟨fun hx => hd.allocated (hmem.2 (.inr hx)), fun hx hi t ht => ?_⟩, ?_⟩
  · refine (hmem.1 (hd.placed (hmem.2 (.inr hx)) hi t ht)).resolve_left ?_
    rintro rfl
    exact hdead (mem_edges (hmem.2 (.inr hx)) hi ht)
  · cases after with
    | nil =>
      exact ⟨q.1, q.2, by simp [listed], hp.instr q (by simp), Instr.fallsThrough_of_isJump hq⟩
    | cons r after => exact ⟨h, i, by simpa [listed] using hlast, hi, hfall⟩

namespace Pruning

variable {s : Pruning} {slots : Array (Instr Handle)} {dropped : List Nat}

/-- A turn drops a jump behind a jump of which the count is zero, or it keeps all instructions. -/
theorem turn_cases (s : Pruning) :
    (∃ p q rest, s.before = p :: q :: rest ∧ p.2.isJump = true ∧ q.2.isJump = true ∧
      s.counts.getD p.1 0 = 0 ∧ s.turn = ⟨release s.counts p.2.targets, s.after, q :: rest⟩) ∨
    s.turn.counts = s.counts ∧ s.turn.remaining = s.remaining := by
  fun_cases turn s with
  | case1 counts after p q rest hdrop =>
    simp only [Bool.and_eq_true, beq_iff_eq] at hdrop
    obtain ⟨⟨hp, hq⟩, hzero⟩ := hdrop
    exact .inl ⟨p, q, rest, rfl, hp, hq, hzero, rfl⟩
  | case2 counts after p q rest _ =>
    exact .inr ⟨rfl, by simp [remaining]⟩
  | case3 => exact .inr ⟨rfl, rfl⟩

/-- What is still to be looked at stays as it is. -/
theorem before_turn (s : Pruning) : s.turn.before <:+ s.before := by
  fun_cases turn s with
  | case1 counts after p q rest => exact List.suffix_cons p (q :: rest)
  | case2 counts after p q rest => exact List.suffix_cons p (q :: rest)
  | case3 => exact List.suffix_refl _

/-- The two instructions that a turn looks at are the last of those not yet looked at. -/
theorem remaining_eq {p q : Handle × Instr Handle} {rest : List (Handle × Instr Handle)}
    (h : s.before = p :: q :: rest) : s.remaining = rest.reverse ++ q :: p :: s.after := by
  simp [remaining, h]

/-- No instruction is added. -/
theorem remaining_turn (s : Pruning) : s.turn.remaining.Sublist s.remaining := by
  rcases s.turn_cases with ⟨p, q, rest, hbefore, -, -, -, hturn⟩ | ⟨-, heq⟩
  · rw [hturn, remaining_eq hbefore]
    simp [remaining]
  · rw [heq]

/-! ## The counts -/

/-- The counts are those of the draft as it is, and all its instructions are in their slots. -/
structure Exact (slots : Array (Instr Handle)) (s : Pruning) : Prop where
  lists : (s.draft slots).Lists s.remaining
  counts : ∀ h, s.counts.getD h 0 = (s.draft slots).edges.count h

/-- Before the first turn the draft is the one that was given. -/
theorem draft_start (hp : d.Lists placed) : (start placed).draft d.slots = d := by
  rw [draft, remaining, start, List.reverse_reverse, List.append_nil, listed, hp.handles]

namespace Exact

/-- Before the first turn the counts are exact. -/
theorem start (hp : d.Lists placed) : (start placed).Exact d.slots := by
  have hremaining : (Pruning.start placed).remaining = placed := by
    simp [remaining, Pruning.start]
  refine ⟨?_, fun h => ?_⟩
  · rw [draft_start hp, hremaining]
    exact hp
  · rw [draft_start hp, hp.edges_eq]
    exact getD_references placed h

/-- The count of a handle is how often it is a target of what remains. -/
theorem count_eq (h : s.Exact slots) (g : Handle) :
    s.counts.getD g 0 = (s.remaining.flatMap fun p => p.2.targets).count g :=
  h.lists.edges_eq ▸ h.counts g

/-- A turn keeps the counts exact. -/
theorem turn (h : s.Exact slots) : s.turn.Exact slots := by
  have hlists : (s.turn.draft slots).Lists s.turn.remaining := h.lists.of_sublist s.remaining_turn
  refine ⟨hlists, fun g => ?_⟩
  rw [hlists.edges_eq]
  rcases s.turn_cases with ⟨p, q, rest, hbefore, -, -, -, hturn⟩ | ⟨hcounts, heq⟩
  · have hrelease := getD_release_targets (remaining_eq hbefore ▸ h.count_eq) g
    simpa [hturn, remaining] using hrelease
  · rw [hcounts, heq]
    exact h.count_eq g

/-- So they are before every turn. -/
theorem turns (h : s.Exact slots) (n : Nat) : (Pruning.turn^[n] s).Exact slots :=
  Function.Iterate.rec (Exact slots) h (fun _ => turn) n

/-- No edge leads to an instruction of which the count is zero. -/
theorem notMem_edges (h : s.Exact slots) {g : Handle} (hzero : s.counts.getD g 0 = 0) :
    g ∉ (s.draft slots).edges :=
  List.count_eq_zero.1 (h.counts g ▸ hzero)

/-- A turn does not keep a draft from being finished. -/
theorem exists_finish_turn (h : s.Exact slots) (hf : ∃ p, (s.draft slots).finish = .ok p) :
    ∃ p, (s.turn.draft slots).finish = .ok p := by
  rcases s.turn_cases with ⟨p, q, rest, hbefore, -, hq, hzero, hturn⟩ | ⟨-, heq⟩
  · have hp := h.lists
    have hdead := h.notMem_edges hzero
    rw [draft, remaining_eq hbefore] at hp hdead hf
    simpa [draft, hturn, remaining] using exists_finish_drop hp hq hdead hf
  · rw [draft, heq]
    exact hf

/-- No number of turns keeps a draft from being finished. -/
theorem exists_finish_turns (h : s.Exact slots) (hf : ∃ p, (s.draft slots).finish = .ok p)
    (n : Nat) : ∃ p, ((Pruning.turn^[n] s).draft slots).finish = .ok p := by
  induction n with
  | zero => exact hf
  | succ n ih =>
    rw [Function.iterate_succ_apply']
    exact (h.turns n).exists_finish_turn ih

end Exact

/-- The two instructions that a turn looks at are placed where it looks for them and have slots, and
whenever it releases a reference there is one to be released. -/
structure Safe (slots : Array (Instr Handle)) (s : Pruning) : Prop where
  here : ∀ {p q rest}, s.before = p :: q :: rest →
    (s.draft slots).order[rest.length + 1]? = some p.1 ∧ slots[p.1.index]? = some p.2
  behind : ∀ {p q rest}, s.before = p :: q :: rest →
    (s.draft slots).order[rest.length]? = some q.1 ∧ slots[q.1.index]? = some q.2
  released : ∀ {p q rest}, s.before = p :: q :: rest → ∀ {earlier t later},
    p.2.targets = earlier ++ t :: later → 0 < (release s.counts earlier).getD t 0

/-- While the counts are exact, a turn does nothing that is not defined. -/
theorem Exact.safe (h : s.Exact slots) : s.Safe slots where
  here {p q rest} hbefore := by
    have heq := remaining_eq hbefore
    refine ⟨?_, h.lists.instr p (by simp [heq])⟩
    simp [draft, listed, heq]
  behind {p q rest} hbefore := by
    have heq := remaining_eq hbefore
    refine ⟨?_, h.lists.instr q (by simp [heq])⟩
    simp [draft, listed, heq]
  released {p q rest} hbefore {earlier t later} htargets := by
    rw [getD_release, h.count_eq, remaining_eq hbefore]
    simp only [List.flatMap_append, List.flatMap_cons, List.count_append, htargets,
      List.count_cons_self]
    omega

/-! ## What is dropped -/

/-- What holds of the draft between two turns, of which those so far have dropped `dropped`. -/
structure Since (d : Draft) (dropped : List Nat) (s : Pruning) : Prop
    extends d.Pruned (s.draft d.slots) dropped where
  untouched : s.before.reverse.map Prod.fst <+: d.order.toList
  passed : ∀ k ∈ dropped, s.before.length ≤ k

namespace Since

/-- Before the first turn nothing has been dropped and everything is still to be looked at. -/
theorem start (hp : d.Lists placed) : (start placed).Since d [] where
  toPruned := draft_start hp ▸ Pruned.refl d
  untouched := by simp [Pruning.start, hp.handles]
  passed := by simp

/-- A turn keeps it, with the place of the instruction that it may have dropped. -/
theorem turn (h : s.Since d dropped) (hexact : s.Exact d.slots) :
    ∃ dropped', s.turn.Since d dropped' := by
  have hsuffix := s.before_turn
  have huntouched : s.turn.before.reverse.map Prod.fst <+: d.order.toList :=
    ((List.reverse_prefix.2 hsuffix).map Prod.fst).trans h.untouched
  have hpassed : ∀ k ∈ dropped, s.turn.before.length ≤ k :=
    fun k hk => hsuffix.length_le.trans (h.passed k hk)
  rcases s.turn_cases with ⟨p, q, rest, hbefore, hp, hq, hzero, hturn⟩ | ⟨-, heq⟩
  · have hsafe := hexact.safe
    -- What is still before has the place that it had in the draft as it was.
    have hplace : d.order[rest.length + 1]? = some p.1 ∧ d.order[rest.length]? = some q.1 := by
      obtain ⟨behind, hsplit⟩ := h.untouched
      simp [← Array.getElem?_toList, ← hsplit, hbefore]
    have hpruned : d.Pruned (s.turn.draft d.slots) (dropped ++ [rest.length + 1]) := by
      refine h.drop rfl ?_ (fun k hk => ?_) ⟨?_, ?_⟩ fun g hg => ?_
      · rw [draft, draft, remaining_eq hbefore, hturn]
        simp [listed, remaining, List.eraseIdx_append_of_length_le]
      · have := h.passed k hk
        rwa [hbefore] at this
      · exact ⟨q.1, q.2, hplace.2, (hsafe.behind hbefore).2, hq⟩
      · exact ⟨p.1, p.2, hplace.1, (hsafe.here hbefore).2, hp⟩
      · cases hplace.1.symm.trans hg
        exact hexact.notMem_edges hzero
    refine ⟨_, hpruned, huntouched, List.forall_mem_append.2 ⟨hpassed, ?_⟩⟩
    simp [hturn]
  · refine ⟨dropped, ?_, huntouched, hpassed⟩
    rw [draft, heq]
    exact h.toPruned

/-- After any number of turns the draft is the old one without some unreachable jumps. -/
theorem turns (h : s.Since d dropped) (hexact : s.Exact d.slots) (n : Nat) :
    ∃ dropped', (Pruning.turn^[n] s).Since d dropped' := by
  induction n with
  | zero => exact ⟨dropped, h⟩
  | succ n ih =>
    obtain ⟨dropped', h'⟩ := ih
    rw [Function.iterate_succ_apply']
    exact h'.turn (hexact.turns n)

end Since

end Pruning

/-- Dropping unreachable jumps is making turns. -/
theorem dropDeadJumps_eq_turns (hp : d.Lists placed) : Edit.dropDeadJumps.run d =
    .ok () ((Pruning.turn^[d.size - 1] (.start placed)).draft d.slots) := by
  have hsize : placed.reverse.length = d.size := by
    rw [List.length_reverse, size, ← Array.length_toList, ← hp.handles, List.length_map]
  refine dropDeadJumps_eq_ok_iff.2 ⟨placed, hp, ?_⟩
  rw [dropDead_eq_turns, hsize]
  rfl

/-- Of a draft whose placed instructions have slots, `nop`s, chains of jumps and duplicates allowed,
`Edit.dropDeadJumps` leaves out some places, at each of which there was a jump behind another one
and to which no edge leads that is left. It changes nothing else, so that a draft that could be
finished still can. Before every turn the counts are exact, the turn looks at places and slots that
there are, and it takes no count below zero. -/
theorem dropDeadJumps_exact (hd : ∀ h ∈ d.order, ∃ i, d.get? h = some i) :
    ∃ placed, d.instructions = .ok placed ∧
      (∀ n, (Pruning.turn^[n] (.start placed)).Exact d.slots ∧
        (Pruning.turn^[n] (.start placed)).Safe d.slots) ∧
      ∃ e dropped, Edit.dropDeadJumps.run d = .ok () e ∧
        e = (Pruning.turn^[d.size - 1] (.start placed)).draft d.slots ∧ d.Pruned e dropped ∧
        ((∃ p, d.finish = .ok p) → ∃ p, e.finish = .ok p) := by
  obtain ⟨placed, hp⟩ := exists_lists hd
  have hexact := Pruning.Exact.start hp
  obtain ⟨dropped, hsince⟩ := (Pruning.Since.start hp).turns hexact (d.size - 1)
  refine ⟨placed, instructions_eq_ok_iff.2 hp,
    fun n => ⟨hexact.turns n, (hexact.turns n).safe⟩, _, dropped, dropDeadJumps_eq_turns hp, rfl,
    hsince.toPruned, fun hf => ?_⟩
  refine hexact.exists_finish_turns ?_ (d.size - 1)
  rwa [Pruning.draft_start hp]

/-- A draft with a target that is named twice by one instruction, a jump that leads to itself, and a
jump that leads to the one before it, which is placed twice. -/
def knotted : Draft where
  slots := #[.split ⟨1⟩ ⟨1⟩, .jump ⟨5⟩, .jump ⟨2⟩, .jump ⟨5⟩, .jump ⟨3⟩, .accept]
  order := #[⟨0⟩, ⟨1⟩, ⟨2⟩, ⟨3⟩, ⟨3⟩, ⟨4⟩, ⟨5⟩]

/-- What is left of it. Only the jump to itself keeps its place behind a jump. -/
def unknotted : Draft where
  slots := knotted.slots
  order := #[⟨0⟩, ⟨1⟩, ⟨2⟩, ⟨5⟩]

/-- Of `knotted` the jumps behind the first one go, the place that is there twice as well, but not
the jump to itself. -/
theorem dropDeadJumps_exact_knotted :
    (∀ h ∈ knotted.order, ∃ i, knotted.get? h = some i) ∧
      Edit.dropDeadJumps.run knotted = .ok () unknotted ∧
      (∃ dropped, knotted.Pruned unknotted dropped) ∧ ∃ p, unknotted.finish = .ok p := by
  have hclosed : knotted.Closed := by decide
  have hd : ∀ h ∈ knotted.order, ∃ i, knotted.get? h = some i := fun _ => hclosed.allocated
  have hrun : Edit.dropDeadJumps.run knotted = .ok () unknotted := by
    refine dropDeadJumps_eq_ok_iff.2 ⟨_, instructions_eq_ok_iff.1 rfl, ?_⟩
    simp [listed, dropDead, getD_references, getD_release, Instr.isJump, Instr.targets, knotted,
      unknotted]
  obtain ⟨-, -, -, e, dropped, he, -, hpruned, hfinish⟩ := dropDeadJumps_exact hd
  cases hrun.symm.trans he
  exact ⟨hd, hrun, ⟨dropped, hpruned⟩,
    hfinish (exists_finish_iff.2 ⟨hclosed, ⟨5⟩, .accept, rfl, rfl, rfl⟩)⟩

end PatternMachine.Draft
