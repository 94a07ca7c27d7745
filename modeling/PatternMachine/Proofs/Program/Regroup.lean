import PatternMachine.Proofs.Machine.Alike
import PatternMachine.Proofs.Machine.Linked
import PatternMachine.Proofs.Machine.Moves
import PatternMachine.Proofs.Program.Surrounds

/-!
# Alternatives of alternatives

Three alternatives can be grouped to the left or to the right. The two groupings have as many
instructions, and the code of each alternative is the same but for its place (the first one has `p`
instructions):

    to the left                       to the right
    h           split                 h           split
    h + 1       split                 h + 1       the first alternative
    h + 2       the first alternative             jump
                jump                              split
    h + p + 3   the second one        h + p + 3   the second one
                nop                               jump
                jump                              the third one
                the third one                     nop
                nop                               nop

So the threads at these instructions can be linked (`Regrouped.link`): from the first `split` both
groupings go to the three alternatives in order, and behind an alternative both go to the last
`nop`, by way of other jumps (`Regrouped.moves`). If the programs are equal outside, they backtrack
alike (`Regrouped.alike`), and so they do in every context (`Pattern.Context.exists_regrouped`).
-/

namespace PatternMachine

/-! ## Three alternatives -/

namespace Program

/-- The program holds three alternatives at `h`, grouped to the left. -/
structure GroupsLeft (prog : Program) (h : Nat) (p q r : Pattern) : Prop where
  split : prog.code[h]? = some (.split (h + 1) (h + p.codeSize + q.codeSize + 5))
  inner : prog.code[h + 1]? = some (.split (h + 2) (h + p.codeSize + 3))
  first : prog.Holds (h + 2) p
  afterFirst : prog.code[h + p.codeSize + 2]? =
    some (.jump (h + p.codeSize + q.codeSize + 3))
  second : prog.Holds (h + p.codeSize + 3) q
  afterSecond : prog.code[h + p.codeSize + q.codeSize + 3]? = some .nop
  afterInner : prog.code[h + p.codeSize + q.codeSize + 4]? =
    some (.jump (h + p.codeSize + q.codeSize + r.codeSize + 5))
  third : prog.Holds (h + p.codeSize + q.codeSize + 5) r
  last : prog.code[h + p.codeSize + q.codeSize + r.codeSize + 5]? = some .nop

/-- The program holds three alternatives at `h`, grouped to the right. -/
structure GroupsRight (prog : Program) (h : Nat) (p q r : Pattern) : Prop where
  split : prog.code[h]? = some (.split (h + 1) (h + p.codeSize + 2))
  first : prog.Holds (h + 1) p
  afterFirst : prog.code[h + p.codeSize + 1]? =
    some (.jump (h + p.codeSize + q.codeSize + r.codeSize + 5))
  inner : prog.code[h + p.codeSize + 2]? =
    some (.split (h + p.codeSize + 3) (h + p.codeSize + q.codeSize + 4))
  second : prog.Holds (h + p.codeSize + 3) q
  afterSecond : prog.code[h + p.codeSize + q.codeSize + 3]? =
    some (.jump (h + p.codeSize + q.codeSize + r.codeSize + 4))
  third : prog.Holds (h + p.codeSize + q.codeSize + 4) r
  afterInner : prog.code[h + p.codeSize + q.codeSize + r.codeSize + 4]? = some .nop
  last : prog.code[h + p.codeSize + q.codeSize + r.codeSize + 5]? = some .nop

variable {prog : Program} {h : Nat} {p q r : Pattern}

/-- The code of an alternative whose first branch is one groups three alternatives to the left. -/
theorem Holds.groupsLeft (hp : prog.Holds h (.alt (.alt p q) r)) : prog.GroupsLeft h p q r := by
  have e₁ : h + (p.codeSize + q.codeSize + 3) + 1 = h + p.codeSize + q.codeSize + 4 := by omega
  have e₂ : h + (p.codeSize + q.codeSize + 3) + 2 = h + p.codeSize + q.codeSize + 5 := by omega
  have e₃ : h + (p.codeSize + q.codeSize + 3) + r.codeSize + 2 =
    h + p.codeSize + q.codeSize + r.codeSize + 5 := by omega
  have e₄ : h + 1 + p.codeSize + 1 = h + p.codeSize + 2 := by omega
  have e₅ : h + 1 + p.codeSize + 2 = h + p.codeSize + 3 := by omega
  have e₆ : h + 1 + p.codeSize + q.codeSize + 2 = h + p.codeSize + q.codeSize + 3 := by omega
  simp only [holds_alt, Pattern.codeSize, e₁, e₂, e₃, e₄, e₅, e₆] at hp
  obtain ⟨hsplit, ⟨hinner, hp, hjump, hq, hmeet⟩, hjump', hr, hlast⟩ := hp
  exact ⟨hsplit, hinner, hp, hjump, hq, hmeet, hjump', hr, hlast⟩

/-- The code of an alternative whose second branch is one groups three alternatives to the right. -/
theorem Holds.groupsRight (hp : prog.Holds h (.alt p (.alt q r))) : prog.GroupsRight h p q r := by
  have e₁ : h + p.codeSize + (q.codeSize + r.codeSize + 3) + 2 =
    h + p.codeSize + q.codeSize + r.codeSize + 5 := by omega
  have e₂ : h + p.codeSize + 2 + 1 = h + p.codeSize + 3 := rfl
  have e₃ : h + p.codeSize + 2 + q.codeSize + 1 = h + p.codeSize + q.codeSize + 3 := by omega
  have e₄ : h + p.codeSize + 2 + q.codeSize + 2 = h + p.codeSize + q.codeSize + 4 := by omega
  have e₅ : h + p.codeSize + 2 + q.codeSize + r.codeSize + 2 =
    h + p.codeSize + q.codeSize + r.codeSize + 4 := by omega
  simp only [holds_alt, Pattern.codeSize, e₁, e₂, e₃, e₄, e₅] at hp
  obtain ⟨hsplit, hp, hjump, ⟨hinner, hq, hjump', hr, hmeet⟩, hlast⟩ := hp
  exact ⟨hsplit, hp, hjump, hinner, hq, hjump', hr, hmeet, hlast⟩

end Program

/-- Two programs of one size with three alternatives at `h`, grouped to the left and to the right,
that are equal outside and do not lead into the alternatives from there. -/
structure Regrouped (prog prog' : Program) (p q r : Pattern) (h : Nat) : Prop where
  left : prog.GroupsLeft h p q r
  right : prog'.GroupsRight h p q r
  size_eq : prog.size = prog'.size
  outside : ∀ k, k < h ∨ h + p.codeSize + q.codeSize + r.codeSize + 6 ≤ k →
    prog.code[k]? = prog'.code[k]?
  avoids : ∀ k i, k < h ∨ h + p.codeSize + q.codeSize + r.codeSize + 6 ≤ k →
    prog.code[k]? = some i → ∀ t ∈ i.targets,
      t ≤ h ∨ h + p.codeSize + q.codeSize + r.codeSize + 6 ≤ t

/-- The places of an instruction that both groupings have: outside, at their first and their last
instruction, and in the second alternative these are the same; the first and the third alternative
are one place further on if they are grouped to the left. -/
def Corresponds (p q r : Pattern) (h k k' : Nat) : Prop :=
  (k = k' ∧ (k ≤ h ∨ (h + p.codeSize + 3 ≤ k ∧ k < h + p.codeSize + q.codeSize + 3) ∨
    h + p.codeSize + q.codeSize + r.codeSize + 5 ≤ k)) ∨
  (k = k' + 1 ∧ ((h + 2 ≤ k ∧ k < h + p.codeSize + 2) ∨
    (h + p.codeSize + q.codeSize + 5 ≤ k ∧
      k < h + p.codeSize + q.codeSize + r.codeSize + 5)))

namespace Corresponds

variable {p q r : Pattern} {h : Nat}

/-- The instructions that only a grouping to the left has: the inner `split`, and those behind the
first two alternatives. -/
theorem left_cases (p q r : Pattern) (h k : Nat) : (∃ k', Corresponds p q r h k k') ∨
    k = h + 1 ∨ k = h + p.codeSize + 2 ∨ k = h + p.codeSize + q.codeSize + 3 ∨
    k = h + p.codeSize + q.codeSize + 4 := by
  by_cases hk : Corresponds p q r h k k
  · exact .inl ⟨k, hk⟩
  by_cases hk' : Corresponds p q r h k (k - 1)
  · exact .inl ⟨k - 1, hk'⟩
  unfold Corresponds at hk hk'
  omega

/-- Those that only a grouping to the right has: one behind each alternative, and the inner
`split`. -/
theorem right_cases (p q r : Pattern) (h k' : Nat) : (∃ k, Corresponds p q r h k k') ∨
    k' = h + p.codeSize + 1 ∨ k' = h + p.codeSize + 2 ∨
    k' = h + p.codeSize + q.codeSize + 3 ∨
    k' = h + p.codeSize + q.codeSize + r.codeSize + 4 := by
  by_cases hk : Corresponds p q r h k' k'
  · exact .inl ⟨k', hk⟩
  by_cases hk' : Corresponds p q r h (k' + 1) k'
  · exact .inl ⟨k' + 1, hk'⟩
  unfold Corresponds at hk hk'
  omega

end Corresponds

namespace Regrouped

variable {prog prog' : Program} {p q r : Pattern} {h : Nat}

/-- The code of an alternative leads to corresponding places if its places correspond. -/
theorem rel_part {x : Pattern} {b b' d : Nat} (hx : prog.Holds b x) (hx' : prog'.Holds b' x)
    (hcorr : ∀ d < x.codeSize, Corresponds p q r h (b + d) (b' + d)) (hd : d < x.codeSize) :
    ∃ i j, prog.code[b + d]? = some i ∧ prog'.code[b' + d]? = some j ∧
      i.Rel (Corresponds p q r h) j := by
  obtain ⟨i, j, hi, hj, hij⟩ := hx.rel hx' hd
  refine ⟨i, j, hi, hj, hij.mono fun t _ t' ht => ?_⟩
  obtain ⟨e, he, rfl, rfl⟩ := ht
  exact hcorr e he

/-- So do the instructions outside of the alternatives. -/
theorem rel_outside (hr : Regrouped prog prog' p q r h) {k : Nat}
    (hk : k < h ∨ h + p.codeSize + q.codeSize + r.codeSize + 6 ≤ k) (hlt : k < prog.size) :
    ∃ i j, prog.code[k]? = some i ∧ prog'.code[k]? = some j ∧
      i.Rel (Corresponds p q r h) j := by
  have hi : prog.code[k]? = some prog.code[k] := Array.getElem?_eq_getElem hlt
  refine ⟨_, _, hi, hr.outside k hk ▸ hi, ?_⟩
  refine (Instr.Rel.refl (S := Eq) (fun _ => rfl) _).mono fun t ht t' heq => ?_
  have := hr.avoids k _ hk hi t ht
  unfold Corresponds
  omega

/-- At corresponding places but the first one of the alternatives there are the same instructions,
which lead to corresponding places. -/
theorem rel (hr : Regrouped prog prog' p q r h) {k k' : Nat} (hk : Corresponds p q r h k k')
    (hne : k ≠ h) (hlt : k < prog.size) : ∃ i j, prog.code[k]? = some i ∧
      prog'.code[k']? = some j ∧ i.Rel (Corresponds p q r h) j := by
  rcases hk with ⟨rfl, hk⟩ | ⟨rfl, hk⟩
  · by_cases hout : k < h ∨ h + p.codeSize + q.codeSize + r.codeSize + 6 ≤ k
    · exact hr.rel_outside hout hlt
    by_cases hlast : k = h + p.codeSize + q.codeSize + r.codeSize + 5
    · exact ⟨_, _, hlast ▸ hr.left.last, hlast ▸ hr.right.last, .nop⟩
    obtain ⟨d, rfl⟩ := Nat.exists_eq_add_of_le (by omega : h + p.codeSize + 3 ≤ k)
    refine rel_part hr.left.second hr.right.second (fun d hd => ?_) (by omega)
    unfold Corresponds
    omega
  · rcases hk with hk | hk
    · obtain ⟨d, rfl⟩ := Nat.exists_eq_add_of_le (by omega : h + 1 ≤ k')
      rw [Nat.add_right_comm (h + 1) d 1]
      refine rel_part hr.left.first hr.right.first (fun d hd => ?_) (by omega)
      unfold Corresponds
      omega
    · obtain ⟨d, rfl⟩ := Nat.exists_eq_add_of_le
        (by omega : h + p.codeSize + q.codeSize + 4 ≤ k')
      rw [Nat.add_right_comm _ d 1]
      refine rel_part hr.left.third hr.right.third (fun d hd => ?_) (by omega)
      unfold Corresponds
      omega

/-! ### The grouped alternatives are entered at their first instruction only -/

variable {m n : Machine} {pos : Nat}

/-- The second `split` of a grouping to the left is reached from the first one only. -/
theorem only_left (hr : Regrouped m.program prog' p q r h) {y : Thread}
    (hy : ⟨h + 1, pos⟩ ∈ (m.move y).threads) : y = ⟨h, pos⟩ := by
  obtain ⟨i, hi, hnext⟩ := Machine.exists_of_mem_threads hy
  obtain ⟨k, pos'⟩ := y
  dsimp only at hi hnext
  rcases hnext with ⟨ht, rfl⟩ | ⟨hf, hk⟩
  · by_cases hne : k = h
    · rw [hne]
    have hlt : k < m.program.size := (Array.getElem?_eq_some_iff.1 hi).1
    -- Instructions that correspond lead to such ones only, and the others are known.
    rcases Corresponds.left_cases p q r h k with ⟨k', hk⟩ | rfl | rfl | rfl | rfl
    · obtain ⟨i', j, hi', -, hij⟩ := hr.rel hk hne hlt
      cases hi.symm.trans hi'
      obtain ⟨t', -, ht'⟩ := hij.exists_mem_right ht
      unfold Corresponds at ht'
      omega
    · cases hi.symm.trans hr.left.inner
      simp [Instr.targets] at ht
      omega
    · cases hi.symm.trans hr.left.afterFirst
      simp [Instr.targets] at ht
      omega
    · cases hi.symm.trans hr.left.afterSecond
      cases ht
    · cases hi.symm.trans hr.left.afterInner
      simp [Instr.targets] at ht
      omega
  · obtain rfl : h = k := Nat.succ.inj hk
    cases hi.symm.trans hr.left.split
    cases hf

/-- So is that of a grouping to the right. -/
theorem only_right (hr : Regrouped prog n.program p q r h) {y : Thread}
    (hy : ⟨h + p.codeSize + 2, pos⟩ ∈ (n.move y).threads) : y = ⟨h, pos⟩ := by
  obtain ⟨j, hj, hnext⟩ := Machine.exists_of_mem_threads hy
  obtain ⟨k', pos'⟩ := y
  dsimp only at hj hnext
  rcases hnext with ⟨ht, rfl⟩ | ⟨hf, hk⟩
  · by_cases hne : k' = h
    · rw [hne]
    have hlt : k' < n.program.size := (Array.getElem?_eq_some_iff.1 hj).1
    have hlt' : h + p.codeSize + q.codeSize + r.codeSize + 5 < n.program.size :=
      (Array.getElem?_eq_some_iff.1 hr.right.last).1
    rcases Corresponds.right_cases p q r h k' with ⟨k, hk⟩ | rfl | rfl | rfl | rfl
    · have hk' := hk
      unfold Corresponds at hk'
      obtain ⟨i, j', -, hj', hij⟩ := hr.rel hk (by omega) (by rw [hr.size_eq]; omega)
      cases hj.symm.trans hj'
      obtain ⟨t, -, ht'⟩ := hij.exists_left ht
      unfold Corresponds at ht'
      omega
    · cases hj.symm.trans hr.right.afterFirst
      simp [Instr.targets] at ht
      omega
    · cases hj.symm.trans hr.right.inner
      simp [Instr.targets] at ht
      omega
    · cases hj.symm.trans hr.right.afterSecond
      simp [Instr.targets] at ht
      omega
    · cases hj.symm.trans hr.right.afterInner
      cases ht
  · obtain rfl : h + p.codeSize + 1 = k' := Nat.succ.inj hk
    cases hj.symm.trans hr.right.afterFirst
    cases hf

/-! ### Both groupings backtrack alike -/

/-- Threads at corresponding instructions and the same position. -/
def link (p q r : Pattern) (h : Nat) (t u : Thread) : Prop :=
  Corresponds p q r h t.pc u.pc ∧ t.pos = u.pos

/-- Threads at corresponding instructions and one position are linked. -/
theorem link_of_corresponds {k k' : Nat} (hk : Corresponds p q r h k k') :
    link p q r h ⟨k, pos⟩ ⟨k', pos⟩ :=
  ⟨hk, rfl⟩

/-- A thread is not linked if nothing corresponds to its instruction on the right. -/
theorem not_onLeft {k : Nat} (hk : ∀ k', ¬ Corresponds p q r h k k') :
    ¬ Machine.OnLeft (link p q r h) ⟨k, pos⟩ :=
  fun ⟨u, hu⟩ => hk u.pc hu.1

/-- Nor is it if nothing corresponds to its instruction on the left. -/
theorem not_onRight {k' : Nat} (hk : ∀ k, ¬ Corresponds p q r h k k') :
    ¬ Machine.OnRight (link p q r h) ⟨k', pos⟩ :=
  fun ⟨t, ht⟩ => hk t.pc ht.1

variable {b : Bounds} {t : Thread}

/-- Behind an alternative of a grouping to the left one comes to its last instruction. -/
theorem leads_left (hr : Regrouped m.program prog' p q r h) (hm : m.StaysIn b) {k : Nat}
    (hk : k = h + p.codeSize + 2 ∨ k = h + p.codeSize + q.codeSize + 3 ∨
      k = h + p.codeSize + q.codeSize + 4) (hb : b.contains ⟨k, pos⟩ = true) :
    m.Leads b (Machine.OnLeft (link p q r h)) t [⟨k, pos⟩]
      [⟨h + p.codeSize + q.codeSize + r.codeSize + 5, pos⟩] := by
  have hkey : ∀ {k : Nat}, (k = h + p.codeSize + 2 ∨ k = h + p.codeSize + q.codeSize + 3 ∨
      k = h + p.codeSize + q.codeSize + 4) → ¬ Machine.OnLeft (link p q r h) ⟨k, pos⟩ := by
    refine fun hk => not_onLeft fun k' hk' => ?_
    unfold Corresponds at hk'
    omega
  have hthird (hb : b.contains ⟨h + p.codeSize + q.codeSize + 4, pos⟩ = true) :
      m.Leads b (Machine.OnLeft (link p q r h)) t [⟨h + p.codeSize + q.codeSize + 4, pos⟩]
        [⟨h + p.codeSize + q.codeSize + r.codeSize + 5, pos⟩] :=
    .goto hm hb (hkey (by omega)) (Machine.move_jump hr.left.afterInner) fun _ => .refl _
  have hsecond (hb : b.contains ⟨h + p.codeSize + q.codeSize + 3, pos⟩ = true) :
      m.Leads b (Machine.OnLeft (link p q r h)) t [⟨h + p.codeSize + q.codeSize + 3, pos⟩]
        [⟨h + p.codeSize + q.codeSize + r.codeSize + 5, pos⟩] :=
    .goto hm hb (hkey (by omega)) (Machine.move_nop hr.left.afterSecond) hthird
  rcases hk with rfl | rfl | rfl
  · exact .goto hm hb (hkey (by omega)) (Machine.move_jump hr.left.afterFirst) hsecond
  · exact hsecond hb
  · exact hthird hb

/-- So one does behind an alternative of a grouping to the right. -/
theorem leads_right (hr : Regrouped prog n.program p q r h) (hn : n.StaysIn b) {k : Nat}
    (hk : k = h + p.codeSize + 1 ∨ k = h + p.codeSize + q.codeSize + 3 ∨
      k = h + p.codeSize + q.codeSize + r.codeSize + 4) (hb : b.contains ⟨k, pos⟩ = true) :
    n.Leads b (Machine.OnRight (link p q r h)) t [⟨k, pos⟩]
      [⟨h + p.codeSize + q.codeSize + r.codeSize + 5, pos⟩] := by
  have hkey : ∀ {k : Nat}, (k = h + p.codeSize + 1 ∨ k = h + p.codeSize + q.codeSize + 3 ∨
      k = h + p.codeSize + q.codeSize + r.codeSize + 4) →
      ¬ Machine.OnRight (link p q r h) ⟨k, pos⟩ := by
    refine fun hk => not_onRight fun k' hk' => ?_
    unfold Corresponds at hk'
    omega
  have hthird (hb : b.contains ⟨h + p.codeSize + q.codeSize + r.codeSize + 4, pos⟩ = true) :
      n.Leads b (Machine.OnRight (link p q r h)) t
        [⟨h + p.codeSize + q.codeSize + r.codeSize + 4, pos⟩]
        [⟨h + p.codeSize + q.codeSize + r.codeSize + 5, pos⟩] :=
    .goto hn hb (hkey (by omega)) (Machine.move_nop hr.right.afterInner) fun _ => .refl _
  rcases hk with rfl | rfl | rfl
  · exact .goto hn hb (hkey (by omega)) (Machine.move_jump hr.right.afterFirst) fun _ => .refl _
  · exact .goto hn hb (hkey (by omega)) (Machine.move_jump hr.right.afterSecond) hthird
  · exact hthird hb

/-- Behind corresponding instructions one comes to corresponding ones. -/
theorem leadAlike_next (hr : Regrouped m.program n.program p q r h) (hm : m.StaysIn b)
    (hn : n.StaysIn b) {k k' : Nat} (hk : Corresponds p q r h k k') (hne : k ≠ h) {t u : Thread}
    (hb : b.contains ⟨k + 1, pos⟩ = true) (hb' : b.contains ⟨k' + 1, pos⟩ = true) :
    Machine.LeadAlike m n b (link p q r h) t u [⟨k + 1, pos⟩] [⟨k' + 1, pos⟩] := by
  -- The next instructions correspond, or an alternative has come to its end.
  by_cases hnext : Corresponds p q r h (k + 1) (k' + 1)
  · exact ⟨_, _, .refl _, .refl _, .cons (link_of_corresponds hnext) .nil⟩
  have hleft : m.Leads b (Machine.OnLeft (link p q r h)) t [⟨k + 1, pos⟩]
      [⟨h + p.codeSize + q.codeSize + r.codeSize + 5, pos⟩] := by
    by_cases hlast : k + 1 = h + p.codeSize + q.codeSize + r.codeSize + 5
    · rw [hlast]
      exact .refl _
    · refine hr.leads_left hm ?_ hb
      unfold Corresponds at hk hnext
      omega
  have hright : n.Leads b (Machine.OnRight (link p q r h)) u [⟨k' + 1, pos⟩]
      [⟨h + p.codeSize + q.codeSize + r.codeSize + 5, pos⟩] := by
    refine hr.leads_right hn ?_ hb'
    unfold Corresponds at hk hnext
    omega
  refine ⟨_, _, hleft, hright, .cons (link_of_corresponds ?_) .nil⟩
  unfold Corresponds
  omega

/-- The three alternatives are tried in the same order. -/
theorem leadAlike_first (hr : Regrouped m.program n.program p q r h) (hm : m.StaysIn b)
    (hn : n.StaysIn b) (hb : b.contains ⟨h, pos⟩ = true) :
    Machine.LeadAlike m n b (link p q r h) ⟨h, pos⟩ ⟨h, pos⟩
      (m.move ⟨h, pos⟩).threads (n.move ⟨h, pos⟩).threads := by
  have hmove : m.move ⟨h, pos⟩ = .fork ⟨h + 1, pos⟩
      ⟨h + p.codeSize + q.codeSize + 5, pos⟩ :=
    Machine.move_split hr.left.split
  have hmove' : n.move ⟨h, pos⟩ = .fork ⟨h + 1, pos⟩ ⟨h + p.codeSize + 2, pos⟩ :=
    Machine.move_split hr.right.split
  have hkey : ¬ Machine.OnLeft (link p q r h) ⟨h + 1, pos⟩ := by
    refine not_onLeft fun k' hk' => ?_
    unfold Corresponds at hk'
    omega
  have hkey' : ¬ Machine.OnRight (link p q r h) ⟨h + p.codeSize + 2, pos⟩ := by
    refine not_onRight fun k hk => ?_
    unfold Corresponds at hk
    omega
  have hin := (hm ⟨h, pos⟩ hb).2
  have hin' := (hn ⟨h, pos⟩ hb).2
  rw [hmove] at hin
  rw [hmove'] at hin'
  rw [hmove, hmove']
  have hleft := (Machine.Leads.fork (hin _ List.mem_cons_self) hkey
    (Machine.move_split hr.left.inner) fun y hy => hr.only_left hy).append
      (.refl [⟨h + p.codeSize + q.codeSize + 5, pos⟩])
  have hright := (Machine.Leads.refl [⟨h + 1, pos⟩]).append
    (Machine.Leads.fork (hin' _ (List.mem_cons_of_mem _ List.mem_cons_self)) hkey'
      (Machine.move_split hr.right.inner) fun y hy => hr.only_right hy)
  have hp := p.codeSize_pos
  have hq := q.codeSize_pos
  have hr' := r.codeSize_pos
  refine ⟨_, _, hleft, hright, .cons (link_of_corresponds ?_) <|
    .cons (link_of_corresponds ?_) (.cons (link_of_corresponds ?_) .nil)⟩
  all_goals
    unfold Corresponds
    omega

/-- Threads at corresponding instructions accept together and lead to such threads. -/
theorem moves (hr : Regrouped m.program n.program p q r h) (hs : m.subject = n.subject)
    (hm : m.StaysIn b) (hn : n.StaysIn b) {t u : Thread} (htu : link p q r h t u)
    (hb : b.contains t = true) (hb' : b.contains u = true) :
    (m.move t = .accept ↔ n.move u = .accept) ∧
      Machine.LeadAlike m n b (link p q r h) t u (m.move t).threads (n.move u).threads := by
  obtain ⟨k, pos⟩ := t
  obtain ⟨k', pos'⟩ := u
  obtain ⟨hk, rfl⟩ : Corresponds p q r h k k' ∧ pos = pos' := htu
  by_cases hne : k = h
  · obtain rfl : k' = h := by
      unfold Corresponds at hk
      omega
    subst hne
    refine ⟨?_, hr.leadAlike_first hm hn hb⟩
    rw [Machine.move_split hr.left.split, Machine.move_split hr.right.split]
    simp
  · have hlt : k < m.program.size := hm.pc_lt hb
    obtain ⟨i, j, hi, hj, hij⟩ := hr.rel hk hne hlt
    have hat : ∀ pos, m.subject.at? (pos + 0) = n.subject.at? pos := fun pos => by
      rw [hs, Nat.add_zero]
    obtain ⟨haccept, -, hthreads⟩ := Machine.moves_rel (t := ⟨k, pos⟩) (u := ⟨k', pos⟩)
      hat rfl hi hj hij
      (Q := fun x y => b.contains x = true → b.contains y = true →
        Machine.LeadAlike m n b (link p q r h) ⟨k, pos⟩ ⟨k', pos⟩ [x] [y])
      (fun x y hxy _ _ => ⟨_, _, .refl _, .refl _, .cons (link_of_corresponds hxy) .nil⟩)
      (fun _ pos' => hr.leadAlike_next hm hn hk hne)
    exact ⟨haccept, .of_forall₂ hthreads (hm _ hb).2 (hn _ hb').2⟩

/-- The machines backtrack alike. -/
theorem alike (hr : Regrouped m.program n.program p q r h) (hs : m.subject = n.subject)
    (hm : m.StaysIn b) (hn : n.StaysIn b) : Machine.Alike m n b (link p q r h) where
  pos htu := htu.2
  unique := by
    rintro ⟨k, i⟩ ⟨k', i'⟩ ⟨l, j⟩ ⟨l', j'⟩ ⟨hk, hi⟩ ⟨hl, hj⟩
    dsimp only at hk hi hl hj
    unfold Corresponds at hk hl
    simp only [Thread.mk.injEq]
    omega
  accept htu hb hb' := (hr.moves hs hm hn htu hb hb').1
  threads htu hb hb' := (hr.moves hs hm hn htu hb hb').2

/-- The places of the alternatives are within both programs. -/
theorem contains_iff (hr : Regrouped m.program prog' p q r h) {first : Nat} {t u : Thread}
    (htu : link p q r h t u) :
    (m.bounds first).contains t = true ↔ (m.bounds first).contains u = true := by
  obtain ⟨hk, hpos⟩ := htu
  have hlt : h + p.codeSize + q.codeSize + r.codeSize + 5 < m.program.size :=
    (Array.getElem?_eq_some_iff.1 hr.left.last).1
  unfold Corresponds at hk
  rw [Machine.contains_bounds, Machine.contains_bounds, hpos]
  omega

end Regrouped

/-! ## Three alternatives in a context -/

namespace Pattern

/-- In every context the two groupings of three alternatives have the same code around them. -/
theorem Context.exists_regrouped (C : Context) (p q r : Pattern) :
    ∃ h, Regrouped (C.fill (.alt (.alt p q) r)).program (C.fill (.alt p (.alt q r))).program
      p q r h := by
  have hsize : (alt (alt p q) r).codeSize = p.codeSize + q.codeSize + r.codeSize + 6 := by
    simp only [codeSize]
    omega
  have hsize' : (alt p (alt q r)).codeSize = (alt (alt p q) r).codeSize := by
    simp only [codeSize]
    omega
  obtain ⟨h, hholds⟩ := C.exists_holds (.alt (.alt p q) r)
  obtain ⟨hleft, -, hsame⟩ := hholds _ rfl
  obtain ⟨hright, hlen, hsame'⟩ := hholds _ hsize'
  simp only [hsize, ← Nat.add_assoc] at hsame hsame'
  exact ⟨h, hleft.groupsLeft, hright.groupsRight, hlen.symm, fun k hk => (hsame' k hk).1.symm,
    fun k i hk => (hsame k hk).2 i⟩

end Pattern

end PatternMachine
