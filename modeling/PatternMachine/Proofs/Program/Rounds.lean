import PatternMachine.Proofs.Machine.Linked
import PatternMachine.Proofs.Machine.Rounds
import PatternMachine.Proofs.Program.Ends
import PatternMachine.Proofs.Program.Language
import PatternMachine.Proofs.Program.Surrounds

/-!
# The loops of repetitions

Where a program holds a pattern its machine does what the machine of the pattern does alone
(`Program.Holds.embeds`). The loop of `plus p` tests behind its body and goes back to the body
(`Pattern.loop_plus`); the loop of `star p` tests before its body, and jumps back to the test
(`Pattern.loop_seq_star`). Behind a first round both find the end of the last round
(`Pattern.firstEnd_repetitions`). There are such rounds if the pattern does not describe the empty
text, or if it prefers to come further on wherever it can (`Pattern.Progresses.exists_rounds`).
-/

namespace PatternMachine

variable {m n : Machine} {p : Pattern}

namespace Program.Holds

variable {base : Nat}

/-- A machine accepts nowhere among the instructions of a pattern. -/
theorem move_ne_accept (h : m.program.Holds base p) {t : Thread} (ht : t.pc < p.codeSize) :
    m.move (t.moved base) ≠ .accept := by
  intro haccept
  have hlt : t.pc < (p.code base).length := by rwa [p.length_code]
  have hcode : m.program.code[base + t.pc]? = some (p.code base)[t.pc] := StandsAt.getElem h hlt
  rw [show m.program.code[base + t.pc]? = some .accept from
    Machine.code_of_move_accept haccept, Option.some.injEq] at hcode
  exact p.accept_notMem_code base (hcode ▸ List.getElem_mem hlt)

/-- A machine does at the instructions of a pattern what the machine of the pattern does at its own,
and goes on behind them where that one accepts. -/
theorem embeds (hn : n.program = p.program) (hs : n.subject = m.subject)
    (h : m.program.Holds base p) : n.Embeds m base p.codeSize := by
  have hheld : n.program.Holds 0 p := hn ▸ p.holds_program
  have hat : ∀ pos, n.subject.at? (pos + 0) = m.subject.at? pos := fun _ => by rw [hs]; rfl
  have hmoved : ∀ t : Thread, t.moved 0 = t := fun t => by simp [Thread.moved]
  have hthreads : ∀ t : Thread, t.pc < p.codeSize →
      List.Forall₂ (fun x y => x.pc ≤ p.codeSize ∧ x.moved base = y)
        (n.move t).threads (m.move (t.moved base)).threads := by
    intro t ht
    obtain ⟨i, j, hi, hj, hij⟩ := hheld.rel h ht
    rw [Nat.zero_add] at hi
    refine (Machine.moves_rel (t := t) (u := t.moved base) hat rfl hi hj hij ?_
      fun _ pos => ⟨ht, rfl⟩).2.2
    rintro x y ⟨k, hk, rfl, rfl⟩
    rw [Nat.zero_add]
    exact ⟨Nat.le_of_lt hk, rfl⟩
  refine ⟨fun pos => ?exit, fun t ht => hmoved t ▸ hheld.move_ne_accept ht,
    fun t ht => h.move_ne_accept ht, fun t ht => ?threads, fun t ht => ?le⟩
  case exit =>
    have := Machine.move_behind hn pos
    rwa [Program.start, Nat.zero_add] at this
  case threads =>
    have := ((List.forall₂_and_left _ _).1 (hthreads t ht)).2
    rw [← List.forall₂_map_left_iff, List.forall₂_eq_eq_eq] at this
    exact this.symm
  case le => exact ((List.forall₂_and_left _ _).1 (hthreads t ht)).1

end Program.Holds

namespace Pattern

/-- Behind the instructions of `p` in `plus p` the test leads back to them. -/
theorem loop_plus (hn : n.program = p.program) (hm : m.program = (plus p).program)
    (hs : n.subject = m.subject) : n.Loop m 0 p.codeSize p.codeSize (p.codeSize + 1) := by
  have hheld : m.program.Holds 0 (plus p) := hm ▸ (plus p).holds_program
  obtain ⟨hbody, hbranch, hmeet⟩ := Program.holds_plus.1 hheld
  rw [Nat.zero_add] at hbranch hmeet
  exact {
    embeds := hbody.embeds hn hs
    forks := fun _ => Machine.move_split hbranch
    leaves := fun _ => Machine.move_nop hmeet
    accepts := fun _ => Machine.move_accept (hm ▸ (plus p).code_program_codeSize)
    back := .inl (Nat.zero_add _)
    test_outside := .inr (Nat.le_of_eq (Nat.zero_add _))
    leave_outside := by omega
    test_lt := Nat.lt_succ_self _ }

/-- Behind the instructions of `p` in `seq p (star p)` the test leads to instructions for the other
rounds, and behind these is a jump back to the test. -/
theorem loop_seq_star (hn : n.program = p.program) (hm : m.program = (seq p (star p)).program)
    (hs : n.subject = m.subject) :
    n.Loop m (p.codeSize + 1) p.codeSize p.codeSize (p.codeSize + p.codeSize + 2) := by
  have hheld : m.program.Holds 0 (seq p (star p)) := hm ▸ (seq p (star p)).holds_program
  obtain ⟨-, hstar⟩ := Program.holds_seq.1 hheld
  rw [Nat.zero_add] at hstar
  obtain ⟨hbranch, hbody, hjump, hmeet⟩ := Program.holds_star.1 hstar
  exact {
    embeds := hbody.embeds hn hs
    forks := fun _ => Machine.move_split hbranch
    leaves := fun _ => Machine.move_nop hmeet
    accepts := fun _ => Machine.move_accept (hm ▸ (seq p (star p)).code_program_codeSize)
    back := .inr fun _ => by
      rw [Nat.add_right_comm]
      exact Machine.move_jump hjump
    test_outside := .inl (Nat.lt_succ_self _)
    leave_outside := by omega
    test_lt := by omega }

/-- A program of a pattern has one instruction more than the pattern, the `accept`. -/
theorem width_bounds (hm : m.program = p.program) (first : Nat) :
    (m.bounds first).width = p.codeSize + 1 := by
  simp [Machine.bounds, hm, program, Program.size]

/-- If the first round ends at `e`, then one round or more, as `plus p` or as `seq p (star p)`, ends
where the last round from `e` on does. -/
theorem firstEnd_repetitions (hn : n.program = p.program) (hs : n.subject = m.subject)
    (hm : m.program = (plus p).program ∨ m.program = (seq p (star p)).program)
    {first i e last : Nat} (hfirst : first ≤ i) (hi : i ≤ n.subject.size) (he : e ≤ n.subject.size)
    (hfound : n.firstEnd (Machine.allRoom (n.bounds first)) ⟨Program.start, i⟩ = some e)
    (hrounds : n.Rounds (n.bounds first) e last) :
    m.firstEnd (Machine.allRoom (m.bounds first)) ⟨Program.start, i⟩ = some last := by
  have hclosed : n.program.Closed := hn ▸ p.closed_program
  have hstays := Machine.staysIn_bounds hclosed (hfirst.trans hi)
  have hstart := Machine.contains_start hclosed hfirst (hi.trans (Nat.le_max_right _ _))
  have hlast : e ≤ (n.bounds first).last := he.trans (Nat.le_max_right _ _)
  have hbounds : (m.bounds first).last = (n.bounds first).last := by
    rw [Machine.bounds, Machine.bounds, hs]
  rcases hm with hm | hm
  · have hloop := loop_plus hn hm hs
    refine hloop.firstEnd_start (c := m.bounds first) hloop.embeds (.inl rfl) hstays rfl hbounds ?_
      hstart hlast hfound hrounds
    rw [width_bounds hm, codeSize]
    omega
  · have hheld : m.program.Holds 0 (seq p (star p)) := hm ▸ (seq p (star p)).holds_program
    have hbegin := (Program.holds_seq.1 hheld).1.embeds hn hs
    refine (loop_seq_star hn hm hs).firstEnd_start (c := m.bounds first) hbegin
      (.inr (Nat.le_succ _)) hstays rfl hbounds ?_ hstart hlast hfound hrounds
    rw [width_bounds hm, codeSize, codeSize]
    omega

/-! ## Rounds of a pattern -/

/-- From `i` on, every round of `p` prefers to come further on, up to a position from which `p` has
no text but the empty one. -/
inductive Advances (p : Pattern) (cs : List Char) : (i : Nat) → Prop
  | stop {i : Nat} : (∀ j, p.Spans cs i j → j = i) → Advances p cs i
  | round {i k : Nat} : (p.ends cs i).head? = some k → i < k → Advances p cs k → Advances p cs i

/-- The rounds of a repetition of `p` that begins at `i` make progress: the empty text is none of
`p`, or, if no repetition within `p` repeats a pattern that describes the empty text, all rounds
behind the first one prefer to come further on. -/
def Progresses (p : Pattern) (cs : List Char) (i : Nat) : Prop :=
  [] ∉ p.language ∨ p.Productive ∧ ∀ e, (p.ends cs i).head? = some e → p.Advances cs e

variable {text : String} {first i e : Nat}

/-- Without the empty text each round finds what it finds if nothing lacks. -/
theorem exists_rounds_of_notMem (hn : n.program = p.program) (hs : n.subject.Of text)
    (hp : [] ∉ p.language) (hfirst : first ≤ e) (he : e ≤ n.subject.size) :
    ∃ last, n.Rounds (n.bounds first) e last := by
  have hclosed : n.program.Closed := hn ▸ p.closed_program
  have hstays := Machine.staysIn_bounds hclosed (hfirst.trans he)
  have hmax : (n.bounds first).last = n.subject.size := Nat.max_eq_right (hfirst.trans he)
  refine Machine.exists_rounds (fun i hi hle => ?_) hfirst (hmax.symm ▸ he)
  have hstart := Machine.contains_start hclosed hi hle
  have hspans : ∀ j, n.CanAccept ⟨Program.start, i⟩ j ↔ p.Spans text.toList i j := fun j =>
    canAccept_iff_spans hs hn (hs.size_eq ▸ hmax ▸ hle)
  cases hfound : n.firstEnd (Machine.allRoom (n.bounds first)) ⟨Program.start, i⟩ with
  | none =>
    exact .inl fun j hj =>
      absurd hj (Machine.not_canAccept_of_firstEnd hstays hstart hfound j)
  | some k =>
    have hk := (hspans k).1 (Machine.canAccept_of_firstEnd hfound)
    refine .inr ⟨k, hk.lt hp, ?_, fun room hroom => ?_⟩
    · rw [hmax, hs.size_eq]
      exact hk.le (hs.size_eq ▸ hmax ▸ hle)
    · rw [hroom.firstEnd_eq hstays hstart (Nat.le_refl i) ?_, hfound]
      exact fun hi => Nat.lt_irrefl i (((hspans i).1 hi).lt hp)

/-- A round that prefers to come further on finds this end also without states that have led to
where it begins. -/
theorem Advances.exists_rounds (hn : n.program = p.program) (hs : n.subject.Of text)
    (hp : p.Productive) (hadvances : p.Advances text.toList e) (hfirst : first ≤ e)
    (he : e ≤ n.subject.size) : ∃ last, n.Rounds (n.bounds first) e last := by
  have hclosed : n.program.Closed := hn ▸ p.closed_program
  induction hadvances with
  | @stop i hstop =>
    exact ⟨i, .stop fun j hj => hstop j ((canAccept_iff_spans hs hn (hs.size_eq ▸ he)).1 hj)⟩
  | @round i k hhead hlt _ ih =>
    have hstays := Machine.staysIn_bounds hclosed (hfirst.trans he)
    have hmax : (n.bounds first).last = n.subject.size := Nat.max_eq_right (hfirst.trans he)
    have hk : k ≤ n.subject.size := hs.size_eq ▸
      (spans_of_mem_ends hs.sentinel_notMem (List.mem_of_head? hhead)).le (hs.size_eq ▸ he)
    obtain ⟨last, hlast⟩ := ih (hfirst.trans (Nat.le_of_lt hlt)) hk
    refine ⟨last, .again hlt (hmax.symm ▸ hk) (fun room hroom => ?_) hlast⟩
    have hres := resolves_head? hs hn hp (hs.size_eq ▸ he)
    rw [hroom.firstEnd_eq_of_resolves hstays
      (Machine.contains_start hclosed hfirst (he.trans (Nat.le_max_right _ _))) (Nat.le_refl i)
      hres, hhead]
    rw [hhead]
    exact fun heq => Nat.ne_of_gt hlt (Option.some.inj heq)

/-- Behind a first round that ends at `e` there are rounds up to a last one. -/
theorem Progresses.exists_rounds (hn : n.program = p.program) (hs : n.subject.Of text)
    (hp : p.Progresses text.toList i) (hfirst : first ≤ i) (hi : i ≤ n.subject.size)
    (hfound : n.firstEnd (Machine.allRoom (n.bounds first)) ⟨Program.start, i⟩ = some e) :
    e ≤ n.subject.size ∧ ∃ last, n.Rounds (n.bounds first) e last := by
  have haccept := Machine.canAccept_of_firstEnd hfound
  have hspans := (canAccept_iff_spans hs hn (hs.size_eq ▸ hi)).1 haccept
  have hie : first ≤ e := hfirst.trans haccept.pos_le
  have he : e ≤ n.subject.size := hs.size_eq ▸ hspans.le (hs.size_eq ▸ hi)
  refine ⟨he, ?_⟩
  rcases hp with hp | ⟨hp, hadvances⟩
  · exact exists_rounds_of_notMem hn hs hp hie he
  · have hclosed : n.program.Closed := hn ▸ p.closed_program
    have hhead := (resolves_head? hs hn hp (hs.size_eq ▸ hi)).firstEnd_eq
      (Machine.staysIn_bounds hclosed (hfirst.trans hi))
      (Machine.contains_start hclosed hfirst (hi.trans (Nat.le_max_right _ _)))
    exact (hadvances e (hhead.symm.trans hfound)).exists_rounds hn hs hp hie he

end Pattern

end PatternMachine
