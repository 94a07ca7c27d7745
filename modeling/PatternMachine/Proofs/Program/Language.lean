import PatternMachine.Proofs.Machine.Accepts
import PatternMachine.Proofs.Machine.Moves
import PatternMachine.Proofs.Pattern.Language
import PatternMachine.Proofs.Program.OfPattern

/-!
# The program of a pattern accepts its language

A way to `accept` that enters the instructions of a pattern reads a text of the pattern before it
runs off their end (`Program.Holds.exists_mem_language`), and every text of the pattern can be read
so (`Program.Holds.canAccept`). Both are proved by induction on the pattern. A repetition takes a
second induction, on the moves that are left (`Machine.exists_mem_star`) or on the number of rounds
(`Machine.canAccept_star`). Hence the program of a pattern accepts where the texts of the pattern
end (`Pattern.canAccept_iff_spans`).
-/

namespace PatternMachine

/-! ## Repetitions -/

namespace Machine

variable {m : Machine} {cs : List Char} {p : Pattern} {e i : Nat}

/-- If a thread that enters a repetition goes on with a round and comes back, or leaves, then a way
to `accept` reads a number of rounds before it leaves. -/
theorem exists_mem_star (enter leave : Nat → Thread)
    (hround : ∀ n i, i ≤ cs.length → m.Accepts n (enter i) e →
      (∃ u ∈ p.language, u <+: cs.drop i ∧ ∃ k < n, m.Accepts k (enter (i + u.length)) e) ∨
        ∃ k < n, m.Accepts k (leave i) e)
    {n : Nat} (hi : i ≤ cs.length) (ha : m.Accepts n (enter i) e) :
    ∃ w ∈ p.star.language, w <+: cs.drop i ∧ ∃ k < n, m.Accepts k (leave (i + w.length)) e := by
  -- Every round uses up moves.
  induction n using Nat.strongRecOn generalizing i with
  | _ n ih =>
    rcases hround n i hi ha with ⟨u, hu, hup, k, hk, ha⟩ | ⟨k, hk, ha⟩
    · obtain ⟨v, hv, hvp, k', hk', ha⟩ := ih k hk (add_length_le_of_prefix_drop hup hi) ha
      refine ⟨u ++ v, Pattern.mem_language_star.2 (.inr ⟨u, hu, v, hv, rfl⟩),
        append_prefix_drop_iff.2 ⟨hup, hvp⟩, k', by omega, ?_⟩
      rwa [List.length_append, ← Nat.add_assoc]
    · exact ⟨[], Pattern.mem_language_star.2 (.inl rfl), List.nil_prefix, k, hk, ha⟩

/-- If every round can be read on the way back to where a thread enters a repetition, and the thread
can leave from there, then every number of rounds can be read before it leaves. -/
theorem canAccept_star (enter leave : Nat → Thread)
    (hround : ∀ i u, i ≤ cs.length → u ∈ p.language → u <+: cs.drop i →
      m.CanAccept (enter (i + u.length)) e → m.CanAccept (enter i) e)
    (hleave : ∀ i, m.CanAccept (leave i) e → m.CanAccept (enter i) e) {w : List Char}
    (hw : w ∈ p.star.language) (hr : w <+: cs.drop i) (hi : i ≤ cs.length)
    (ha : m.CanAccept (leave (i + w.length)) e) : m.CanAccept (enter i) e := by
  obtain ⟨ws, rfl, hws⟩ := hw
  induction ws generalizing i with
  | nil => exact hleave i ha
  | cons u ws ih =>
    obtain ⟨hu, hws⟩ := List.forall_mem_cons.1 hws
    rw [List.flatten_cons] at hr ha
    obtain ⟨hup, hvp⟩ := append_prefix_drop_iff.1 hr
    rw [List.length_append, ← Nat.add_assoc] at ha
    exact hround i u hi hu hup (ih (add_length_le_of_prefix_drop hup hi) hws hvp ha)

end Machine

/-! ## Patterns -/

namespace Program.Holds

variable {m : Machine} {text : String} {p : Pattern} {b e : Nat}

/-- A way to `accept` from the start of a pattern reads a text of the pattern and leads on from
behind it. -/
theorem exists_mem_language (hs : m.subject.Of text) (h : m.program.Holds b p) {n i : Nat}
    (hi : i ≤ text.toList.length) (ha : m.Accepts n ⟨b, i⟩ e) :
    ∃ w ∈ p.language, w <+: text.toList.drop i ∧
      ∃ k < n, m.Accepts k ⟨b + p.codeSize, i + w.length⟩ e := by
  induction p generalizing b n i with
  | literal c =>
    have hm := Machine.move_literal hs hi (holds_literal.1 h)
    split at hm
    · rename_i hc
      have hne : c ≠ Text.sentinel := fun heq =>
        hs.sentinel_notMem (heq ▸ List.mem_of_getElem? hc)
      exact ⟨[c], Pattern.mem_language_literal.2 ⟨hne, rfl⟩, singleton_prefix_drop_iff.2 hc,
        ha.of_goto hm⟩
    · exact absurd ha (Machine.Accepts.not_of_die hm)
  | any =>
    have hm := Machine.move_any hs hi (holds_any.1 h)
    split at hm
    · rename_i hlt
      have hne : text.toList[i] ≠ Text.sentinel := fun heq =>
        hs.sentinel_notMem (heq ▸ List.getElem_mem hlt)
      exact ⟨[text.toList[i]], Pattern.mem_language_any.2 ⟨_, hne, rfl⟩,
        singleton_prefix_drop_iff.2 (List.getElem?_eq_getElem hlt), ha.of_goto hm⟩
    · exact absurd ha (Machine.Accepts.not_of_die hm)
  | empty =>
    exact ⟨[], Pattern.mem_language_empty.2 rfl, List.nil_prefix,
      ha.of_goto (Machine.move_nop (holds_empty.1 h))⟩
  | seq l r ihl ihr =>
    obtain ⟨hl, hr⟩ := holds_seq.1 h
    obtain ⟨u, hu, hup, k, hk, ha⟩ := ihl hl hi ha
    obtain ⟨v, hv, hvp, k', hk', ha⟩ := ihr hr (add_length_le_of_prefix_drop hup hi) ha
    refine ⟨u ++ v, Pattern.mem_language_seq.2 ⟨u, hu, v, hv, rfl⟩,
      append_prefix_drop_iff.2 ⟨hup, hvp⟩, k', by omega, ?_⟩
    rwa [Pattern.codeSize, List.length_append, ← Nat.add_assoc, ← Nat.add_assoc]
  | alt l r ihl ihr =>
    obtain ⟨hbranch, hl, hjump, hr, hmeet⟩ := holds_alt.1 h
    obtain ⟨k, hk, ha | ha⟩ := ha.of_fork (Machine.move_split hbranch)
    · obtain ⟨w, hw, hwp, k', hk', ha⟩ := ihl hl hi ha
      rw [Nat.add_right_comm] at ha
      obtain ⟨k₁, hk₁, ha⟩ := ha.of_goto (Machine.move_jump hjump)
      obtain ⟨k₂, hk₂, ha⟩ := ha.of_goto (Machine.move_nop hmeet)
      exact ⟨w, .inl hw, hwp, k₂, by omega, by rwa [Pattern.codeSize, ← Nat.add_assoc,
        ← Nat.add_assoc]⟩
    · obtain ⟨w, hw, hwp, k', hk', ha⟩ := ihr hr hi ha
      rw [Nat.add_right_comm] at ha
      obtain ⟨k₁, hk₁, ha⟩ := ha.of_goto (Machine.move_nop hmeet)
      exact ⟨w, .inr hw, hwp, k₁, by omega, by rwa [Pattern.codeSize, ← Nat.add_assoc,
        ← Nat.add_assoc]⟩
  | star p ih =>
    obtain ⟨hbranch, hp, hjump, hmeet⟩ := holds_star.1 h
    refine Machine.exists_mem_star (⟨b, ·⟩) (⟨b + p.codeSize + 3, ·⟩) (fun n i hi ha => ?_) hi ha
    obtain ⟨k, hk, ha | ha⟩ := ha.of_fork (Machine.move_split hbranch)
    · obtain ⟨u, hu, hup, k', hk', ha⟩ := ih hp hi ha
      rw [Nat.add_right_comm] at ha
      obtain ⟨k₁, hk₁, ha⟩ := ha.of_goto (Machine.move_jump hjump)
      exact .inl ⟨u, hu, hup, k₁, by omega, ha⟩
    · obtain ⟨k₁, hk₁, ha⟩ := ha.of_goto (Machine.move_nop hmeet)
      exact .inr ⟨k₁, by omega, ha⟩
  | plus p ih =>
    obtain ⟨hp, hbranch, hmeet⟩ := holds_plus.1 h
    obtain ⟨u, hu, hup, k, hk, ha⟩ := ih hp hi ha
    -- Behind its first round it is a repetition of any number of rounds.
    obtain ⟨v, hv, hvp, k', hk', ha⟩ := Machine.exists_mem_star (p := p) (⟨b + p.codeSize, ·⟩)
      (⟨b + p.codeSize + 2, ·⟩) (fun n i hi ha => by
        obtain ⟨k, hk, ha | ha⟩ := ha.of_fork (Machine.move_split hbranch)
        · obtain ⟨u, hu, hup, k', hk', ha⟩ := ih hp hi ha
          exact .inl ⟨u, hu, hup, k', by omega, ha⟩
        · obtain ⟨k₁, hk₁, ha⟩ := ha.of_goto (Machine.move_nop hmeet)
          exact .inr ⟨k₁, by omega, ha⟩) (add_length_le_of_prefix_drop hup hi) ha
    refine ⟨u ++ v, Pattern.mem_language_plus.2 ⟨u, hu, v, hv, rfl⟩,
      append_prefix_drop_iff.2 ⟨hup, hvp⟩, k', by omega, ?_⟩
    rwa [List.length_append, ← Nat.add_assoc]
  | opt p ih =>
    obtain ⟨hbranch, hp, hmeet⟩ := holds_opt.1 h
    obtain ⟨k, hk, ha | ha⟩ := ha.of_fork (Machine.move_split hbranch)
    · obtain ⟨w, hw, hwp, k', hk', ha⟩ := ih hp hi ha
      rw [Nat.add_right_comm] at ha
      obtain ⟨k₁, hk₁, ha⟩ := ha.of_goto (Machine.move_nop hmeet)
      exact ⟨w, .inl hw, hwp, k₁, by omega, ha⟩
    · obtain ⟨k₁, hk₁, ha⟩ := ha.of_goto (Machine.move_nop hmeet)
      exact ⟨[], .inr rfl, List.nil_prefix, k₁, by omega, ha⟩

/-- A text of a pattern can be read on the way from the start of the pattern to behind it. -/
theorem canAccept (hs : m.subject.Of text) (h : m.program.Holds b p) {i : Nat} {w : List Char}
    (hw : w ∈ p.language) (hr : w <+: text.toList.drop i) (hi : i ≤ text.toList.length)
    (ha : m.CanAccept ⟨b + p.codeSize, i + w.length⟩ e) : m.CanAccept ⟨b, i⟩ e := by
  induction p generalizing b i w with
  | literal c =>
    obtain ⟨-, rfl⟩ := Pattern.mem_language_literal.1 hw
    have hm := Machine.move_literal hs hi (holds_literal.1 h)
    rw [if_pos (singleton_prefix_drop_iff.1 hr)] at hm
    exact .goto hm ha
  | any =>
    obtain ⟨c, -, rfl⟩ := Pattern.mem_language_any.1 hw
    have hm := Machine.move_any hs hi (holds_any.1 h)
    rw [if_pos (List.getElem?_eq_some_iff.1 (singleton_prefix_drop_iff.1 hr)).1] at hm
    exact .goto hm ha
  | empty =>
    obtain rfl := Pattern.mem_language_empty.1 hw
    exact .goto (Machine.move_nop (holds_empty.1 h)) ha
  | seq l r ihl ihr =>
    obtain ⟨hl, hr'⟩ := holds_seq.1 h
    obtain ⟨u, hu, v, hv, rfl⟩ := Pattern.mem_language_seq.1 hw
    obtain ⟨hup, hvp⟩ := append_prefix_drop_iff.1 hr
    rw [Pattern.codeSize, List.length_append, ← Nat.add_assoc, ← Nat.add_assoc] at ha
    exact ihl hl hu hup hi (ihr hr' hv hvp (add_length_le_of_prefix_drop hup hi) ha)
  | alt l r ihl ihr =>
    obtain ⟨hbranch, hl, hjump, hr', hmeet⟩ := holds_alt.1 h
    rw [Pattern.codeSize, ← Nat.add_assoc, ← Nat.add_assoc] at ha
    have hend := Machine.CanAccept.goto (Machine.move_nop hmeet) ha
    rcases Pattern.mem_language_alt.1 hw with hw | hw
    · refine .fork_left (Machine.move_split hbranch) (ihl hl hw hr hi ?_)
      rw [Nat.add_right_comm]
      exact .goto (Machine.move_jump hjump) hend
    · refine .fork_right (Machine.move_split hbranch) (ihr hr' hw hr hi ?_)
      rwa [Nat.add_right_comm]
  | star p ih =>
    obtain ⟨hbranch, hp, hjump, hmeet⟩ := holds_star.1 h
    refine Machine.canAccept_star (⟨b, ·⟩) (⟨b + p.codeSize + 3, ·⟩) (fun i u hi hu hup ha => ?_)
      (fun i ha => .fork_right (Machine.move_split hbranch) (.goto (Machine.move_nop hmeet) ha))
      hw hr hi ha
    refine .fork_left (Machine.move_split hbranch) (ih hp hu hup hi ?_)
    rw [Nat.add_right_comm]
    exact .goto (Machine.move_jump hjump) ha
  | plus p ih =>
    obtain ⟨hp, hbranch, hmeet⟩ := holds_plus.1 h
    obtain ⟨u, hu, v, hv, rfl⟩ := Pattern.mem_language_plus.1 hw
    obtain ⟨hup, hvp⟩ := append_prefix_drop_iff.1 hr
    rw [List.length_append, ← Nat.add_assoc] at ha
    refine ih hp hu hup hi ?_
    exact Machine.canAccept_star (⟨b + p.codeSize, ·⟩) (⟨b + p.codeSize + 2, ·⟩)
      (fun i u hi hu hup ha => .fork_left (Machine.move_split hbranch) (ih hp hu hup hi ha))
      (fun i ha => .fork_right (Machine.move_split hbranch) (.goto (Machine.move_nop hmeet) ha))
      hv hvp (add_length_le_of_prefix_drop hup hi) ha
  | opt p ih =>
    obtain ⟨hbranch, hp, hmeet⟩ := holds_opt.1 h
    have hend := Machine.CanAccept.goto (Machine.move_nop hmeet) ha
    rcases Pattern.mem_language_opt.1 hw with hw | rfl
    · refine .fork_left (Machine.move_split hbranch) (ih hp hw hr hi ?_)
      rwa [Nat.add_right_comm]
    · exact .fork_right (Machine.move_split hbranch) hend

end Program.Holds

/-! ## The program of a pattern -/

namespace Pattern

variable {m : Machine} {text : String} {p : Pattern} {i e : Nat}

/-- The program of a pattern accepts at the ends of the texts of the pattern. -/
theorem canAccept_iff_spans (hs : m.subject.Of text) (hp : m.program = p.program)
    (hi : i ≤ text.toList.length) :
    m.CanAccept ⟨Program.start, i⟩ e ↔ p.Spans text.toList i e := by
  have h : m.program.Holds Program.start p := hp ▸ p.holds_program
  refine ⟨?_, ?_⟩
  · intro hyp
    obtain ⟨n, ha⟩ := hyp
    obtain ⟨w, hw, hwp, k, -, ha⟩ := h.exists_mem_language hs hi ha
    exact ⟨w, hw, hwp, ha.of_accept (Machine.move_behind hp _)⟩
  · intro hyp
    obtain ⟨w, hw, hwp, rfl⟩ := hyp
    exact h.canAccept hs hw hwp hi (.here (Machine.move_behind hp _))

end Pattern

end PatternMachine
