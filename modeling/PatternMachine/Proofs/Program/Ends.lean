import PatternMachine.Proofs.Machine.Moves
import PatternMachine.Proofs.Machine.Resolves
import PatternMachine.Proofs.Pattern.Ends
import PatternMachine.Proofs.Program.Layout

/-!
# The program of a pattern prefers the first end

A thread that enters the instructions of a pattern comes out behind them at the ends of the pattern,
one after the other. So if it is known what comes of a thread behind the instructions at each of
these ends, the first end from which anything is found decides what comes of the thread that enters
(`Program.Holds.resolves`). A failure behind the instructions makes the pattern try its next end: an
outer sequence comes back to the choices of an inner repetition. The proof is by induction on the
pattern, for any outcome behind it; a repetition has progressed after each round, and takes a
second induction on what is left of the text.
-/

namespace PatternMachine

/-- Searching concatenated lists is searching them one after the other. -/
theorem findSome?_flatMap {α β γ : Type} (xs : List α) (f : α → List β) (K : β → Option γ) :
    (xs.flatMap f).findSome? K = xs.findSome? fun x => (f x).findSome? K := by
  induction xs with
  | nil => rfl
  | cons x xs ih =>
    rw [List.flatMap_cons, List.findSome?_append, ih, List.findSome?_cons]
    cases (f x).findSome? K <;> rfl

/-- The first element is found at once if every element is a result. -/
theorem findSome?_some {α : Type} (xs : List α) : xs.findSome? some = xs.head? := by
  cases xs <;> rfl

/-- If a thread that enters a repetition goes on with a round, which comes back to where it entered,
and else leaves, then what comes of it is what comes first of the threads that leave at the ends of
the repetition. -/
theorem Machine.resolves_star {m : Machine} {p : Pattern} {cs : List Char}
    (hcs : Text.sentinel ∉ cs) (hp : [] ∉ p.language) (enter leave : Nat → Thread)
    (hround : ∀ k ≤ cs.length, ∀ (K : Nat → Option Nat) (found : Option Nat),
      (∀ j ∈ p.ends cs k, m.Resolves (enter j) (K j)) → m.Resolves (leave k) found →
      m.Resolves (enter k) (((p.ends cs k).findSome? K).or found))
    {K : Nat → Option Nat} {i : Nat} (hi : i ≤ cs.length)
    (hK : ∀ j ∈ (Pattern.star p).ends cs i, m.Resolves (leave j) (K j)) :
    m.Resolves (enter i) (((Pattern.star p).ends cs i).findSome? K) := by
  -- Every round leaves less of the text.
  induction hn : cs.length - i using Nat.strongRecOn generalizing i with
  | _ n ih =>
    rw [Pattern.ends_star hcs hp hi] at hK ⊢
    rw [List.findSome?_append, findSome?_flatMap, List.findSome?_singleton]
    refine hround i hi _ _ (fun k hk => ?_) (hK i (by simp))
    obtain ⟨hik, hk'⟩ := Pattern.lt_of_mem_ends hcs hp hi hk
    refine ih _ (by omega) hk' (fun j hj => ?_) rfl
    exact hK j (List.mem_append_left _ (List.mem_flatMap.2 ⟨k, hk, hj⟩))

namespace Program.Holds

variable {m : Machine} {text : String} {p : Pattern} {b : Nat}

/-- What comes of a thread at the start of a pattern is what comes first of the threads behind the
pattern at its ends. -/
theorem resolves (hs : m.subject.Of text) (h : m.program.Holds b p) (hp : p.Productive)
    {K : Nat → Option Nat} {i : Nat} (hi : i ≤ text.toList.length)
    (hK : ∀ j ∈ p.ends text.toList i, m.Resolves ⟨b + p.codeSize, j⟩ (K j)) :
    m.Resolves ⟨b, i⟩ ((p.ends text.toList i).findSome? K) := by
  have hle : ∀ {q : Pattern} {k j : Nat}, k ≤ text.toList.length → j ∈ q.ends text.toList k →
      j ≤ text.toList.length := fun hk hj =>
    (Pattern.spans_of_mem_ends hs.sentinel_notMem hj).le hk
  induction p generalizing b i K with
  | literal c =>
    have hm := Machine.move_literal hs hi (holds_literal.1 h)
    rw [Pattern.ends] at hK ⊢
    split at hm
    · rename_i hc
      rw [if_pos hc, List.forall_mem_singleton] at hK
      rw [if_pos hc, List.findSome?_singleton]
      exact .goto hm hK
    · rename_i hc
      rw [if_neg hc]
      exact .die hm
  | any =>
    have hm := Machine.move_any hs hi (holds_any.1 h)
    rw [Pattern.ends] at hK ⊢
    split at hm
    · rename_i hlt
      rw [if_pos hlt, List.forall_mem_singleton] at hK
      rw [if_pos hlt, List.findSome?_singleton]
      exact .goto hm hK
    · rename_i hge
      rw [if_neg hge]
      exact .die hm
  | empty =>
    rw [Pattern.ends, List.forall_mem_singleton] at hK
    rw [Pattern.ends, List.findSome?_singleton]
    exact .goto (Machine.move_nop (holds_empty.1 h)) hK
  | seq l r ihl ihr =>
    obtain ⟨hl, hr⟩ := holds_seq.1 h
    rw [Pattern.ends, findSome?_flatMap]
    refine ihl hl hp.1 hi ?_
    intro k hk
    refine ihr hr hp.2 (hle hi hk) ?_
    intro j hj
    rw [Nat.add_assoc]
    exact hK j (List.mem_flatMap.2 ⟨k, hk, hj⟩)
  | alt l r ihl ihr =>
    obtain ⟨hbranch, hl, hjump, hr, hmeet⟩ := holds_alt.1 h
    have hend : ∀ j ∈ (Pattern.alt l r).ends text.toList i,
        m.Resolves ⟨b + l.codeSize + r.codeSize + 2, j⟩ (K j) := fun j hj => by
      have := hK j hj
      rw [Pattern.codeSize, ← Nat.add_assoc, ← Nat.add_assoc] at this
      exact .goto (Machine.move_nop hmeet) this
    rw [Pattern.ends, List.findSome?_append]
    refine .fork (Machine.move_split hbranch) (ihl hl hp.1 hi ?_) (ihr hr hp.2 hi ?_)
    · intro j hj
      rw [Nat.add_right_comm]
      exact .goto (Machine.move_jump hjump) (hend j (List.mem_append_left _ hj))
    · intro j hj
      rw [Nat.add_right_comm]
      exact hend j (List.mem_append_right _ hj)
  | star p ih =>
    obtain ⟨hbranch, hbody, hjump, hmeet⟩ := holds_star.1 h
    refine Machine.resolves_star hs.sentinel_notMem hp.1 (⟨b, ·⟩) (⟨b + p.codeSize + 3, ·⟩)
      (fun k hk K found hround hleave => ?_) hi hK
    refine .fork (Machine.move_split hbranch) (ih hbody hp.2 hk fun j hj => ?_)
      (.goto (Machine.move_nop hmeet) hleave)
    rw [Nat.add_right_comm]
    exact .goto (Machine.move_jump hjump) (hround j hj)
  | plus p ih =>
    obtain ⟨hbody, hbranch, hmeet⟩ := holds_plus.1 h
    -- Behind its first round it is a repetition of any number of rounds.
    have hrest : ∀ k ≤ text.toList.length,
        (∀ j ∈ (Pattern.star p).ends text.toList k, m.Resolves ⟨b + p.codeSize + 2, j⟩ (K j)) →
        m.Resolves ⟨b + p.codeSize, k⟩ (((Pattern.star p).ends text.toList k).findSome? K) := by
      intro k hk hK
      refine Machine.resolves_star hs.sentinel_notMem hp.1 (⟨b + p.codeSize, ·⟩)
        (⟨b + p.codeSize + 2, ·⟩) (fun k hk K found hround hleave => ?_) hk hK
      exact .fork (Machine.move_split hbranch) (ih hbody hp.2 hk hround)
        (.goto (Machine.move_nop hmeet) hleave)
    rw [Pattern.ends_plus] at hK ⊢
    rw [findSome?_flatMap]
    exact ih hbody hp.2 hi fun k hk => hrest k (hle hi hk) fun j hj =>
      hK j (List.mem_flatMap.2 ⟨k, hk, hj⟩)
  | opt p ih =>
    obtain ⟨hbranch, hbody, hmeet⟩ := holds_opt.1 h
    have hend : ∀ j ∈ (Pattern.opt p).ends text.toList i,
        m.Resolves ⟨b + p.codeSize + 1, j⟩ (K j) := fun j hj =>
      .goto (Machine.move_nop hmeet) (hK j hj)
    rw [Pattern.ends] at hend ⊢
    rw [List.findSome?_append, List.findSome?_singleton]
    refine .fork (Machine.move_split hbranch) (ih hbody hp hi fun j hj => ?_)
      (hend i (by simp))
    rw [Nat.add_right_comm]
    exact hend j (List.mem_append_left _ hj)

end Program.Holds

/-! ## The program of a pattern -/

/-- What comes of a thread at the start of the program is the first end of the pattern. -/
theorem Pattern.resolves_head? {m : Machine} {text : String} {p : Pattern} {i : Nat}
    (hs : m.subject.Of text) (hm : m.program = p.program) (hp : p.Productive)
    (hi : i ≤ text.toList.length) :
    m.Resolves ⟨Program.start, i⟩ (p.ends text.toList i).head? := by
  have h : m.program.Holds Program.start p := hm ▸ p.holds_program
  rw [← findSome?_some]
  exact h.resolves hs hp hi fun j _ => .accept (Machine.move_behind hm j)

end PatternMachine
