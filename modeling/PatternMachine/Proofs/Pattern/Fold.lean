import PatternMachine.Pattern.Fold

/-!
# Other ways to fold a list of patterns

`Pattern.fold` halves its list, where a loop from the left or from the right would nest to one side.
Up to a relation for which the operation is associative, all three ways give the same
(`Regroups.fold_foldl`, `Regroups.fold_foldr`). What patterns have in common wherever they occur is
said with a context, a pattern with a hole that they are filled into.
-/

namespace PatternMachine.Pattern

/-! ## Contexts -/

/-- A pattern with a hole in place of one of its parts. -/
inductive Context where
  | hole
  | seqLeft (C : Context) (r : Pattern)
  | seqRight (l : Pattern) (C : Context)
  | altLeft (C : Context) (r : Pattern)
  | altRight (l : Pattern) (C : Context)
  | star (C : Context)
  | plus (C : Context)
  | opt (C : Context)

namespace Context

/-- The pattern with `p` in the hole. -/
def fill : Context → Pattern → Pattern
  | hole, p => p
  | seqLeft C r, p => .seq (C.fill p) r
  | seqRight l C, p => .seq l (C.fill p)
  | altLeft C r, p => .alt (C.fill p) r
  | altRight l C, p => .alt l (C.fill p)
  | star C, p => .star (C.fill p)
  | plus C, p => .plus (C.fill p)
  | opt C, p => .opt (C.fill p)

/-- The context with `D` in the hole of `C`. -/
def comp : (C D : Context) → Context
  | hole, D => D
  | seqLeft C r, D => seqLeft (C.comp D) r
  | seqRight l C, D => seqRight l (C.comp D)
  | altLeft C r, D => altLeft (C.comp D) r
  | altRight l C, D => altRight l (C.comp D)
  | star C, D => star (C.comp D)
  | plus C, D => plus (C.comp D)
  | opt C, D => opt (C.comp D)

/-- Filling a context within a context is filling both, the inner one first. -/
theorem fill_comp (C D : Context) (p : Pattern) : (C.comp D).fill p = C.fill (D.fill p) := by
  induction C with
  | hole => rfl
  | seqLeft C r ih | seqRight l C ih | altLeft C r ih | altRight l C ih | star C ih | plus C ih
  | opt C ih => rw [comp, fill, fill, ih]

end Context

/-! ## Folding up to a relation -/

/-- Up to the equivalence `R`, which `join` respects, `join` is associative. -/
structure Regroups (join : Pattern → Pattern → Pattern) (R : Pattern → Pattern → Prop) : Prop where
  equivalence : Equivalence R
  congr : ∀ {p p' q q'}, R p p' → R q q' → R (join p q) (join p' q')
  assoc : ∀ p q r, R (join (join p q) r) (join p (join q r))

/-- Two patterns or more are split into two lists that are not empty. -/
theorem exists_fold_eq (join : Pattern → Pattern → Pattern) (p q : Pattern) (rest : List Pattern) :
    ∃ left r right, q :: rest = left ++ r :: right ∧
      fold join (p :: q :: rest) = join (fold join (p :: left)) (fold join (r :: right)) := by
  have hhalf : (p :: q :: rest).length / 2 = rest.length / 2 + 1 :=
    Nat.add_div_right rest.length Nat.two_pos
  have hdrop : (q :: rest).drop (rest.length / 2) ≠ [] := by
    intro hnil
    have := List.drop_eq_nil_iff.1 hnil
    rw [List.length_cons] at this
    omega
  obtain ⟨r, right, hright⟩ := List.exists_cons_of_ne_nil hdrop
  refine ⟨(q :: rest).take (rest.length / 2), r, right, ?_, ?_⟩
  · rw [← hright, List.take_append_drop]
  · rw [fold, hhalf, List.take_succ_cons, List.drop_succ_cons, hright]

namespace Regroups

variable {join : Pattern → Pattern → Pattern} {R : Pattern → Pattern → Prop}

/-- A pattern joined from the left may be joined to the first item already. -/
theorem join_foldl (h : Regroups join R) (p q : Pattern) (qs : List Pattern) :
    R (join p (qs.foldl join q)) (qs.foldl join (join p q)) := by
  have hcongr : ∀ {p p' : Pattern} (qs : List Pattern), R p p' →
      R (qs.foldl join p) (qs.foldl join p') := by
    intro p p' qs hp
    induction qs generalizing p p' with
    | nil => exact hp
    | cons q qs ih => exact ih (h.congr hp (h.equivalence.refl q))
  induction qs generalizing q with
  | nil => exact h.equivalence.refl _
  | cons r qs ih =>
    exact h.equivalence.trans (ih (join q r)) (hcongr qs (h.equivalence.symm (h.assoc p q r)))

/-- Halving joins as a loop from the left does. -/
theorem fold_foldl (h : Regroups join R) (p : Pattern) (ps : List Pattern) :
    R (fold join (p :: ps)) (ps.foldl join p) := by
  induction hn : ps.length using Nat.strongRecOn generalizing p ps with
  | _ n ih =>
    subst hn
    cases ps with
    | nil =>
      rw [fold]
      exact h.equivalence.refl p
    | cons q rest =>
      obtain ⟨left, r, right, hsplit, hfold⟩ := exists_fold_eq join p q rest
      have hlen := congrArg List.length hsplit
      rw [List.length_append, List.length_cons, List.length_cons] at hlen
      have hleft := ih left.length (by rw [List.length_cons]; omega) p left rfl
      have hright := ih right.length (by rw [List.length_cons]; omega) r right rfl
      rw [hfold, hsplit, List.foldl_append, List.foldl_cons]
      exact h.equivalence.trans (h.congr hleft hright) (h.join_foldl _ r right)

/-- A loop from the left joins as one from the right does. -/
theorem foldl_foldr (h : Regroups join R) (q : Pattern) (ps : List Pattern) (p : Pattern) :
    R ((ps ++ [p]).foldl join q) (join q (ps.foldr join p)) := by
  induction ps generalizing q with
  | nil => exact h.equivalence.refl _
  | cons r ps ih => exact h.equivalence.trans (ih (join q r)) (h.assoc q r _)

/-- So does halving. -/
theorem fold_foldr (h : Regroups join R) (ps : List Pattern) (p : Pattern) :
    R (fold join (ps ++ [p])) (ps.foldr join p) := by
  cases ps with
  | nil => exact h.fold_foldl p []
  | cons q ps => exact h.equivalence.trans (h.fold_foldl q (ps ++ [p])) (h.foldl_foldr q ps p)

end Regroups

end PatternMachine.Pattern
