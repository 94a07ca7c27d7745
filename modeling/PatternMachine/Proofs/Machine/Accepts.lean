import PatternMachine.Proofs.Machine.FirstEnd

/-!
# Ways to accept

Apart from its preferences, the machine decides whether a thread has a way to `accept`
(`Machine.CanAccept`). What backtracking finds is the end of such a way (`canAccept_of_firstEnd`),
and if it finds none there is none (`not_canAccept_of_firstEnd`): a state that is refused on its own
way can be left out of it.
-/

namespace PatternMachine.Machine

variable {b : Bounds} {m : Machine}

/-- From `t` one way leads in `n` moves to an `accept` at the end `e`. -/
inductive Accepts (m : Machine) : (n : Nat) → (t : Thread) → (e : Nat) → Prop
  | here {t : Thread} : m.move t = .accept → Accepts m 0 t t.pos
  | move {n e : Nat} {t u : Thread} : u ∈ (m.move t).threads → Accepts m n u e →
      Accepts m (n + 1) t e

namespace Accepts

variable {n e : Nat} {t u v : Thread}

/-- An accepting thread accepts at its own position only. -/
theorem of_accept (ha : m.move t = .accept) (h : m.Accepts n t e) : e = t.pos := by
  cases h with
  | here => rfl
  | move hu => simp [ha, Move.threads] at hu

/-- A thread that goes on as another one accepts as that one does, one move later. -/
theorem of_goto (hm : m.move t = .goto u) (h : m.Accepts n t e) : ∃ k < n, m.Accepts k u e := by
  cases h with
  | here ha => rw [hm] at ha; cases ha
  | @move n _ _ _ hu h =>
    rw [hm, Move.threads, List.mem_singleton] at hu
    exact ⟨n, Nat.lt_succ_self n, hu ▸ h⟩

/-- A thread that splits accepts as one of the two does, one move later. -/
theorem of_fork (hm : m.move t = .fork u v) (h : m.Accepts n t e) :
    ∃ k < n, m.Accepts k u e ∨ m.Accepts k v e := by
  cases h with
  | here ha => rw [hm] at ha; cases ha
  | @move n _ _ _ hu h =>
    rw [hm, Move.threads, List.mem_pair] at hu
    refine ⟨n, Nat.lt_succ_self n, ?_⟩
    rcases hu with rfl | rfl
    · exact .inl h
    · exact .inr h

/-- A thread that dies accepts nowhere. -/
theorem not_of_die (hm : m.move t = .die) : ¬ m.Accepts n t e := by
  intro h
  cases h with
  | here ha => rw [hm] at ha; cases ha
  | move hu => simp [hm, Move.threads] at hu

end Accepts

/-- From `t` some way leads to an `accept` at the end `e`. -/
def CanAccept (m : Machine) (t : Thread) (e : Nat) : Prop :=
  ∃ n, m.Accepts n t e

namespace CanAccept

variable {e : Nat} {t u v : Thread}

/-- A thread at an `accept` accepts where it is. -/
theorem here (hm : m.move t = .accept) : m.CanAccept t t.pos :=
  ⟨0, .here hm⟩

/-- A thread that goes on as another one accepts wherever that one does. -/
theorem goto (hm : m.move t = .goto u) (h : m.CanAccept u e) : m.CanAccept t e :=
  h.elim fun n hn => ⟨n + 1, .move (by simp [hm, Move.threads]) hn⟩

/-- A thread that splits accepts wherever the first of the two does. -/
theorem fork_left (hm : m.move t = .fork u v) (h : m.CanAccept u e) : m.CanAccept t e :=
  h.elim fun n hn => ⟨n + 1, .move (by simp [hm, Move.threads]) hn⟩

/-- It also accepts wherever the second of the two does. -/
theorem fork_right (hm : m.move t = .fork u v) (h : m.CanAccept v e) : m.CanAccept t e :=
  h.elim fun n hn => ⟨n + 1, .move (by simp [hm, Move.threads]) hn⟩

end CanAccept

/-- What backtracking finds is the end of a way to `accept`. -/
theorem canAccept_of_firstEnd {room : Finset Thread} {t : Thread} {e : Nat}
    (h : m.firstEnd room t = some e) : m.CanAccept t e := by
  induction hn : room.card using Nat.strongRecOn generalizing room t with
  | _ n ih =>
    subst hn
    have ht : t ∈ room := by
      by_contra hnot
      rw [firstEnd_of_notMem hnot] at h
      cases h
    by_cases ha : m.move t = .accept
    · rw [firstEnd_of_accept ht ha] at h
      cases h
      exact .here ha
    · rw [firstEnd_of_move ht ha] at h
      obtain ⟨u, hu, h⟩ := List.exists_of_findSome?_eq_some h
      obtain ⟨k, hk⟩ := ih _ (Finset.card_erase_lt_of_mem ht) h rfl
      exact ⟨k + 1, .move hu hk⟩

/-- Where backtracking finds nothing there is no way to `accept`. -/
theorem not_canAccept_of_firstEnd (hm : m.StaysIn b) {t : Thread} (hb : b.contains t = true)
    (h : m.firstEnd (allRoom b) t = none) (e : Nat) : ¬ m.CanAccept t e := by
  intro hyp
  obtain ⟨n, ha⟩ := hyp
  induction ha with
  | @here t ha =>
    rw [firstEnd_of_accept (mem_allRoom.2 hb) ha] at h
    cases h
  | @move n e t u hu _ ih =>
    have ht : t ∈ allRoom b := mem_allRoom.2 hb
    refine ih ((hm t hb).2 u hu) ?_
    have hne : m.move t ≠ .accept := fun ha => by simp [ha, Move.threads] at hu
    have hall := h
    rw [firstEnd_of_move ht hne, List.findSome?_eq_none_iff] at hall
    rw [← firstEnd_erase h u]
    exact hall u hu

end PatternMachine.Machine
