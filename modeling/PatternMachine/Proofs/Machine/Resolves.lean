import Mathlib.Logic.Relation
import PatternMachine.Proofs.Machine.FirstEnd

/-!
# Threads whose ways all end

Where no way comes back to a state it has been in, refusing such states has no effect: the thread
can be followed by its moves alone (`Machine.Resolves`), and what comes of it is what backtracking
finds (`Resolves.firstEnd_eq`), also without states of which another end would come
(`Resolves.firstEnd_eq_of_lacking`).
-/

namespace PatternMachine.Machine

variable {b : Bounds} {m : Machine} {t u v : Thread}

/-- All ways from `t` end, and `found` is the end of the first one that leads to `accept`, if one
does. -/
inductive Resolves (m : Machine) : (t : Thread) → (found : Option Nat) → Prop
  | accept {t : Thread} : m.move t = .accept → Resolves m t (some t.pos)
  | die {t : Thread} : m.move t = .die → Resolves m t none
  | goto {t u : Thread} {found : Option Nat} : m.move t = .goto u → Resolves m u found →
      Resolves m t found
  | fork {t u v : Thread} {first second : Option Nat} : m.move t = .fork u v →
      Resolves m u first → Resolves m v second → Resolves m t (first.or second)

/-- `t` turns into `u` in one move. -/
def Next (m : Machine) (t u : Thread) : Prop :=
  u ∈ (m.move t).threads

/-- `t` turns into `u` in some number of moves. -/
abbrev Reaches (m : Machine) : Thread → Thread → Prop :=
  Relation.ReflTransGen m.Next

/-- Every way from a state within the bounds stays within them. -/
theorem StaysIn.reaches (hm : m.StaysIn b) (h : m.Reaches t u) (ht : b.contains t = true) :
    b.contains u = true := by
  induction h with
  | refl => exact ht
  | tail _ hnext ih => exact (hm _ ih).2 _ hnext

/-- A thread that goes on as another one leads to this one only. -/
theorem next_iff_of_goto (h : m.move t = .goto u) : m.Next t v ↔ v = u := by
  rw [Next, h, Move.threads, List.mem_singleton]

/-- A thread that splits leads to the two. -/
theorem next_iff_of_fork {w : Thread} (h : m.move t = .fork u v) :
    m.Next t w ↔ w = u ∨ w = v := by
  rw [Next, h, Move.threads, List.mem_pair]

namespace Resolves

variable {found : Option Nat}

/-- If all ways from a thread end, its moves can be followed by induction. -/
theorem acc (h : m.Resolves t found) : Acc (fun u t => m.Next t u) t := by
  induction h with
  | accept h => exact .intro _ fun u hu => by simp [Next, h, Move.threads] at hu
  | die h => exact .intro _ fun u hu => by simp [Next, h, Move.threads] at hu
  | goto h _ ih => exact .intro _ fun u hu => (next_iff_of_goto h).1 hu ▸ ih
  | fork h _ _ ih₁ ih₂ =>
    refine .intro _ ?_
    intro u hu
    rcases (next_iff_of_fork h).1 hu with rfl | rfl
    · exact ih₁
    · exact ih₂

/-- No way comes back to where it started. -/
theorem not_reflTransGen (h : m.Resolves t found) (hu : m.Next t u) :
    ¬ m.Reaches u t := by
  have hacc := h.acc
  clear h
  induction hacc generalizing u with
  | intro t _ ih =>
    intro hback
    rcases Relation.ReflTransGen.cases_head hback with rfl | ⟨w, huw, hwt⟩
    · exact ih u hu hu .refl
    · exact ih u hu huw (hwt.tail hu)

/-- What lacks on the ways from a thread lacks on those from the threads it turns into, and the
state it has been in is on none of them. -/
theorem lacking_erase (h : m.Resolves t found) (hu : m.Next t u) {room : Finset Thread}
    {P : Thread → Prop} (hlacking : ∀ w, m.Reaches t w → w ∉ room → P w) :
    ∀ w, m.Reaches u w → w ∉ room.erase t → P w := by
  intro w hw hnot
  refine hlacking w (hw.head hu) fun hmem => hnot (Finset.mem_erase.2 ⟨?_, hmem⟩)
  rintro rfl
  exact h.not_reflTransGen hu hw

/-- Backtracking finds what comes of `t`, even if states lack on the ways from `t` of which another
end comes. -/
theorem firstEnd_eq_of_lacking (h : m.Resolves t found) {e : Nat} (hne : found ≠ some e)
    {room : Finset Thread} (hlacking : ∀ u, m.Reaches t u → u ∉ room →
      ∀ other, m.Resolves u other → other = some e) : m.firstEnd room t = found := by
  have hroom : ∀ {t : Thread} {found : Option Nat} {room : Finset Thread},
      m.Resolves t found → found ≠ some e →
      (∀ u, m.Reaches t u → u ∉ room → ∀ other, m.Resolves u other → other = some e) →
      t ∈ room := fun h hne hlacking =>
    Classical.by_contradiction fun hnot => hne (hlacking _ .refl hnot _ h)
  induction h generalizing room with
  | accept h => exact firstEnd_of_accept (hroom (.accept h) hne hlacking) h
  | die h => exact firstEnd_of_die (hroom (.die h) hne hlacking) h
  | goto h hu ih =>
    rw [firstEnd_of_goto (hroom (.goto h hu) hne hlacking) h]
    exact ih hne ((goto h hu).lacking_erase ((next_iff_of_goto h).2 rfl) hlacking)
  | @fork t u v first second h hu hv ih₁ ih₂ =>
    have hfirst : first ≠ some e := by
      rintro rfl
      exact hne rfl
    rw [firstEnd_of_fork (hroom (.fork h hu hv) hne hlacking) h, ih₁ hfirst
      ((fork h hu hv).lacking_erase ((next_iff_of_fork h).2 (.inl rfl)) hlacking)]
    -- The second thread counts only if nothing comes of the first one.
    cases first with
    | some k => rfl
    | none =>
      rw [Option.none_or] at hne ⊢
      exact ih₂ hne ((fork h hu hv).lacking_erase ((next_iff_of_fork h).2 (.inr rfl)) hlacking)

/-- With room for every state on the ways from `t`, backtracking finds what comes of `t`. -/
theorem firstEnd_eq_of_room (h : m.Resolves t found) {room : Finset Thread}
    (hroom : ∀ u, m.Reaches t u → u ∈ room) : m.firstEnd room t = found := by
  obtain ⟨e, he⟩ : ∃ e, found ≠ some e := by
    cases found with
    | none => exact ⟨0, nofun⟩
    | some k => exact ⟨k + 1, by simp⟩
  exact h.firstEnd_eq_of_lacking he fun u hu hnot => absurd (hroom u hu) hnot

/-- What comes of a thread is what backtracking finds from it. -/
theorem firstEnd_eq (h : m.Resolves t found) (hm : m.StaysIn b) (hb : b.contains t = true) :
    m.firstEnd (allRoom b) t = found :=
  h.firstEnd_eq_of_room fun _ hu => mem_allRoom.2 (hm.reaches hu hb)

end Resolves

end PatternMachine.Machine
