import PatternMachine.Proofs.Machine.Accepts
import PatternMachine.Proofs.Machine.Alike
import PatternMachine.Proofs.Machine.Resolves

/-!
# A machine within another one

One machine may do at some of its instructions, moved to another place, what a second machine does
alone, and go on behind them where the second one accepts (`Machine.Embeds`). Backtracking through
these instructions finds only what can be found behind them (`Embeds.exists_exit`), and if the
second machine finds an end, then whatever is found from behind the instructions at that end is what
is found through them (`Embeds.enters`). The states on the way to that end are then in use: each of
them leads to that end even without the states that were on the way before it (`Machine.OnWay`).
-/

namespace PatternMachine

/-- `t`, at an instruction `base` places further on. -/
def Thread.moved (base : Nat) (t : Thread) : Thread :=
  ⟨base + t.pc, t.pos⟩

/-- Two threads that are moved alike are the same exactly if they were the same. -/
theorem Thread.moved_inj {base : Nat} {t u : Thread} : t.moved base = u.moved base ↔ t = u := by
  cases t
  cases u
  simp [moved]

namespace Machine

variable {b : Bounds} {m n : Machine}

/-! ## Ways -/

/-- A thread does not go back in the text. -/
theorem pos_le_of_next {t u : Thread} (h : m.Next t u) : t.pos ≤ u.pos := by
  unfold Next move at h
  repeat' split at h
  all_goals simp only [Move.threads, List.not_mem_nil, List.mem_cons, or_false] at h
  all_goals rcases h with rfl | rfl
  all_goals simp

/-- Nor does a way that it takes. -/
theorem Reaches.pos_le {t u : Thread} (h : m.Reaches t u) : t.pos ≤ u.pos := by
  induction h with
  | refl => exact Nat.le_refl _
  | tail _ hnext ih => exact ih.trans (pos_le_of_next hnext)

/-- So a thread accepts at no position before its own. -/
theorem CanAccept.pos_le {t : Thread} {e : Nat} (h : m.CanAccept t e) : t.pos ≤ e := by
  obtain ⟨n, h⟩ := h
  induction h with
  | here => exact Nat.le_refl _
  | move hu _ ih => exact (pos_le_of_next hu).trans ih

/-- A thread accepts where a thread that it leads to does. -/
theorem CanAccept.of_reaches {t u : Thread} {e : Nat} (h : m.Reaches t u) (hu : m.CanAccept u e) :
    m.CanAccept t e := by
  induction h using Relation.ReflTransGen.head_induction_on with
  | refl => exact hu
  | head hnext _ ih => exact ih.elim fun n hn => ⟨n + 1, .move hnext hn⟩

/-- A thread for which something is found has room. -/
theorem mem_of_firstEnd {room : Finset Thread} {t : Thread} {e : Nat}
    (h : m.firstEnd room t = some e) : t ∈ room := by
  by_contra hnot
  rw [firstEnd_of_notMem hnot] at h
  cases h

/-- What is found depends only on the states on the ways from the thread. -/
theorem firstEnd_congr {room room' : Finset Thread} {t : Thread}
    (h : ∀ u, m.Reaches t u → (u ∈ room ↔ u ∈ room')) :
    m.firstEnd room t = m.firstEnd room' t := by
  induction hn : room.card using Nat.strongRecOn generalizing room room' t with
  | _ _ ih =>
    subst hn
    by_cases ht : t ∈ room
    · have ht' := (h t .refl).1 ht
      by_cases ha : m.move t = .accept
      · rw [firstEnd_of_accept ht ha, firstEnd_of_accept ht' ha]
      · rw [firstEnd_of_move ht ha, firstEnd_of_move ht' ha]
        refine findSome?_eq_of_forall₂ (List.forall₂_same.2 fun u hu => ?_)
        refine ih _ (Finset.card_erase_lt_of_mem ht) (fun w hw => ?_) rfl
        rw [Finset.mem_erase, Finset.mem_erase, h w (hw.head hu)]
    · rw [firstEnd_of_notMem ht, firstEnd_of_notMem fun ht' => ht ((h t .refl).2 ht')]

/-- `u` is on a way on which backtracking finds the end `e` from `t`: it is found from `u` without
some states of the room that lead to `u`. -/
structure OnWay (m : Machine) (room : Finset Thread) (t : Thread) (e : Nat) (u : Thread) :
    Prop where
  reaches : m.Reaches t u
  found : ∃ within, m.firstEnd within u = some e ∧ ∀ z ∈ room, z ∉ within → m.Reaches z u

/-- A thread is on its own way. -/
theorem OnWay.here {room : Finset Thread} {t : Thread} {e : Nat}
    (h : m.firstEnd room t = some e) : m.OnWay room t e t :=
  ⟨.refl, room, h, fun _ hz hnot => absurd hz hnot⟩

/-- What is on the way of a thread is on the way of one that turns into it, since the state of that
one leads there as well. -/
theorem OnWay.head {room : Finset Thread} {t u v : Thread} {e : Nat} (hnext : m.Next t u)
    (h : m.OnWay (room.erase t) u e v) : m.OnWay room t e v := by
  obtain ⟨hreach, within, hfound, hmissing⟩ := h
  refine ⟨hreach.head hnext, within, hfound, fun z hz hnot => ?_⟩
  by_cases hzt : z = t
  · exact hzt ▸ hreach.head hnext
  · exact hmissing z (Finset.mem_erase.2 ⟨hzt, hz⟩) hnot

/-! ## Embedded machines -/

/-- From `base` on `m` does what `n` does at its first `size` instructions, and goes on behind them
where `n` accepts. -/
structure Embeds (n m : Machine) (base size : Nat) : Prop where
  exit : ∀ pos, n.move ⟨size, pos⟩ = .accept
  inner : ∀ t : Thread, t.pc < size → n.move t ≠ .accept
  outer : ∀ t : Thread, t.pc < size → m.move (t.moved base) ≠ .accept
  threads : ∀ t : Thread, t.pc < size →
    (m.move (t.moved base)).threads = (n.move t).threads.map (Thread.moved base)
  pc_le : ∀ t : Thread, t.pc < size → ∀ u ∈ (n.move t).threads, u.pc ≤ size

/-- What a room of the outer machine leaves of the room of the embedded one. -/
def inside (b : Bounds) (base size : Nat) (room : Finset Thread) : Finset Thread :=
  (allRoom b).filter fun t => t.pc < size → t.moved base ∈ room

section

variable {base size : Nat} {room : Finset Thread} {t : Thread}

/-- A state has room inside exactly if its place outside has room, should it be among the embedded
instructions. -/
theorem mem_inside : t ∈ inside b base size room ↔
    b.contains t = true ∧ (t.pc < size → t.moved base ∈ room) := by
  rw [inside, Finset.mem_filter, mem_allRoom]

/-- A state without room inside has none outside. -/
theorem moved_notMem_of_inside (ht : b.contains t = true) (h : t ∉ inside b base size room) :
    t.pc < size ∧ t.moved base ∉ room := by
  rw [mem_inside, not_and, Classical.not_imp] at h
  exact h ht

/-- A state taken out of the outer room leaves the room inside. -/
theorem inside_erase (ht : t.pc < size) :
    inside b base size (room.erase (t.moved base)) = (inside b base size room).erase t := by
  ext u
  rw [Finset.mem_erase, mem_inside, mem_inside]
  simp only [Finset.mem_erase, ne_eq, Thread.moved_inj]
  constructor
  · rintro ⟨hb, hu⟩
    refine ⟨?_, hb, fun hlt => (hu hlt).2⟩
    rintro rfl
    exact (hu ht).1 rfl
  · rintro ⟨hne, hb, hu⟩
    exact ⟨hb, fun hlt => ⟨hne, hu hlt⟩⟩

/-- A state that is not among the embedded instructions makes no difference inside. -/
theorem inside_erase_of_outside {x : Thread} (hx : x.pc < base ∨ base + size ≤ x.pc) :
    inside b base size (room.erase x) = inside b base size room := by
  ext u
  rw [mem_inside, mem_inside]
  refine and_congr_right fun _ => forall_congr' fun hlt => ?_
  rw [Finset.mem_erase, and_iff_right_iff_imp]
  rintro - rfl
  simp only [Thread.moved] at hx
  omega

end

namespace Embeds

variable {base size : Nat} {room : Finset Thread} {t : Thread} {e found : Nat}

/-- What is found through the embedded instructions is found behind them, at an end that the
embedded machine accepts, and then the embedded machine finds something as well. -/
theorem exists_exit (h : n.Embeds m base size) (hn : n.StaysIn b) (ht : b.contains t = true)
    (hpc : t.pc ≤ size) (hfound : m.firstEnd room (t.moved base) = some found) :
    (n.firstEnd (inside b base size room) t).isSome ∧
      ∃ e, n.CanAccept t e ∧ ∃ less ⊆ room, m.firstEnd less ⟨base + size, e⟩ = some found := by
  induction hcard : room.card using Nat.strongRecOn generalizing room t with
  | _ _ ih =>
    subst hcard
    have hroom := mem_of_firstEnd hfound
    rcases Nat.lt_or_eq_of_le hpc with hlt | heq
    · rw [firstEnd_of_move hroom (h.outer t hlt), h.threads t hlt, List.findSome?_map] at hfound
      obtain ⟨u, hu, hfound⟩ := List.exists_of_findSome?_eq_some hfound
      obtain ⟨hsome, e, he, less, hless, hend⟩ := ih _ (Finset.card_erase_lt_of_mem hroom)
        ((hn t ht).2 u hu) (h.pc_le t hlt u hu) hfound rfl
      rw [inside_erase hlt] at hsome
      refine ⟨?_, e, he.elim fun k hk => ⟨k + 1, .move hu hk⟩, less,
        hless.trans (Finset.erase_subset _ _), hend⟩
      rw [firstEnd_of_move (mem_inside.2 ⟨ht, fun _ => hroom⟩) (h.inner t hlt)]
      exact List.findSome?_isSome_iff.2 ⟨u, hu, hsome⟩
    · obtain ⟨pc, pos⟩ := t
      obtain rfl : pc = size := heq
      refine ⟨?_, pos, .here (h.exit pos), room, Finset.Subset.refl _, hfound⟩
      rw [firstEnd_of_accept (mem_inside.2 ⟨ht, fun hlt => absurd hlt (Nat.lt_irrefl _)⟩)
        (h.exit pos)]
      rfl

/-- Where the embedded machine finds nothing, nothing is found. -/
theorem firstEnd_eq_none (h : n.Embeds m base size) (hn : n.StaysIn b)
    (ht : b.contains t = true) (hpc : t.pc ≤ size)
    (hnone : n.firstEnd (inside b base size room) t = none) :
    m.firstEnd room (t.moved base) = none := by
  rw [Option.eq_none_iff_forall_ne_some]
  intro found hfound
  have hsome := (h.exists_exit hn ht hpc hfound).1
  rw [hnone] at hsome
  cases hsome

/-- If the embedded machine finds the end `e`, then what is found behind the embedded instructions
at `e` is what is found. The states that are in use by then are on the way to `e`. -/
theorem enters (h : n.Embeds m base size) (hn : n.StaysIn b) (ht : b.contains t = true)
    (hpc : t.pc ≤ size) (he : n.firstEnd (inside b base size room) t = some e) :
    ∃ less ⊆ room,
      (∀ found, m.firstEnd less ⟨base + size, e⟩ = some found →
        m.firstEnd room (t.moved base) = some found) ∧
      ∀ x ∈ room, x ∉ less → ∃ u, x = u.moved base ∧ u.pc < size ∧
        n.OnWay (inside b base size room) t e u := by
  induction hcard : room.card using Nat.strongRecOn generalizing room t with
  | _ _ ih =>
    subst hcard
    rcases Nat.lt_or_eq_of_le hpc with hlt | heq
    · have hroom : t.moved base ∈ room := (mem_inside.1 (mem_of_firstEnd he)).2 hlt
      have hfirst := he
      rw [firstEnd_of_move (mem_of_firstEnd he) (h.inner t hlt), ← inside_erase hlt,
        List.findSome?_eq_some_iff] at hfirst
      obtain ⟨before, u, after, hsplit, hu, hbefore⟩ := hfirst
      have hnext : ∀ x ∈ before ++ u :: after, n.Next t x := fun x hx => by rwa [Next, hsplit]
      have hunext := hnext u (by simp)
      obtain ⟨less, hless, hbehind, hused⟩ := ih _ (Finset.card_erase_lt_of_mem hroom)
        ((hn t ht).2 u hunext) (h.pc_le t hlt u hunext) hu rfl
      refine ⟨less, hless.trans (Finset.erase_subset _ _), fun found hfound => ?_,
        fun x hx hnot => ?_⟩
      · -- Nothing is found from the threads before `u`.
        rw [firstEnd_of_move hroom (h.outer t hlt), h.threads t hlt, List.findSome?_map,
          List.findSome?_eq_some_iff]
        refine ⟨before, u, after, hsplit, hbehind found hfound, fun x hx => ?_⟩
        have hxnext := hnext x (List.mem_append_left _ hx)
        exact h.firstEnd_eq_none hn ((hn t ht).2 x hxnext) (h.pc_le t hlt x hxnext) (hbefore x hx)
      · by_cases hxt : x = t.moved base
        · exact ⟨t, hxt, hlt, .here he⟩
        · obtain ⟨v, rfl, hv, hway⟩ := hused x (Finset.mem_erase.2 ⟨hxt, hx⟩) hnot
          rw [inside_erase hlt] at hway
          exact ⟨v, rfl, hv, .head hunext hway⟩
    · obtain ⟨pc, pos⟩ := t
      obtain rfl : pc = size := heq
      rw [firstEnd_of_accept (mem_of_firstEnd he) (h.exit pos)] at he
      cases he
      exact ⟨room, Finset.Subset.refl _, fun _ => id, fun _ hx hnot => absurd hx hnot⟩

end Embeds

end Machine

end PatternMachine
