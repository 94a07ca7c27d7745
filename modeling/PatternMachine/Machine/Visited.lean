import Std.Data.HashSet

/-!
# Threads and the states they have been in

A thread is a place in a program together with a place in a text. Running a thread from a state it
or another one was in before can only repeat what happened then, so a machine remembers its states
and enters none twice. There are finitely many of them, which is why every run ends: a machine
knows bounds for its states, and every state entered leaves one fewer to enter
(`Visited.unvisited_insert_lt`).
-/

namespace PatternMachine

/-- One way of matching that is being tried: the instruction to execute next and the position of
the character to read next. -/
structure Thread where
  pc : Nat
  pos : Nat
deriving DecidableEq, Hashable

/-- The states that can occur in one scan: instructions below `width`, positions from `first` up to
and including `last`. -/
structure Bounds where
  width : Nat
  first : Nat
  last : Nat

namespace Bounds

/-- Whether the state of `t` lies within the bounds. -/
def contains (b : Bounds) (t : Thread) : Bool :=
  t.pc < b.width && b.first ≤ t.pos && t.pos ≤ b.last

/-- All states within the bounds. -/
def states (b : Bounds) : List Thread :=
  (List.range b.width).flatMap fun pc =>
    (List.range' b.first (b.last + 1 - b.first)).map fun pos => ⟨pc, pos⟩

/-- The states within the bounds are those that the bounds contain. -/
theorem mem_states {b : Bounds} {t : Thread} : t ∈ b.states ↔ b.contains t = true := by
  obtain ⟨pc, pos⟩ := t
  simp only [states, contains, List.mem_flatMap, List.mem_range, List.mem_map,
    List.mem_range'_1, Thread.mk.injEq, Bool.and_eq_true, decide_eq_true_eq]
  constructor
  · rintro ⟨pc', hpc, pos', hpos, rfl, rfl⟩
    omega
  · rintro ⟨⟨hpc, hfirst⟩, hlast⟩
    exact ⟨pc, hpc, pos, by omega, rfl, rfl⟩

end Bounds

/-- The states a scan has entered. -/
structure Visited (b : Bounds) where
  states : Std.HashSet Thread := ∅

namespace Visited

variable {b : Bounds}

/-- Whether the state of `t` has been entered. -/
def contains (v : Visited b) (t : Thread) : Bool :=
  v.states.contains t

/-- Enters the state of `t`. -/
def insert (v : Visited b) (t : Thread) : Visited b :=
  ⟨v.states.insert t⟩

/-- The number of states that can still be entered. -/
def unvisited (v : Visited b) : Nat :=
  b.states.countP fun t => !v.contains t

/-- At first no state has been visited. -/
@[simp]
theorem contains_empty (t : Thread) : ({} : Visited b).contains t = false := by
  simp [contains]

/-- A state has been visited if it was before or is the one that is inserted. -/
@[simp]
theorem contains_insert (v : Visited b) (t u : Thread) :
    (v.insert t).contains u = (t == u || v.contains u) := by
  simp [contains, insert]

/-- Counting with a stronger test misses at least the element that fails only that one. -/
theorem countP_lt_countP {α : Type} {p q : α → Bool} {l : List α}
    (hpq : ∀ a ∈ l, p a = true → q a = true) {a : α} (ha : a ∈ l) (hp : p a = false)
    (hq : q a = true) : l.countP p < l.countP q := by
  induction l with
  | nil => cases ha
  | cons x xs ih =>
    have hrest : xs.countP p ≤ xs.countP q :=
      List.countP_mono_left fun y hy => hpq y (List.mem_cons_of_mem _ hy)
    rcases List.mem_cons.1 ha with rfl | ha
    · simp only [List.countP_cons, hp, hq, if_true, Bool.false_eq_true, if_false]
      omega
    · have hx := hpq x List.mem_cons_self
      have := ih (fun y hy => hpq y (List.mem_cons_of_mem _ hy)) ha
      simp only [List.countP_cons]
      split
      · rw [if_pos (hx ‹_›)]
        omega
      · omega

/-- Entering a new state leaves fewer states to enter. -/
theorem unvisited_insert_lt {v : Visited b} {t : Thread} (hb : b.contains t = true)
    (hv : v.contains t = false) : (v.insert t).unvisited < v.unvisited := by
  refine countP_lt_countP ?_ (Bounds.mem_states.2 hb) (by simp) (by simp [hv])
  intro u _ hu
  simp only [contains_insert, Bool.not_or, Bool.and_eq_true] at hu
  exact hu.2

end Visited

end PatternMachine
