import PatternMachine.Machine.Search

/-!
# The machine as a worklist

A configuration of the machine is a running thread, the threads that wait behind it and the states
entered so far. Here the running thread and the waiting ones are one list, and `Machine.drain`
works through it. An attempt is then described by four equations: a state entered before is
skipped (`drain_seen`), an accepting thread ends the attempt (`drain_accept`), a `split` may find
the list full (`drain_full`), and any other thread enters its state and is replaced by the threads
it turns into (`drain_enter`). `Machine.drain_induction` is induction over these equations; the
proofs about the machine use it and never look at a configuration again.
-/

namespace PatternMachine

namespace Ready

/-- The threads `ts`, waiting in this order. -/
def ofList (ts : List Thread) : Ready :=
  { threads := ts, size := ts.length }

@[simp]
theorem size_ofList (ts : List Thread) : (ofList ts).size = ts.length := rfl

@[simp]
theorem push_ofList (t : Thread) (ts : List Thread) : (ofList ts).push t = ofList (t :: ts) := rfl

@[simp]
theorem pop?_ofList_nil : (ofList []).pop? = none := rfl

@[simp]
theorem pop?_ofList_cons (t : Thread) (ts : List Thread) :
    (ofList (t :: ts)).pop? = some (t, ofList ts) := rfl

end Ready

namespace Move

/-- The threads that a thread turns into, the preferred one first. -/
def threads : Move → List Thread
  | goto t => [t]
  | fork first second => [first, second]
  | die | accept | outside => []

/-- Whether one thread becomes two. -/
def forks : Move → Bool
  | fork _ _ => true
  | die | accept | goto _ | outside => false

/-- A thread turns into at most two. -/
theorem length_threads_le (mv : Move) : mv.threads.length ≤ 2 := by
  cases mv <;> simp [threads]

end Move

namespace Machine

variable {b : Bounds} {m : Machine}

/-- Works through the threads `ts`, the states in `v` having been entered already. -/
def drain (m : Machine) (v : Visited b) : List Thread → Attempt b
  | [] => .failed v
  | t :: ts => m.run { current := t, ready := .ofList ts, visited := v }

/-- `m` never leaves the bounds `b`: no instruction and no character is missing there, and every
thread within them turns into threads within them. -/
def StaysIn (m : Machine) (b : Bounds) : Prop :=
  ∀ t, b.contains t = true →
    m.move t ≠ .outside ∧ ∀ u ∈ (m.move t).threads, b.contains u = true

/-- An attempt works through the one thread it starts with. -/
theorem attempt_eq_drain (v : Visited b) (start : Nat) :
    m.attempt v start = m.drain v [⟨Program.start, start⟩] := rfl

/-! ## The equations -/

/-- A run goes on from the configuration that one step leads to. -/
theorem run_of_next {c c' : Config b} (h : m.step c = .next c') : m.run c = m.run c' := by
  rw [run]
  split
  · rename_i h'
    rw [h] at h'
    cases h'
    rfl
  · rename_i h'
    rw [h] at h'
    cases h'

/-- A run ends where one step ends it. -/
theorem run_of_done {c : Config b} {result : Attempt b} (h : m.step c = .done result) :
    m.run c = result := by
  rw [run]
  split
  · rename_i h'
    rw [h] at h'
    cases h'
  · rename_i h'
    rw [h] at h'
    cases h'
    rfl

/-- A run whose thread dies goes on with the waiting threads. -/
theorem run_of_resume {c : Config b} {v : Visited b} {ts : List Thread}
    (h : m.step c = .resume (.ofList ts) v) : m.run c = m.drain v ts := by
  cases ts with
  | nil => exact run_of_done h
  | cons t ts => exact run_of_next h

/-- An attempt without threads has failed. -/
@[simp]
theorem drain_nil (v : Visited b) : m.drain v [] = .failed v := rfl

/-- A thread in a state that was entered before dies. -/
theorem drain_seen {v : Visited b} {t : Thread} {ts : List Thread} (hb : b.contains t = true)
    (hv : v.contains t = true) : m.drain v (t :: ts) = m.drain v ts :=
  run_of_resume (by simp [step, hb, hv])

/-- The first thread to reach an `accept` ends the attempt. -/
theorem drain_accept {v : Visited b} {t : Thread} {ts : List Thread} (hb : b.contains t = true)
    (hv : v.contains t = false) (ha : m.move t = .accept) :
    m.drain v (t :: ts) = .accepted t.pos :=
  run_of_done (by simp [step, hb, hv, ha])

/-- A `split` gives the attempt up when no further thread may wait. -/
theorem drain_full {v : Visited b} {t : Thread} {ts : List Thread} (hb : b.contains t = true)
    (hv : v.contains t = false) (hf : (m.move t).forks = true)
    (hl : m.threadLimit ≤ ts.length) :
    m.drain v (t :: ts) = .stopped (.threadLimitExceeded m.threadLimit) := by
  refine run_of_done ?_
  cases hm : m.move t with
  | fork first second => simp [step, hb, hv, hm, hl]
  | die | accept | goto | outside => simp [hm, Move.forks] at hf

/-- Any other thread enters its state and gives way to the threads it turns into. -/
theorem drain_enter {v : Visited b} {t : Thread} {ts : List Thread} (hb : b.contains t = true)
    (hv : v.contains t = false) (ho : m.move t ≠ .outside) (ha : m.move t ≠ .accept)
    (hl : (m.move t).forks = true → ts.length < m.threadLimit) :
    m.drain v (t :: ts) = m.drain (v.insert t) ((m.move t).threads ++ ts) := by
  cases hm : m.move t with
  | die => exact run_of_resume (by simp [step, hb, hv, hm, Move.threads])
  | accept => exact absurd hm ha
  | goto u => exact run_of_next (by simp [step, hb, hv, hm])
  | fork first second =>
    have : ¬ m.threadLimit ≤ ts.length := Nat.not_le.2 (hl (by simp [hm, Move.forks]))
    exact run_of_next (by simp [step, hb, hv, hm, this])
  | outside => exact absurd hm ho

/-! ## Induction -/

/-- What bounds the equations still to be used: entering a state uses one up and may leave one
more thread to wait, and skipping uses a thread up. -/
def pending (v : Visited b) (ts : List Thread) : Nat :=
  2 * v.unvisited + ts.length

/-- Entering a state leaves less to do. -/
theorem pending_enter {v : Visited b} {t : Thread} {ts : List Thread} (hb : b.contains t = true)
    (hv : v.contains t = false) :
    pending (v.insert t) ((m.move t).threads ++ ts) < pending v (t :: ts) := by
  have h₁ := Visited.unvisited_insert_lt hb hv
  have h₂ := (m.move t).length_threads_le
  simp only [pending, List.length_append, List.length_cons]
  omega

/-- Induction along the equations of `drain`, for threads within the bounds. -/
theorem drain_induction {motive : Visited b → List Thread → Prop} (hm : m.StaysIn b)
    (nil : ∀ v, motive v [])
    (seen : ∀ v t ts, b.contains t = true → v.contains t = true → motive v ts → motive v (t :: ts))
    (enter : ∀ v t ts, b.contains t = true → v.contains t = false →
      motive (v.insert t) ((m.move t).threads ++ ts) → motive v (t :: ts))
    (v : Visited b) (ts : List Thread) (hts : ∀ t ∈ ts, b.contains t = true) : motive v ts := by
  match ts with
  | [] => exact nil v
  | t :: ts =>
    have hb := hts t List.mem_cons_self
    have hrest : ∀ u ∈ ts, b.contains u = true := fun u hu => hts u (List.mem_cons_of_mem _ hu)
    cases hv : v.contains t with
    | true => exact seen v t ts hb hv (drain_induction hm nil seen enter v ts hrest)
    | false =>
      refine enter v t ts hb hv (drain_induction hm nil seen enter _ _ ?_)
      intro u hu
      rcases List.mem_append.1 hu with hu | hu
      · exact (hm t hb).2 u hu
      · exact hrest u hu
termination_by pending v ts
decreasing_by
  · exact pending_enter hb hv
  · simp [pending]

end Machine

end PatternMachine
