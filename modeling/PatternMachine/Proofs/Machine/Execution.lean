import Mathlib.Logic.Relation
import PatternMachine.Proofs.Machine.InRange

/-!
# Searches step by step

A search goes through stages (`Stage`): it works through the threads of one attempt after the other
until it ends. One stage follows another by `Machine.Advances`, which knows the instructions, the
characters and the states executed before, but no bounds: nothing keeps it from looking for an
instruction or a character that does not exist, nor from going on for ever. That it does neither is
proved of the stages that a search comes to. Every equation of `Machine.drain` is one step, so a
search of the machine comes to a last stage that holds its result (`Machine.comes_find`,
`Machine.comes_matchEnd`); and since no stage has two successors (`Machine.Advances.unique`), the
stages on the way there are all that a search can come to.
-/

namespace PatternMachine

/-- A search between two steps. -/
inductive Stage where
  /-- The attempt at `start` has `threads` to work through, the running one first; `executed` are
  the states whose instructions the search has executed, in all its attempts, the latest first. -/
  | working (start : Nat) (threads executed : List Thread)
  /-- The search has ended. -/
  | ended (result : Except SearchError (Option (Nat × Nat))) (executed : List Thread)

namespace Stage

/-- The states whose instructions have been executed. -/
def executed : Stage → List Thread
  | working _ _ executed | ended _ executed => executed

/-- The first stage of a search that starts at the positions from `first` to `last`. -/
def opening (first last : Nat) : Stage :=
  if first ≤ last then working first [⟨Program.start, first⟩] [] else ended (.ok none) []

end Stage

namespace Machine

variable {b : Bounds} {m : Machine} {first last : Nat}

/-- One step of a search whose last attempt is the one at `last`. -/
inductive Advances (m : Machine) (last : Nat) : Stage → Stage → Prop
  /-- A thread in a state that was executed before dies. -/
  | skip {start : Nat} {t : Thread} {ts executed : List Thread} : t ∈ executed →
      Advances m last (.working start (t :: ts) executed) (.working start ts executed)
  /-- A thread is replaced by the threads it turns into. -/
  | turn {start : Nat} {t : Thread} {ts executed : List Thread} : t ∉ executed →
      m.move t ≠ .outside → m.move t ≠ .accept →
      ((m.move t).forks = true → ts.length < m.threadLimit) →
      Advances m last (.working start (t :: ts) executed)
        (.working start ((m.move t).threads ++ ts) (t :: executed))
  /-- The first thread to accept has found the match. -/
  | accept {start : Nat} {t : Thread} {ts executed : List Thread} : t ∉ executed →
      m.move t = .accept →
      Advances m last (.working start (t :: ts) executed)
        (.ended (.ok (some (start, t.pos))) (t :: executed))
  /-- A `split` finds that no further thread may wait. -/
  | full {start : Nat} {t : Thread} {ts executed : List Thread} : t ∉ executed →
      (m.move t).forks = true → m.threadLimit ≤ ts.length →
      Advances m last (.working start (t :: ts) executed)
        (.ended (.error (.threadLimitExceeded m.threadLimit)) (t :: executed))
  /-- There is no such instruction, or no such character. -/
  | outside {start : Nat} {t : Thread} {ts executed : List Thread} : t ∉ executed →
      m.move t = .outside →
      Advances m last (.working start (t :: ts) executed)
        (.ended (.error .outOfRange) (t :: executed))
  /-- An attempt has failed, and the next one begins. -/
  | restart {start : Nat} {executed : List Thread} : start < last →
      Advances m last (.working start [] executed)
        (.working (start + 1) [⟨Program.start, start + 1⟩] executed)
  /-- The last attempt has failed. -/
  | exhausted {start : Nat} {executed : List Thread} : last ≤ start →
      Advances m last (.working start [] executed) (.ended (.ok none) executed)

/-- From one stage a search comes to another. -/
def Comes (m : Machine) (last : Nat) : Stage → Stage → Prop :=
  Relation.ReflTransGen (m.Advances last)

/-- A thread that splits neither accepts nor looks for something that does not exist. -/
theorem not_forks {t : Thread} (h : m.move t = .accept ∨ m.move t = .outside) :
    (m.move t).forks ≠ true := by
  rcases h with h | h <;> simp [h, Move.forks]

/-- The stage after `s`, if the search has not ended. -/
def advance? (m : Machine) (last : Nat) : (s : Stage) → Option Stage
  | .working start (t :: ts) executed =>
    if t ∈ executed then some (.working start ts executed)
    else if m.move t = .accept then some (.ended (.ok (some (start, t.pos))) (t :: executed))
    else if m.move t = .outside then some (.ended (.error .outOfRange) (t :: executed))
    else if (m.move t).forks = true ∧ m.threadLimit ≤ ts.length then
      some (.ended (.error (.threadLimitExceeded m.threadLimit)) (t :: executed))
    else some (.working start ((m.move t).threads ++ ts) (t :: executed))
  | .working start [] executed =>
    if start < last then some (.working (start + 1) [⟨Program.start, start + 1⟩] executed)
    else some (.ended (.ok none) executed)
  | .ended _ _ => none

/-- The steps of a search can be computed. -/
theorem advances_iff {s s' : Stage} : m.Advances last s s' ↔ m.advance? last s = some s' := by
  refine ⟨fun h => ?_, fun h => ?_⟩
  · cases h with
    | skip ht => simp [advance?, ht]
    | turn ht ho ha hl => simpa [advance?, ht, ho, ha] using hl
    | accept ht ha => simp [advance?, ht, ha]
    | full ht hf hl =>
      have ha : m.move _ ≠ .accept := fun ha => not_forks (.inl ha) hf
      have ho : m.move _ ≠ .outside := fun ho => not_forks (.inr ho) hf
      simp [advance?, ht, ha, ho, hf, hl]
    | outside ht ho => simp [advance?, ht, ho]
    | restart hlt => simp [advance?, hlt]
    | exhausted hle => simp [advance?, Nat.not_lt.2 hle]
  · unfold advance? at h
    repeat' split at h
    all_goals cases h
    · exact .skip ‹_›
    · exact .accept ‹_› ‹_›
    · exact .outside ‹_› ‹_›
    · exact .full ‹_› (And.left ‹_›) (And.right ‹_›)
    · rename_i ht ha ho hl
      exact .turn ht ho ha fun hf => Nat.not_le.1 fun hle => hl ⟨hf, hle⟩
    · exact .restart ‹_›
    · exact .exhausted (Nat.not_lt.1 ‹_›)

/-- No stage has two successors. -/
theorem Advances.unique {s a c : Stage} (ha : m.Advances last s a) (hc : m.Advances last s c) :
    a = c :=
  Option.some.inj ((advances_iff.1 ha).symm.trans (advances_iff.1 hc))

/-- The stage that a search comes to from `s` in a number of steps, or its last stage. -/
def stageAfter (m : Machine) (last : Nat) : (steps : Nat) → (s : Stage) → Stage
  | 0, s => s
  | steps + 1, s => (m.advance? last s).elim s (m.stageAfter last steps)

/-- A search comes to the stage that has been computed. -/
theorem comes_stageAfter (steps : Nat) (s : Stage) :
    m.Comes last s (m.stageAfter last steps s) := by
  induction steps generalizing s with
  | zero => exact .refl
  | succ steps ih =>
    rw [stageAfter]
    cases h : m.advance? last s with
    | none => exact .refl
    | some s' => exact .head (advances_iff.2 h) (ih s')

/-! ## The searches of the machine -/

/-- `v` holds the executed states. -/
def Records (v : Visited b) (executed : List Thread) : Prop :=
  ∀ t, v.contains t = true ↔ t ∈ executed

/-- Nothing has been executed at the start. -/
theorem Records.empty : Records ({} : Visited b) [] := fun t => by simp

/-- A state that is entered counts as executed. -/
theorem Records.insert {v : Visited b} {executed : List Thread} (h : Records v executed)
    (t : Thread) : Records (v.insert t) (t :: executed) := by
  intro u
  rw [Visited.contains_insert, Bool.or_eq_true, beq_iff_eq, h u, List.mem_cons, eq_comm]

/-- From `s` a search comes to the end of an attempt at `start` as the machine does. -/
def ComesTo (m : Machine) (last start : Nat) (s : Stage) : Attempt b → Prop
  | .accepted e => ∃ executed, m.Comes last s (.ended (.ok (some (start, e))) executed)
  | .failed v => ∃ executed, Records v executed ∧ m.Comes last s (.working start [] executed)
  | .stopped error => ∃ executed, m.Comes last s (.ended (.error error) executed)

/-- A step before the rest of an attempt is part of the attempt. -/
theorem ComesTo.head {start : Nat} {s s' : Stage} {result : Attempt b}
    (hs : m.Advances last s s') (h : m.ComesTo last start s' result) :
    m.ComesTo last start s result := by
  cases result with
  | accepted e => exact h.imp fun _ h => .head hs h
  | failed v => exact h.imp fun _ h => ⟨h.1, .head hs h.2⟩
  | stopped error => exact h.imp fun _ h => .head hs h

/-- The steps of a search are the equations of the machine. -/
theorem comesTo_drain (hm : m.StaysIn b) (last start : Nat) {v : Visited b} {ts : List Thread}
    (hts : ∀ t ∈ ts, b.contains t = true) {executed : List Thread} (hv : Records v executed) :
    m.ComesTo last start (.working start ts executed) (m.drain v ts) := by
  refine drain_induction
    (motive := fun v ts => ∀ executed, Records v executed →
      m.ComesTo last start (.working start ts executed) (m.drain v ts)) hm
    ?nil ?seen ?enter v ts hts executed hv
  case nil => exact fun v executed hv => ⟨executed, hv, .refl⟩
  case seen =>
    intro v t ts hb ht ih executed hv
    rw [drain_seen hb ht]
    exact (ih executed hv).head (.skip ((hv t).1 ht))
  case enter =>
    intro v t ts hb ht ih executed hv
    have hnew : t ∉ executed := fun h => by simp [(hv t).2 h] at ht
    by_cases ha : m.move t = .accept
    · rw [drain_accept hb ht ha]
      exact ⟨_, .single (.accept hnew ha)⟩
    by_cases hl : (m.move t).forks = true ∧ m.threadLimit ≤ ts.length
    · rw [drain_full hb ht hl.1 hl.2]
      exact ⟨_, .single (.full hnew hl.1 hl.2)⟩
    have hfits : (m.move t).forks = true → ts.length < m.threadLimit :=
      fun hf => Nat.not_le.1 fun hle => hl ⟨hf, hle⟩
    rw [drain_enter hb ht (hm t hb).1 ha hfits]
    exact (ih _ (hv.insert t)).head (.turn hnew (hm t hb).1 ha hfits)

/-- A scan that is not at its end comes to a last stage that holds its result. -/
theorem comes_scan (hm : m.StaysIn b) {v : Visited b} {start count : Nat}
    (hb : ∀ k ∈ List.range' start (count + 1), b.contains ⟨Program.start, k⟩ = true)
    {executed : List Thread} (hv : Records v executed) :
    ∃ executed', m.Comes (start + count) (.working start [⟨Program.start, start⟩] executed)
      (.ended (m.scan v start (count + 1)) executed') := by
  induction count generalizing v start executed with
  | zero =>
    have h := comesTo_drain hm start start
      (List.forall_mem_singleton.2 (hb start (by simp))) hv
    rw [scan, attempt_eq_drain]
    cases hr : m.drain v [⟨Program.start, start⟩] with
    | accepted e => rw [hr] at h; exact h
    | stopped error => rw [hr] at h; exact h
    | failed v' =>
      rw [hr] at h
      obtain ⟨executed', -, hcomes⟩ := h
      exact ⟨executed', hcomes.tail (.exhausted (Nat.le_refl start))⟩
  | succ count ih =>
    rw [List.range'_succ] at hb
    have h := comesTo_drain hm (start + (count + 1)) start
      (List.forall_mem_singleton.2 (hb start List.mem_cons_self)) hv
    rw [scan, attempt_eq_drain]
    cases hr : m.drain v [⟨Program.start, start⟩] with
    | accepted e => rw [hr] at h; exact h
    | stopped error => rw [hr] at h; exact h
    | failed v' =>
      rw [hr] at h
      obtain ⟨executed₁, hv', hcomes⟩ := h
      obtain ⟨executed₂, hrest⟩ := ih (fun k hk => hb k (List.mem_cons_of_mem _ hk)) hv'
      rw [Nat.add_right_comm, Nat.add_assoc] at hrest
      exact ⟨executed₂, (hcomes.tail (.restart (by omega))).trans hrest⟩

/-- A search at the positions from `first` to `last` comes to a last stage that holds its result. -/
theorem comes_search (hp : m.program.Closed) (first : Nat) (hlast : last ≤ m.subject.size) :
    ∃ executed, m.Comes last (.opening first last)
      (.ended (m.scan (b := m.bounds first) {} first (last + 1 - first)) executed) := by
  unfold Stage.opening
  split
  · rename_i hle
    obtain ⟨count, rfl⟩ := Nat.exists_eq_add_of_le hle
    have hcount : first + count + 1 - first = count + 1 := by omega
    rw [hcount]
    refine comes_scan (staysIn_bounds hp (by omega)) (fun k hk => ?_) .empty
    rw [List.mem_range'_1] at hk
    exact contains_start hp hk.1 (by omega)
  · rename_i hlt
    rw [Nat.sub_eq_zero_of_le (by omega)]
    exact ⟨[], .refl⟩

/-- The search by steps ends as the scan of the machine does. -/
theorem comes_find (hp : m.program.Closed) (first : Nat) :
    ∃ executed, m.Comes m.subject.size (.opening first m.subject.size)
      (.ended (m.find first) executed) :=
  comes_search hp first (Nat.le_refl _)

/-- An attempt is a search at one position. -/
theorem scan_one (start : Nat) : m.scan (b := m.bounds start) {} start 1 =
    (m.matchEnd start).map (Option.map (start, ·)) := by
  rw [scan, matchEnd]
  cases m.attempt (b := m.bounds start) {} start <;> rfl

/-- The search by steps of a single start ends as the attempt of the machine does. -/
theorem comes_matchEnd (hp : m.program.Closed) {start : Nat} (hstart : start ≤ m.subject.size) :
    ∃ executed, m.Comes start (.opening start start)
      (.ended ((m.matchEnd start).map (Option.map (start, ·))) executed) := by
  have h := comes_search hp start hstart
  rwa [Nat.add_sub_cancel_left, scan_one] at h

/-- From one stage a search comes to one end only. -/
theorem comes_ended_iff {s : Stage} {result result' : Except SearchError (Option (Nat × Nat))}
    (h : ∃ executed, m.Comes last s (.ended result executed)) :
    (∃ executed, m.Comes last s (.ended result' executed)) ↔ result' = result := by
  refine ⟨?_, fun heq => heq ▸ h⟩
  obtain ⟨executed, h⟩ := h
  rintro ⟨executed', h'⟩
  have hunique : Relator.RightUnique (m.Advances last) := fun _ _ _ => Advances.unique
  rcases Relation.ReflTransGen.total_of_right_unique hunique h h' with hback | hback
  all_goals
    rcases Relation.ReflTransGen.cases_head hback with heq | ⟨_, hs, -⟩
    · cases heq
      rfl
    · cases hs

/-- What a search ends with after a number of steps is what the machine finds. -/
theorem find_eq_of_stageAfter {result : Except SearchError (Option (Nat × Nat))}
    {executed : List Thread} (hp : m.program.Closed) (steps : Nat)
    (h : m.stageAfter m.subject.size steps (.opening first m.subject.size) =
      .ended result executed) : m.find first = result :=
  ((comes_ended_iff (comes_find hp first)).1 ⟨executed, h ▸ comes_stageAfter steps _⟩).symm

/-- A search that comes to an end has no endless sequence of steps. -/
theorem acc_of_comes {s : Stage} {result : Except SearchError (Option (Nat × Nat))}
    {executed : List Thread} (h : m.Comes last s (.ended result executed)) :
    Acc (fun s' s => m.Advances last s s') s := by
  induction h using Relation.ReflTransGen.head_induction_on with
  | refl => exact .intro _ fun s' hs => nomatch hs
  | head hs _ ih => exact .intro _ fun s' hs' => hs.unique hs' ▸ ih

end Machine

end PatternMachine
