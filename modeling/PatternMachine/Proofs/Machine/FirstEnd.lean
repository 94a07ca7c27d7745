import Mathlib.Data.Finset.Card
import PatternMachine.Proofs.Machine.InRange

/-!
# What the machine computes

`Machine.firstEnd` is plain backtracking: from a thread it tries the threads this one turns into,
one after the other, and refuses a state only on the way that has just come through it. The machine
refuses every state it has ever entered. That both find the same end is `Machine.drain_spec`: what
is left to be found from a list of threads does not change when the machine enters a state, because
a state from which nothing can be found lies on no way to the first end (`firstEnd_erase`).
`matchEnd_spec` and `find_spec` say so of an attempt and of a scan, whose attempts share the states
they have entered; what an answer tells about backtracking follows from them.
-/

namespace PatternMachine.Machine

variable {b : Bounds} {m : Machine}

/-! ## Backtracking -/

/-- The end of the first match that backtracking from `t` finds, if it may pass through every state
of `room` once on each way and through no other. -/
def firstEnd (m : Machine) (room : Finset Thread) (t : Thread) : Option Nat :=
  if t ∈ room then
    if m.move t = .accept then some t.pos
    else (m.move t).threads.findSome? fun u => firstEnd m (room.erase t) u
  else none
termination_by room.card
decreasing_by exact Finset.card_erase_lt_of_mem ‹t ∈ room›

/-- Nothing is found from a state without room for it. -/
theorem firstEnd_of_notMem {room : Finset Thread} {t : Thread} (h : t ∉ room) :
    m.firstEnd room t = none := by
  rw [firstEnd, if_neg h]

/-- An accepting thread has found its position. -/
theorem firstEnd_of_accept {room : Finset Thread} {t : Thread} (h : t ∈ room)
    (ha : m.move t = .accept) : m.firstEnd room t = some t.pos := by
  rw [firstEnd, if_pos h, if_pos ha]

/-- Any other thread finds what the first successful thread it turns into finds. -/
theorem firstEnd_of_move {room : Finset Thread} {t : Thread} (h : t ∈ room)
    (ha : m.move t ≠ .accept) :
    m.firstEnd room t = (m.move t).threads.findSome? (m.firstEnd (room.erase t)) := by
  rw [firstEnd, if_pos h, if_neg ha]

/-- A thread that dies has found nothing. -/
theorem firstEnd_of_die {room : Finset Thread} {t : Thread} (h : t ∈ room)
    (hm : m.move t = .die) : m.firstEnd room t = none := by
  rw [firstEnd_of_move h (by simp [hm]), hm]
  rfl

/-- A thread that goes on as another one finds what that one finds without coming back. -/
theorem firstEnd_of_goto {room : Finset Thread} {t u : Thread} (h : t ∈ room)
    (hm : m.move t = .goto u) : m.firstEnd room t = m.firstEnd (room.erase t) u := by
  rw [firstEnd_of_move h (by simp [hm]), hm, Move.threads, List.findSome?_singleton]

/-- A thread that splits finds what the first of the two finds, or else what the second one
finds. -/
theorem firstEnd_of_fork {room : Finset Thread} {t u v : Thread} (h : t ∈ room)
    (hm : m.move t = .fork u v) : m.firstEnd room t =
      (m.firstEnd (room.erase t) u).or (m.firstEnd (room.erase t) v) := by
  rw [firstEnd_of_move h (by simp [hm]), hm, Move.threads, List.findSome?_cons,
    List.findSome?_singleton]
  cases m.firstEnd (room.erase t) u <;> rfl

/-- With less room no more is found. -/
theorem firstEnd_eq_none_of_subset {room less : Finset Thread} {t : Thread} (hsub : less ⊆ room)
    (h : m.firstEnd room t = none) : m.firstEnd less t = none := by
  induction hn : room.card using Nat.strongRecOn generalizing room less t with
  | _ n ih =>
    subst hn
    by_cases hless : t ∈ less
    · have hroom := hsub hless
      by_cases ha : m.move t = .accept
      · rw [firstEnd_of_accept hroom ha] at h
        cases h
      · rw [firstEnd_of_move hroom ha, List.findSome?_eq_none_iff] at h
        rw [firstEnd_of_move hless ha, List.findSome?_eq_none_iff]
        intro u hu
        exact ih _ (Finset.card_erase_lt_of_mem hroom) (Finset.erase_subset_erase t hsub) (h u hu)
          rfl
    · exact firstEnd_of_notMem hless

/-- A state from which nothing is found may as well be refused: no way to what is found first from
another state leads through it. -/
theorem firstEnd_erase {room : Finset Thread} {t : Thread} (h : m.firstEnd room t = none)
    (u : Thread) : m.firstEnd (room.erase t) u = m.firstEnd room u := by
  induction hn : room.card using Nat.strongRecOn generalizing room u with
  | _ n ih =>
    subst hn
    by_cases hut : u = t
    · rw [hut, h, firstEnd_of_notMem (Finset.notMem_erase t room)]
    by_cases hu : u ∈ room
    · have hu' : u ∈ room.erase t := Finset.mem_erase.2 ⟨hut, hu⟩
      by_cases ha : m.move u = .accept
      · rw [firstEnd_of_accept hu' ha, firstEnd_of_accept hu ha]
      · rw [firstEnd_of_move hu' ha, firstEnd_of_move hu ha, Finset.erase_right_comm]
        congr 1
        funext w
        exact ih _ (Finset.card_erase_lt_of_mem hu)
          (firstEnd_eq_none_of_subset (Finset.erase_subset u room) h) w rfl
    · rw [firstEnd_of_notMem hu, firstEnd_of_notMem fun hu' => hu (Finset.mem_of_mem_erase hu')]

/-- Among several threads, the first one may give way to the threads it turns into. -/
theorem findSome?_firstEnd_cons {room : Finset Thread} {t : Thread} (h : t ∈ room)
    (ha : m.move t ≠ .accept) (ts : List Thread) :
    (t :: ts).findSome? (m.firstEnd room) =
      ((m.move t).threads ++ ts).findSome? (m.firstEnd (room.erase t)) := by
  rw [List.findSome?_cons, List.findSome?_append, ← firstEnd_of_move h ha]
  cases hn : m.firstEnd room t with
  | some e => rfl
  | none =>
    have : m.firstEnd (room.erase t) = m.firstEnd room := funext (firstEnd_erase hn)
    rw [this]
    rfl

/-! ## The states that are left -/

/-- The states within the bounds that have not been entered. -/
def room (v : Visited b) : Finset Thread :=
  b.states.toFinset.filter fun t => v.contains t = false

/-- There is room for the states within the bounds that have not been entered. -/
@[simp]
theorem mem_room {v : Visited b} {t : Thread} :
    t ∈ room v ↔ b.contains t = true ∧ v.contains t = false := by
  rw [room, Finset.mem_filter, List.mem_toFinset, Bounds.mem_states]

/-- Entering a state takes its room. -/
theorem room_insert (v : Visited b) (t : Thread) : room (v.insert t) = (room v).erase t := by
  ext u
  simp only [mem_room, Visited.contains_insert, Bool.or_eq_false_iff, beq_eq_false_iff_ne,
    Finset.mem_erase]
  refine ⟨?_, ?_⟩
  · intro h
    obtain ⟨hb, hne, hv⟩ := h
    exact ⟨Ne.symm hne, hb, hv⟩
  · intro h
    obtain ⟨hne, hb, hv⟩ := h
    exact ⟨hb, Ne.symm hne, hv⟩

/-- All states within the bounds. -/
abbrev allRoom (b : Bounds) : Finset Thread :=
  room ({} : Visited b)

/-- There is room for every state within the bounds. -/
theorem mem_allRoom {t : Thread} : t ∈ allRoom b ↔ b.contains t = true := by
  simp

/-! ## The machine backtracks -/

/-- What an attempt that has entered the states in `v` and works through `ts` may end with. -/
def Answers (m : Machine) (v : Visited b) (ts : List Thread) : Attempt b → Prop
  | .accepted e => ts.findSome? (m.firstEnd (room v)) = some e
  | .failed v' => ts.findSome? (m.firstEnd (room v)) = none ∧
      ∀ t, m.firstEnd (room v') t = m.firstEnd (room v) t
  | .stopped error => error = .threadLimitExceeded m.threadLimit

/-- The machine ends where backtracking would, unless too many threads have to wait. The states it
has entered on the way to a failure make no difference to any search. -/
theorem drain_spec (hm : m.StaysIn b) (v : Visited b) (ts : List Thread)
    (hts : ∀ t ∈ ts, b.contains t = true) : Answers m v ts (m.drain v ts) := by
  refine drain_induction (motive := fun v ts => Answers m v ts (m.drain v ts)) hm
    ?nil ?seen ?enter v ts hts
  case nil => exact fun v => ⟨rfl, fun _ => rfl⟩
  case seen =>
    intro v t ts hb hv ih
    have hnone : m.firstEnd (room v) t = none :=
      firstEnd_of_notMem fun h => by simp [hv] at h
    have hskip : (t :: ts).findSome? (m.firstEnd (room v)) =
        ts.findSome? (m.firstEnd (room v)) := by rw [List.findSome?_cons, hnone]
    rw [drain_seen hb hv]
    cases hr : m.drain v ts with
    | accepted e => rw [hr] at ih; exact hskip.trans ih
    | failed v' => rw [hr] at ih; exact ⟨hskip.trans ih.1, ih.2⟩
    | stopped error => rw [hr] at ih; exact ih
  case enter =>
    intro v t ts hb hv ih
    have hroom : t ∈ room v := mem_room.2 ⟨hb, hv⟩
    by_cases ha : m.move t = .accept
    · rw [drain_accept hb hv ha]
      show (t :: ts).findSome? (m.firstEnd (room v)) = some t.pos
      rw [List.findSome?_cons, firstEnd_of_accept hroom ha]
    by_cases hl : (m.move t).forks = true ∧ m.threadLimit ≤ ts.length
    · rw [drain_full hb hv hl.1 hl.2]
      rfl
    have hstep := findSome?_firstEnd_cons hroom ha ts
    rw [← room_insert] at hstep
    rw [drain_enter hb hv (hm t hb).1 ha fun hf => Nat.not_le.1 fun hle => hl ⟨hf, hle⟩]
    cases hr : m.drain (v.insert t) ((m.move t).threads ++ ts) with
    | accepted e => rw [hr] at ih; exact hstep.trans ih
    | stopped error => rw [hr] at ih; exact ih
    | failed v' =>
      rw [hr] at ih
      obtain ⟨hnone, hsame⟩ := ih
      have ht : m.firstEnd (room v) t = none := by
        have := hstep.trans hnone
        rw [List.findSome?_eq_none_iff] at this
        exact this t List.mem_cons_self
      refine ⟨hstep.trans hnone, ?_⟩
      intro u
      rw [hsame u, room_insert, firstEnd_erase ht u]

/-- The end that an attempt at `start` reports is the one that backtracking finds, unless too many
threads have to wait. -/
theorem matchEnd_spec {start : Nat} (hp : m.program.Closed) (hstart : start ≤ m.subject.size) :
    m.matchEnd start =
        .ok (m.firstEnd (allRoom (m.bounds start)) ⟨Program.start, start⟩) ∨
      m.matchEnd start = .error (.threadLimitExceeded m.threadLimit) := by
  have h := drain_spec (staysIn_bounds hp hstart) {} [⟨Program.start, start⟩] <|
    List.forall_mem_singleton.2 (contains_start hp (Nat.le_refl _) (Nat.le_max_left _ _))
  rw [matchEnd, attempt_eq_drain]
  cases hr : m.drain ({} : Visited (m.bounds start)) [⟨Program.start, start⟩] with
  | accepted e =>
    rw [hr] at h
    have h : [(⟨Program.start, start⟩ : Thread)].findSome? _ = some e := h
    rw [List.findSome?_singleton] at h
    exact .inl (by rw [h])
  | failed v =>
    rw [hr] at h
    have h := h.1
    rw [List.findSome?_singleton] at h
    exact .inl (by rw [h])
  | stopped error =>
    rw [hr] at h
    cases h
    exact .inr rfl

/-- The first of the positions `starts` from which backtracking finds an end, with that end. -/
def firstMatch (m : Machine) (room : Finset Thread) (starts : List Nat) : Option (Nat × Nat) :=
  starts.findSome? fun start => (m.firstEnd room ⟨Program.start, start⟩).map (start, ·)

/-- The attempts of a scan may share the states they have entered. -/
theorem scan_spec (hm : m.StaysIn b) {v : Visited b} {start count : Nat}
    (hb : ∀ k ∈ List.range' start count, b.contains ⟨Program.start, k⟩ = true)
    (hv : ∀ t, m.firstEnd (room v) t = m.firstEnd (allRoom b) t) :
    m.scan v start count = .ok (m.firstMatch (allRoom b) (List.range' start count)) ∨
      m.scan v start count = .error (.threadLimitExceeded m.threadLimit) := by
  induction count generalizing v start with
  | zero => exact .inl rfl
  | succ count ih =>
    rw [List.range'_succ] at hb
    have h := drain_spec hm v [⟨Program.start, start⟩] (by simpa using hb start List.mem_cons_self)
    rw [scan, attempt_eq_drain, firstMatch, List.range'_succ, List.findSome?_cons]
    cases hr : m.drain v [⟨Program.start, start⟩] with
    | accepted e =>
      rw [hr] at h
      have h : [(⟨Program.start, start⟩ : Thread)].findSome? _ = some e := h
      rw [List.findSome?_singleton, hv] at h
      exact .inl (by rw [h]; rfl)
    | failed v' =>
      rw [hr] at h
      obtain ⟨hnone, hsame⟩ := h
      rw [List.findSome?_singleton, hv] at hnone
      have := ih (v := v') (fun k hk => hb k (List.mem_cons_of_mem _ hk))
        fun t => (hsame t).trans (hv t)
      rw [hnone]
      exact this
    | stopped error =>
      rw [hr] at h
      cases h
      exact .inr rfl

/-- A search reports the first position from which backtracking finds an end, and that end, unless
too many threads have to wait. -/
theorem find_spec (hp : m.program.Closed) (first : Nat) :
    m.find first = .ok (m.firstMatch (allRoom (m.bounds first))
        (List.range' first (m.subject.size + 1 - first))) ∨
      m.find first = .error (.threadLimitExceeded m.threadLimit) := by
  rcases Nat.lt_or_ge m.subject.size first with hlt | hge
  · rw [find, Nat.sub_eq_zero_of_le hlt]
    exact .inl rfl
  · refine scan_spec (staysIn_bounds hp hge) (fun k hk => ?_) fun _ => rfl
    rw [List.mem_range'_1] at hk
    exact contains_start hp hk.1 (by omega)

/-! ## What a search reports -/

/-- An attempt in a closed program is given up only because too many threads have to wait. -/
theorem eq_of_matchEnd_eq_error {start : Nat} {error : SearchError} (hp : m.program.Closed)
    (hstart : start ≤ m.subject.size) (h : m.matchEnd start = .error error) :
    error = .threadLimitExceeded m.threadLimit := by
  rcases matchEnd_spec hp hstart with hok | herror
  · rw [hok] at h
    cases h
  · exact Except.error.inj (h.symm.trans herror)

/-- So is a search. -/
theorem eq_of_find_eq_error {first : Nat} {error : SearchError} (hp : m.program.Closed)
    (h : m.find first = .error error) : error = .threadLimitExceeded m.threadLimit := by
  rcases find_spec hp first with hok | herror
  · rw [hok] at h
    cases h
  · exact Except.error.inj (h.symm.trans herror)

/-- The end of an attempt is what backtracking finds. -/
theorem firstEnd_of_matchEnd {start : Nat} {found : Option Nat} (hp : m.program.Closed)
    (hstart : start ≤ m.subject.size) (h : m.matchEnd start = .ok found) :
    m.firstEnd (allRoom (m.bounds start)) ⟨Program.start, start⟩ = found := by
  rcases matchEnd_spec hp hstart with hok | herror
  · exact Except.ok.inj (hok.symm.trans h)
  · rw [herror] at h
    cases h

/-- A search without a match has no position from which backtracking finds an end. -/
theorem firstEnd_of_find_none {first : Nat} (hp : m.program.Closed) (h : m.find first = .ok none)
    {i : Nat} (hi : first ≤ i) (hle : i ≤ m.subject.size) :
    m.firstEnd (allRoom (m.bounds first)) ⟨Program.start, i⟩ = none := by
  rcases find_spec hp first with hok | herror
  · have hnone := Except.ok.inj (hok.symm.trans h)
    rw [firstMatch, List.findSome?_eq_none_iff] at hnone
    exact Option.map_eq_none_iff.1 (hnone i (List.mem_range'_1.2 ⟨hi, by omega⟩))
  · rw [herror] at h
    cases h

/-- The match of a search is what backtracking finds from its start, and from no earlier position
does it find anything. -/
theorem firstEnd_of_find_some {first i e : Nat} (hp : m.program.Closed)
    (h : m.find first = .ok (some (i, e))) : first ≤ i ∧ i ≤ m.subject.size ∧
      m.firstEnd (allRoom (m.bounds first)) ⟨Program.start, i⟩ = some e ∧
      ∀ k, first ≤ k → k < i →
        m.firstEnd (allRoom (m.bounds first)) ⟨Program.start, k⟩ = none := by
  rcases find_spec hp first with hok | herror
  · have hsome := Except.ok.inj (hok.symm.trans h)
    rw [firstMatch, List.findSome?_eq_some_iff] at hsome
    obtain ⟨before, i', after, hsplit, hfound, hbefore⟩ := hsome
    obtain ⟨e', he', heq⟩ := Option.map_eq_some_iff.1 hfound
    cases heq
    obtain ⟨n, hn, rfl, hafter⟩ := List.range'_eq_append_iff.1 hsplit
    rw [eq_comm, List.range'_eq_cons_iff] at hafter
    obtain ⟨rfl, hpos, -⟩ := hafter
    refine ⟨by omega, by omega, he', ?_⟩
    intro k hk hlt
    exact Option.map_eq_none_iff.1 (hbefore k (List.mem_range'_1.2 ⟨hk, by omega⟩))
  · rw [herror] at h
    cases h

end PatternMachine.Machine
