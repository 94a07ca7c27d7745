import PatternMachine.Proofs.Draft.Finish
import PatternMachine.Proofs.Machine.Confined
import PatternMachine.Proofs.Machine.FirstEnd

/-!
# The limit to the threads that wait

A machine looks at its limit only where a `split` would let one more thread wait, and then to give
up. So two machines that differ in nothing else go through the same states until one of them gives
up (`Machine.drain_withLimit`), and with a higher limit no answer changes. A thread waits because a
`split` was executed and not yet come back to; no state is executed twice, so that there are never
more waiting threads than states that are a `split` (`Machine.Waits`). With a limit of that many a
search cannot give up.
-/

namespace PatternMachine

/-- Whether the instruction lets a thread wait. -/
def Instr.isSplit {α : Type} : Instr α → Bool
  | split _ _ => true
  | literal _ | any | accept | jump _ | nop => false

/-- The number of `split` instructions. -/
def Program.splits (p : Program) : Nat :=
  p.code.toList.countP Instr.isSplit

namespace Machine

variable {b : Bounds} {m : Machine}

/-! ## Other limits -/

/-- The machine with another limit. -/
def withLimit (m : Machine) (limit : Nat) : Machine :=
  { m with threadLimit := limit }

/-- Unless the machine gives up, it does the same with a higher limit. -/
theorem drain_withLimit (hm : m.StaysIn b) {limit : Nat} (hlimit : m.threadLimit ≤ limit)
    {v : Visited b} {ts : List Thread} (hts : ∀ t ∈ ts, b.contains t = true)
    (h : ∀ error, m.drain v ts ≠ .stopped error) :
    (m.withLimit limit).drain v ts = m.drain v ts := by
  refine drain_induction (motive := fun v ts => (∀ error, m.drain v ts ≠ .stopped error) →
    (m.withLimit limit).drain v ts = m.drain v ts) hm ?nil ?seen ?enter v ts hts h
  case nil => exact fun v _ => rfl
  case seen =>
    intro v t ts hb hv ih h
    rw [drain_seen hb hv] at h
    rw [drain_seen hb hv, drain_seen hb hv, ih h]
  case enter =>
    intro v t ts hb hv ih h
    by_cases ha : m.move t = .accept
    · rw [drain_accept hb hv ha, drain_accept (m := m.withLimit limit) hb hv ha]
    have hfits : (m.move t).forks = true → ts.length < m.threadLimit :=
      fun hf => Nat.not_le.1 fun hle => h _ (drain_full hb hv hf hle)
    have ho := (hm t hb).1
    rw [drain_enter hb hv ho ha hfits] at h
    rw [drain_enter hb hv ho ha hfits, drain_enter (m := m.withLimit limit) hb hv ho ha
      fun hf => Nat.lt_of_lt_of_le (hfits hf) hlimit]
    exact ih h

/-- A scan that has an answer has it with every higher limit. -/
theorem scan_withLimit (hm : m.StaysIn b) {limit : Nat} (hlimit : m.threadLimit ≤ limit)
    {v : Visited b} {start count : Nat}
    (hb : ∀ k ∈ List.range' start count, b.contains ⟨Program.start, k⟩ = true)
    {found : Option (Nat × Nat)} (h : m.scan v start count = .ok found) :
    (m.withLimit limit).scan v start count = .ok found := by
  induction count generalizing v start with
  | zero => exact h
  | succ count ih =>
    rw [List.range'_succ] at hb
    have hdrain := drain_withLimit hm hlimit (v := v)
      (List.forall_mem_singleton.2 (hb start List.mem_cons_self))
    rw [scan, attempt_eq_drain] at h ⊢
    cases hr : m.drain v [⟨Program.start, start⟩] with
    | accepted e =>
      rw [hdrain (by simp [hr]), hr]
      rwa [hr] at h
    | failed v' =>
      rw [hdrain (by simp [hr]), hr]
      rw [hr] at h
      exact ih (fun k hk => hb k (List.mem_cons_of_mem _ hk)) h
    | stopped error =>
      rw [hr] at h
      cases h

/-- A search that has an answer has it with every higher limit. -/
theorem find_withLimit (hp : m.program.Closed) {limit : Nat} (hlimit : m.threadLimit ≤ limit)
    {first : Nat} (hfirst : first ≤ m.subject.size) {found : Option (Nat × Nat)}
    (h : m.find first = .ok found) : (m.withLimit limit).find first = .ok found := by
  have hb : ∀ k ∈ List.range' first (m.subject.size + 1 - first),
      (m.bounds first).contains ⟨Program.start, k⟩ = true := by
    intro k hk
    rw [List.mem_range'_1] at hk
    exact contains_start hp hk.1 (by omega)
  exact scan_withLimit (staysIn_bounds hp hfirst) hlimit hb h

/-- So has an attempt. -/
theorem matchEnd_withLimit (hp : m.program.Closed) {limit : Nat} (hlimit : m.threadLimit ≤ limit)
    {start : Nat} (hstart : start ≤ m.subject.size) {found : Option Nat}
    (h : m.matchEnd start = .ok found) : (m.withLimit limit).matchEnd start = .ok found := by
  have hb : ∀ k ∈ List.range' start 1, (m.bounds start).contains ⟨Program.start, k⟩ = true := by
    rw [List.range'_one, List.forall_mem_singleton]
    exact contains_start hp (Nat.le_refl start) (Nat.le_max_left _ _)
  have hone : m.scan (b := m.bounds start) {} start 1 = .ok (found.map (start, ·)) := by
    rw [scan_one, h]
    rfl
  have hsame : (m.withLimit limit).scan (b := (m.withLimit limit).bounds start) {} start 1 =
      .ok (found.map (start, ·)) := scan_withLimit (staysIn_bounds hp hstart) hlimit hb hone
  rw [scan_one] at hsame
  cases hl : (m.withLimit limit).matchEnd start with
  | error error =>
    rw [hl] at hsame
    cases hsame
  | ok found' =>
    rw [hl] at hsame
    have hinj : Function.Injective (Option.map fun stop : Nat => (start, stop)) :=
      Option.map_injective (Prod.mk_right_injective start)
    rw [hinj (Except.ok.inj hsame)]

/-- With a lower limit a search has the same answer or gives up. -/
theorem find_withLimit_cases (hp : m.program.Closed) {limit : Nat} (hlimit : limit ≤ m.threadLimit)
    {first : Nat} (hfirst : first ≤ m.subject.size) {found : Option (Nat × Nat)}
    (h : m.find first = .ok found) : (m.withLimit limit).find first = .ok found ∨
      (m.withLimit limit).find first = .error (.threadLimitExceeded limit) := by
  cases hl : (m.withLimit limit).find first with
  | ok found' =>
    have h' : m.find first = .ok found' :=
      find_withLimit (m := m.withLimit limit) hp hlimit hfirst hl
    exact .inl (h'.symm.trans h)
  | error error =>
    rw [eq_of_find_eq_error (m := m.withLimit limit) hp hl]
    exact .inr rfl

/-- So does an attempt. -/
theorem matchEnd_withLimit_cases (hp : m.program.Closed) {limit : Nat}
    (hlimit : limit ≤ m.threadLimit) {start : Nat} (hstart : start ≤ m.subject.size)
    {found : Option Nat} (h : m.matchEnd start = .ok found) :
    (m.withLimit limit).matchEnd start = .ok found ∨
      (m.withLimit limit).matchEnd start = .error (.threadLimitExceeded limit) := by
  cases hl : (m.withLimit limit).matchEnd start with
  | ok found' =>
    have h' : m.matchEnd start = .ok found' :=
      matchEnd_withLimit (m := m.withLimit limit) hp hlimit hstart hl
    exact .inl (h'.symm.trans h)
  | error error =>
    rw [eq_of_matchEnd_eq_error (m := m.withLimit limit) hp hstart hl]
    exact .inr rfl

/-! ## How many threads wait -/

/-- The number of executed states that were a `split`. -/
def forked (m : Machine) (executed : List Thread) : Nat :=
  executed.countP fun t => (m.move t).forks

/-- An executed state counts if it was a `split`. -/
@[simp]
theorem forked_cons (m : Machine) (t : Thread) (executed : List Thread) :
    m.forked (t :: executed) = m.forked executed + if (m.move t).forks then 1 else 0 :=
  List.countP_cons

/-- Every waiting thread was let wait by a `split` of its own that found room for it; a search gives
up at one `split` more than the threads that may wait. -/
def Waits (m : Machine) : Stage → Prop
  | .working _ threads executed =>
    threads.tail.length ≤ m.threadLimit ∧ threads.tail.length ≤ m.forked executed
  | .ended result executed =>
    result = .error (.threadLimitExceeded m.threadLimit) → m.threadLimit < m.forked executed

variable {first last : Nat} {s s' : Stage}

/-- No thread waits at the start. -/
theorem waits_opening (m : Machine) (first last : Nat) : m.Waits (.opening first last) := by
  unfold Stage.opening
  split
  · exact ⟨Nat.zero_le _, Nat.zero_le _⟩
  · exact nofun

/-- A thread that gives way to others leaves one of them running. -/
theorem length_tail_threads_append_le (mv : Move) (ts : List Thread) :
    (mv.threads ++ ts).tail.length ≤ ts.length + if mv.forks then 1 else 0 := by
  cases mv <;> simp [Move.threads, Move.forks]

/-- One step lets at most one more thread wait, and only if it executes a `split`. -/
theorem Waits.advance (h : m.Waits s) (hs : m.Advances last s s') : m.Waits s' := by
  cases hs with
  | @skip start t ts executed ht =>
    obtain ⟨hlimit, hforked⟩ := h
    have htail : ts.tail.length ≤ ts.length := List.length_tail ▸ Nat.sub_le _ _
    exact ⟨Nat.le_trans htail hlimit, Nat.le_trans htail hforked⟩
  | @turn start t ts executed _ _ _ hfits =>
    obtain ⟨hlimit, hforked⟩ := h
    have htail := length_tail_threads_append_le (m.move t) ts
    refine ⟨Nat.le_trans htail ?_, ?_⟩
    · split
      · exact hfits ‹_›
      · exact hlimit
    · rw [forked_cons]
      exact Nat.le_trans htail (Nat.add_le_add_right hforked _)
  | accept => exact nofun
  | full _ hf hle =>
    obtain ⟨-, hforked⟩ := h
    intro _
    rw [forked_cons, if_pos hf]
    exact Nat.lt_succ_of_le (Nat.le_trans hle hforked)
  | outside => exact nofun
  | restart => exact ⟨Nat.zero_le _, Nat.zero_le _⟩
  | exhausted => exact nofun

/-- So it is in every stage of a search. -/
theorem Waits.comes (h : m.Comes last (.opening first last) s) : m.Waits s := by
  induction h with
  | refl => exact waits_opening m first last
  | tail _ hs ih => exact ih.advance hs

/-! ## A limit that suffices -/

/-- A thread lets another one wait exactly at a `split`. -/
theorem forks_move (m : Machine) (t : Thread) :
    (m.move t).forks = (m.program.code[t.pc]?).any Instr.isSplit := by
  unfold move
  repeat' split
  all_goals simp_all [Move.forks, Instr.isSplit]

/-- Counting the positions of a list at which something stands. -/
theorem countP_range_length {α : Type} (q : α → Bool) (xs : List α) :
    (List.range xs.length).countP (fun i => (xs[i]?).any q) = xs.countP q := by
  induction xs with
  | nil => rfl
  | cons x xs ih =>
    rw [List.length_cons, List.range_succ_eq_map, List.countP_cons, List.countP_cons,
      List.countP_map, ← ih]
    rfl

/-- The states from position `first` on in which a `split` stands. -/
def splitStates (m : Machine) (first : Nat) : List Thread :=
  ((List.range m.program.size).filter fun pc => (m.program.code[pc]?).any Instr.isSplit).flatMap
    fun pc => (List.range' first (m.subject.size + 1 - first)).map fun pos => ⟨pc, pos⟩

/-- A thread that lets another one wait is in one of these states. -/
theorem Stands.mem_splitStates {t : Thread} (h : m.Stands first t)
    (hf : (m.move t).forks = true) : t ∈ m.splitStates first := by
  obtain ⟨hpc, hge, hle⟩ := h
  rw [forks_move] at hf
  refine List.mem_flatMap.2 ⟨t.pc, List.mem_filter.2 ⟨List.mem_range.2 hpc, hf⟩, ?_⟩
  exact List.mem_map.2 ⟨t.pos, List.mem_range'_1.2 ⟨hge, by omega⟩, rfl⟩

/-- There are as many of them as `split` instructions for every position. -/
theorem length_splitStates (m : Machine) (first : Nat) :
    (m.splitStates first).length = m.program.splits * (m.subject.size + 1 - first) := by
  have hcount := countP_range_length Instr.isSplit m.program.code.toList
  rw [Array.length_toList] at hcount
  simp only [splitStates, Program.size, Program.splits, List.length_flatMap, List.length_map,
    List.length_range', List.map_const', List.sum_replicate_nat, ← hcount,
    List.countP_eq_length_filter, Array.getElem?_toList]

/-- A search executes no more states that are a `split` than there are. -/
theorem Once.forked_le (h : m.Once first s) :
    m.forked s.executed ≤ m.program.splits * (m.subject.size + 1 - first) := by
  have hsub : ∀ t ∈ s.executed.filter fun t => (m.move t).forks, t ∈ m.splitStates first := by
    intro t ht
    obtain ⟨ht, hf⟩ := List.mem_filter.1 ht
    exact (h.stands t ht).mem_splitStates hf
  calc m.forked s.executed
    _ = (s.executed.filter fun t => (m.move t).forks).length := List.countP_eq_length_filter
    _ ≤ (m.splitStates first).length := (h.nodup.filter _).length_le_of_subset hsub
    _ = m.program.splits * (m.subject.size + 1 - first) := m.length_splitStates first

/-- A search that may let that many threads wait does not give up. -/
theorem ne_full_of_splits_le (hp : m.program.Closed) (hlast : last ≤ m.subject.size)
    (hlimit : m.program.splits * (m.subject.size + 1 - first) ≤ m.threadLimit)
    {result : Except SearchError (Option (Nat × Nat))} {executed : List Thread}
    (h : m.Comes last (.opening first last) (.ended result executed)) :
    result ≠ .error (.threadLimitExceeded m.threadLimit) := by
  intro hfull
  have hlt : m.threadLimit < m.forked executed := Waits.comes h hfull
  have hle : m.forked executed ≤ _ := (Once.comes hp hlast h).forked_le
  omega

/-- With as many waiting threads as there are `split` instructions times positions, no search gives
up. -/
theorem find_ne_threadLimitExceeded (hp : m.program.Closed)
    (hlimit : m.program.splits * (m.subject.size + 1 - first) ≤ m.threadLimit) :
    m.find first ≠ .error (.threadLimitExceeded m.threadLimit) := by
  obtain ⟨executed, h⟩ := comes_find hp first
  exact ne_full_of_splits_le hp (Nat.le_refl _) hlimit h

/-- Nor does an attempt. -/
theorem matchEnd_ne_threadLimitExceeded (hp : m.program.Closed) (hfirst : first ≤ m.subject.size)
    (hlimit : m.program.splits * (m.subject.size + 1 - first) ≤ m.threadLimit) :
    m.matchEnd first ≠ .error (.threadLimitExceeded m.threadLimit) := by
  obtain ⟨executed, h⟩ := comes_matchEnd hp hfirst
  intro hfull
  refine ne_full_of_splits_le hp hfirst hlimit h ?_
  rw [hfull]
  rfl

/-! ## What the limit means for a search -/

/-- Whatever the program and the text, the limit decides only whether a search gives up. What a
search or an attempt answers with one limit, it answers with every higher one, and with a lower one
it answers the same or gives up. With as many waiting threads as there are `split` instructions
times positions no search gives up. While an instruction is executed, no more threads wait than
may. -/
theorem limit_only_stops {d : Draft} (hd : d.finish = .ok m.program) {first : Nat}
    (hfirst : first ≤ m.subject.size) :
    (∀ found, m.find first = .ok found →
      (∀ limit, m.threadLimit ≤ limit → (m.withLimit limit).find first = .ok found) ∧
      ∀ limit, limit < m.threadLimit → (m.withLimit limit).find first = .ok found ∨
        (m.withLimit limit).find first = .error (.threadLimitExceeded limit)) ∧
    (∀ found, m.matchEnd first = .ok found →
      (∀ limit, m.threadLimit ≤ limit → (m.withLimit limit).matchEnd first = .ok found) ∧
      ∀ limit, limit < m.threadLimit → (m.withLimit limit).matchEnd first = .ok found ∨
        (m.withLimit limit).matchEnd first = .error (.threadLimitExceeded limit)) ∧
    (m.program.splits * (m.subject.size - first + 1) ≤ m.threadLimit →
      (∃ found, m.find first = .ok found) ∧ ∃ found, m.matchEnd first = .ok found) ∧
    (∃ executed, m.Comes m.subject.size (.opening first m.subject.size)
      (.ended (m.find first) executed)) ∧
    (∃ executed, m.Comes first (.opening first first)
      (.ended ((m.matchEnd first).map (Option.map (first, ·))) executed)) ∧
    ∀ last start t ts executed,
      m.Comes last (.opening first last) (.working start (t :: ts) executed) →
      ts.length ≤ m.threadLimit := by
  have hp := Draft.closed_of_finish hd
  obtain ⟨executed, hfind⟩ := comes_find hp first
  obtain ⟨executed', hend⟩ := comes_matchEnd hp hfirst
  refine ⟨fun found h => ⟨fun limit hle => find_withLimit hp hle hfirst h,
      fun limit hlt => find_withLimit_cases hp (Nat.le_of_lt hlt) hfirst h⟩,
    fun found h => ⟨fun limit hle => matchEnd_withLimit hp hle hfirst h,
      fun limit hlt => matchEnd_withLimit_cases hp (Nat.le_of_lt hlt) hfirst h⟩,
    fun hlimit => ?_, ⟨executed, hfind⟩, ⟨executed', hend⟩,
    fun last start t ts executed h => (Waits.comes h).1⟩
  rw [← Nat.sub_add_comm hfirst] at hlimit
  constructor
  · cases hr : m.find first with
    | ok found => exact ⟨found, rfl⟩
    | error error =>
      exact absurd (eq_of_find_eq_error hp hr ▸ hr) (find_ne_threadLimitExceeded hp hlimit)
  · cases hr : m.matchEnd first with
    | ok found => exact ⟨found, rfl⟩
    | error error =>
      exact absurd (eq_of_matchEnd_eq_error hp hfirst hr ▸ hr)
        (matchEnd_ne_threadLimitExceeded hp hfirst hlimit)

/-- A program that reads a character or none, and has one `split`. -/
def anyOrNone : Program :=
  ⟨#[.split 1 2, .any, .accept]⟩

/-- In a text of one character one thread has to be able to wait: the search gives up if none may.
With two no search can give up. -/
theorem limit_only_stops_anyOrNone :
    Draft.finish ⟨#[.split ⟨1⟩ ⟨2⟩, .any, .accept], #[⟨0⟩, ⟨1⟩, ⟨2⟩]⟩ = .ok anyOrNone ∧
      find ⟨anyOrNone, ⟨#['a'], #[0, 1]⟩, 1⟩ 0 = .ok (some (0, 1)) ∧
      find ⟨anyOrNone, ⟨#['a'], #[0, 1]⟩, 7⟩ 0 = .ok (some (0, 1)) ∧
      find ⟨anyOrNone, ⟨#['a'], #[0, 1]⟩, 0⟩ 0 = .error (.threadLimitExceeded 0) ∧
      (∃ found, find ⟨anyOrNone, ⟨#['a'], #[0, 1]⟩, 2⟩ 0 = .ok found) ∧
      Comes ⟨anyOrNone, ⟨#['a'], #[0, 1]⟩, 1⟩ 1 (.opening 0 1)
        (.working 0 [⟨2, 1⟩, ⟨2, 0⟩] [⟨1, 0⟩, ⟨0, 0⟩]) ∧
      [(⟨2, 0⟩ : Thread)].length ≤ 1 := by
  have hd : Draft.finish ⟨#[.split ⟨1⟩ ⟨2⟩, .any, .accept], #[⟨0⟩, ⟨1⟩, ⟨2⟩]⟩ =
      .ok anyOrNone := by
    refine Draft.finish_of_nodup (by decide) ?_ rfl rfl
    exact .cons ⟨_, rfl, .split rfl rfl⟩ (.cons ⟨_, rfl, .any⟩ (.cons ⟨_, rfl, .accept⟩ .nil))
  have hcomes : Comes ⟨anyOrNone, ⟨#['a'], #[0, 1]⟩, 1⟩ 1 (.opening 0 1)
      (.working 0 [⟨2, 1⟩, ⟨2, 0⟩] [⟨1, 0⟩, ⟨0, 0⟩]) :=
    .head (.turn (by decide) (by decide) (by decide) (by decide)) <|
      .single (.turn (by decide) (by decide) (by decide) (by decide))
  have hfind : find ⟨anyOrNone, ⟨#['a'], #[0, 1]⟩, 1⟩ 0 = .ok (some (0, 1)) :=
    find_eq_of_stageAfter (Draft.closed_of_finish hd) 3 rfl
  have hstop : find ⟨anyOrNone, ⟨#['a'], #[0, 1]⟩, 0⟩ 0 = .error (.threadLimitExceeded 0) :=
    find_eq_of_stageAfter (Draft.closed_of_finish hd) 1 rfl
  obtain ⟨hlimits, -, -, -, -, hwaiting⟩ := limit_only_stops
    (m := ⟨anyOrNone, ⟨#['a'], #[0, 1]⟩, 1⟩) hd (Nat.zero_le 1)
  obtain ⟨hhigher, hlower⟩ := hlimits _ hfind
  obtain ⟨-, -, hsuffices, -⟩ := limit_only_stops
    (m := ⟨anyOrNone, ⟨#['a'], #[0, 1]⟩, 2⟩) hd (Nat.zero_le 1)
  refine ⟨hd, hfind, hhigher 7 (by decide), (hlower 0 (by decide)).resolve_left fun h => ?_,
    (hsuffices (by decide)).1, hcomes, hwaiting 1 0 _ _ _ hcomes⟩
  cases hstop.symm.trans h

end Machine

end PatternMachine
