import PatternMachine.Proofs.Machine.Backtracks

/-!
# Attempts that share the states they have entered

The attempts of a scan skip the states that earlier ones have entered. When an attempt has failed,
these states are closed: none of them accepts, and what they turn into is among them
(`Machine.Explored`). An attempt that skips them therefore does the same as one that starts afresh,
but for the threads that the fresh one spends on them (`Machine.Padded`); so it never has more
threads waiting, and where it has to give up, the fresh one gives up as well
(`Machine.drain_stopped`). `Machine.find_eq_first_attempt` puts a scan and its single attempts side
by side.
-/

namespace PatternMachine.Machine

variable {b c : Bounds} {m : Machine}

/-! ## The states of a failed attempt -/

/-- No state in `v` accepts, and all that they turn into is in `v` or waits in `ts`. -/
def Explored (m : Machine) (v : Visited b) (ts : List Thread) : Prop :=
  ∀ t, v.contains t = true →
    m.move t ≠ .accept ∧ ∀ u ∈ (m.move t).threads, v.contains u = true ∨ u ∈ ts

namespace Explored

variable {v : Visited b} {t : Thread} {ts : List Thread}

/-- Nothing entered is closed. -/
theorem empty : Explored m ({} : Visited b) ts := fun t h => by simp at h

/-- Closed states stay so whatever waits. -/
theorem wait (h : Explored m v []) : Explored m v ts := by
  intro t ht
  exact ⟨(h t ht).1, fun u hu => .inl (((h t ht).2 u hu).resolve_right List.not_mem_nil)⟩

/-- A thread in an entered state need not wait. -/
theorem skip (h : Explored m v (t :: ts)) (hv : v.contains t = true) : Explored m v ts := by
  intro s hs
  refine ⟨(h s hs).1, ?_⟩
  intro u hu
  rcases (h s hs).2 u hu with hin | hin
  · exact .inl hin
  · rcases List.mem_cons.1 hin with rfl | hin
    · exact .inl hv
    · exact .inr hin

/-- A thread that enters its state leaves the threads it turns into. -/
theorem enter (h : Explored m v (t :: ts)) (ha : m.move t ≠ .accept) :
    Explored m (v.insert t) ((m.move t).threads ++ ts) := by
  intro s hs
  rw [Visited.contains_insert, Bool.or_eq_true, beq_iff_eq] at hs
  rcases hs with rfl | hs
  · exact ⟨ha, fun u hu => .inr (List.mem_append_left _ hu)⟩
  · refine ⟨(h s hs).1, ?_⟩
    intro u hu
    rcases (h s hs).2 u hu with hin | hin
    · exact .inl (by simp [hin])
    · rcases List.mem_cons.1 hin with rfl | hin
      · exact .inl (by simp)
      · exact .inr (List.mem_append_right _ hin)

/-- When an attempt has failed, the states it leaves behind are closed. -/
theorem of_failed (h : Explored m v ts) (hm : m.StaysIn b)
    (hts : ∀ t ∈ ts, b.contains t = true) {w : Visited b} (hw : m.drain v ts = .failed w) :
    Explored m w [] := by
  refine drain_induction
    (motive := fun v ts => Explored m v ts → m.drain v ts = .failed w → Explored m w []) hm
    ?nil ?seen ?enter v ts hts h hw
  case nil =>
    intro v h hw
    cases hw
    exact h
  case seen =>
    intro v t ts hb hv ih h hw
    rw [drain_seen hb hv] at hw
    exact ih (h.skip hv) hw
  case enter =>
    intro v t ts hb hv ih h hw
    by_cases ha : m.move t = .accept
    · rw [drain_accept hb hv ha] at hw
      cases hw
    by_cases hl : (m.move t).forks = true ∧ m.threadLimit ≤ ts.length
    · rw [drain_full hb hv hl.1 hl.2] at hw
      cases hw
    rw [drain_enter hb hv (hm t hb).1 ha fun hf => Nat.not_le.1 fun hle => hl ⟨hf, hle⟩] at hw
    exact ih (h.enter ha) hw

end Explored

/-! ## Skipping closed states -/

/-- `us` are the threads `ts` with further ones between them, whose states are in `old`. -/
inductive Padded (old : Visited b) : (ts us : List Thread) → Prop
  | nil : Padded old [] []
  | keep {t : Thread} {ts us : List Thread} : Padded old ts us → Padded old (t :: ts) (t :: us)
  | pad {t : Thread} {ts us : List Thread} : old.contains t = true → Padded old ts us →
      Padded old ts (t :: us)

namespace Padded

variable {old : Visited b} {ts us : List Thread}

/-- Padding does not shorten a list. -/
theorem length_le (h : Padded old ts us) : ts.length ≤ us.length := by
  induction h with
  | nil => exact Nat.le_refl _
  | keep _ ih => exact Nat.succ_le_succ ih
  | pad _ _ ih => exact Nat.le_succ_of_le ih

/-- The same threads may be put before both lists. -/
theorem keep_append (h : Padded old ts us) (new : List Thread) :
    Padded old (new ++ ts) (new ++ us) := by
  induction new with
  | nil => exact h
  | cons t new ih => exact ih.keep

/-- Threads in closed states may be put before the padded list. -/
theorem pad_append (h : Padded old ts us) {new : List Thread}
    (hnew : ∀ t ∈ new, old.contains t = true) : Padded old ts (new ++ us) := by
  induction new with
  | nil => exact h
  | cons t new ih =>
    exact .pad (hnew t List.mem_cons_self) (ih fun u hu => hnew u (List.mem_cons_of_mem _ hu))

end Padded

/-- The states entered in `v`, those in `old` included, and in `w` differ only in states of
`old`. -/
structure AgreesBut (old v : Visited b) (w : Visited c) : Prop where
  old_le : ∀ t, old.contains t = true → v.contains t = true
  contains_eq : ∀ t, old.contains t = false → v.contains t = w.contains t

namespace AgreesBut

variable {old v : Visited b} {w : Visited c}

/-- An attempt that has entered nothing agrees with one that has entered the states to skip. -/
theorem start (old : Visited b) : AgreesBut old old ({} : Visited c) where
  old_le _ ht := ht
  contains_eq t ht := by simp [ht]

/-- The two still agree when they enter the same state. -/
theorem enter (h : AgreesBut old v w) (t : Thread) : AgreesBut old (v.insert t) (w.insert t) where
  old_le u hu := by simp [h.old_le u hu]
  contains_eq u hu := by simp [h.contains_eq u hu]

/-- They still agree when the one that skips nothing enters a state that the other one skips. -/
theorem enter_old (h : AgreesBut old v w) {t : Thread} (ht : old.contains t = true) :
    AgreesBut old v (w.insert t) where
  old_le := h.old_le
  contains_eq u hu := by
    have hne : (t == u) = false := by
      rw [beq_eq_false_iff_ne]
      rintro rfl
      rw [ht] at hu
      cases hu
    rw [h.contains_eq u hu, Visited.contains_insert, hne, Bool.false_or]

end AgreesBut

/-- If the states in `old` are closed and an attempt that skips them has to give up, so has one that
does not skip them. -/
theorem drain_stopped {old v : Visited b} {w : Visited c} (hm : m.StaysIn c)
    (hsub : ∀ t, c.contains t = true → b.contains t = true) (hold : Explored m old [])
    (hvw : AgreesBut old v w) {ts us : List Thread} (hpad : Padded old ts us)
    (hus : ∀ t ∈ us, c.contains t = true) {error : SearchError}
    (h : m.drain v ts = .stopped error) :
    m.drain w us = .stopped (.threadLimitExceeded m.threadLimit) := by
  refine drain_induction
    (motive := fun w us => ∀ v ts, AgreesBut old v w → Padded old ts us →
      m.drain v ts = .stopped error →
      m.drain w us = .stopped (.threadLimitExceeded m.threadLimit)) hm
    ?nil ?seen ?enter w us hus v ts hvw hpad h
  case nil =>
    intro w v ts _ hpad h
    cases hpad
    cases h
  case seen =>
    intro w t us hb hw ih v ts hvw hpad h
    rw [drain_seen hb hw]
    cases hpad with
    | pad _ hpad => exact ih v ts hvw hpad h
    | @keep _ ts _ hpad =>
      have hv : v.contains t = true := by
        cases ho : old.contains t with
        | true => exact hvw.old_le t ho
        | false => rw [hvw.contains_eq t ho, hw]
      rw [drain_seen (hsub t hb) hv] at h
      exact ih v ts hvw hpad h
  case enter =>
    intro w t us hb hw ih v ts hvw hpad h
    by_cases hl : (m.move t).forks = true ∧ m.threadLimit ≤ us.length
    · exact drain_full hb hw hl.1 hl.2
    have hfits : (m.move t).forks = true → us.length < m.threadLimit :=
      fun hf => Nat.not_le.1 fun hle => hl ⟨hf, hle⟩
    cases ho : old.contains t with
    | true =>
      -- the other attempt skips `t`, if `t` waits there at all
      have ⟨ha, hclosed⟩ := hold t ho
      rw [drain_enter hb hw (hm t hb).1 ha hfits]
      have hnew : ∀ u ∈ (m.move t).threads, old.contains u = true :=
        fun u hu => (hclosed u hu).resolve_right (List.not_mem_nil)
      cases hpad with
      | pad _ hpad => exact ih v ts (hvw.enter_old ho) (hpad.pad_append hnew) h
      | @keep _ ts _ hpad =>
        rw [drain_seen (hsub t hb) (hvw.old_le t ho)] at h
        exact ih v ts (hvw.enter_old ho) (hpad.pad_append hnew) h
    | false =>
      cases hpad with
      | pad ho' _ =>
        rw [ho] at ho'
        cases ho'
      | @keep _ ts _ hpad =>
        have hv : v.contains t = false := (hvw.contains_eq t ho).trans hw
        by_cases ha : m.move t = .accept
        · rw [drain_accept (hsub t hb) hv ha] at h
          cases h
        rw [drain_enter (hsub t hb) hv (hm t hb).1 ha fun hf =>
          Nat.lt_of_le_of_lt hpad.length_le (hfits hf)] at h
        rw [drain_enter hb hw (hm t hb).1 ha hfits]
        exact ih (v.insert t) _ (hvw.enter t) (hpad.keep_append _) h

/-! ## Scans and single attempts -/

section

variable {text : String} {first : Nat}

/-- What is found at a position does not depend on where the search started. -/
theorem firstEnd_bounds (hp : m.program.Closed) (hs : m.subject.Of text) {i : Nat}
    (hfirst : first ≤ i) (hi : i ≤ m.subject.size) :
    m.firstEnd (allRoom (m.bounds first)) ⟨Program.start, i⟩ =
      m.firstEnd (allRoom (m.bounds i)) ⟨Program.start, i⟩ := by
  have hstart : (m.bounds i).contains ⟨Program.start, i⟩ = true :=
    contains_start hp (Nat.le_refl i) (Nat.le_max_left _ _)
  have hsearch : (m.bounds first).contains ⟨Program.start, i⟩ = true :=
    contains_start hp hfirst (Nat.le_trans hi (Nat.le_max_right _ _))
  exact ((backtracks_iff hp hs (Nat.le_trans hfirst hi) hsearch).1
    ((backtracks_iff hp hs hi hstart).2 rfl)).symm

/-- A single attempt at position `i` reports `found`, unless too many threads have to wait. -/
def Reports (m : Machine) (i : Nat) (found : Option Nat) : Prop :=
  m.matchEnd i = .ok found ∨ m.matchEnd i = .error (.threadLimitExceeded m.threadLimit)

/-- A single attempt reports what backtracking finds in a search. -/
theorem reports_firstEnd (hp : m.program.Closed) (hs : m.subject.Of text) {i : Nat}
    (hfirst : first ≤ i) (hi : i ≤ m.subject.size) :
    m.Reports i (m.firstEnd (allRoom (m.bounds first)) ⟨Program.start, i⟩) := by
  rw [firstEnd_bounds hp hs hfirst hi]
  exact matchEnd_spec hp hi

/-- Before the match of a search the single attempts find nothing, and the one at its start finds
its end. -/
theorem reports_of_find_some (hp : m.program.Closed) (hs : m.subject.Of text) {i e : Nat}
    (h : m.find first = .ok (some (i, e))) : first ≤ i ∧ i ≤ m.subject.size ∧
      (∀ k, first ≤ k → k < i → m.Reports k none) ∧ m.Reports i (some e) := by
  obtain ⟨hfirst, hi, hend, hbefore⟩ := firstEnd_of_find_some hp h
  refine ⟨hfirst, hi, fun k hk hlt => ?_, ?_⟩
  · rw [← hbefore k hk hlt]
    exact reports_firstEnd hp hs hk (Nat.le_trans (Nat.le_of_lt hlt) hi)
  · rw [← hend]
    exact reports_firstEnd hp hs hfirst hi

/-- Where a search finds no match, neither does a single attempt. -/
theorem reports_of_find_none (hp : m.program.Closed) (hs : m.subject.Of text)
    (h : m.find first = .ok none) {k : Nat} (hk : first ≤ k) (hle : k ≤ m.subject.size) :
    m.Reports k none := by
  rw [← firstEnd_of_find_none hp h hk hle]
  exact reports_firstEnd hp hs hk hle

/-- Where an attempt of a search has to give up, so has a single one. -/
theorem matchEnd_stopped (hp : m.program.Closed) {old : Visited (m.bounds first)}
    (hold : Explored m old []) {i : Nat} (hfirst : first ≤ i) (hi : i ≤ m.subject.size)
    {error : SearchError} (h : m.attempt old i = .stopped error) :
    m.matchEnd i = .error (.threadLimitExceeded m.threadLimit) := by
  have hsub : ∀ t, (m.bounds i).contains t = true → (m.bounds first).contains t = true := by
    intro t ht
    rw [contains_bounds] at ht ⊢
    omega
  have hstart : ∀ t ∈ [(⟨Program.start, i⟩ : Thread)], (m.bounds i).contains t = true :=
    List.forall_mem_singleton.2 (contains_start hp (Nat.le_refl i) (Nat.le_max_left _ _))
  rw [attempt_eq_drain] at h
  rw [matchEnd, attempt_eq_drain,
    drain_stopped (staysIn_bounds hp hi) hsub hold (.start old) (.keep .nil) hstart h]

/-- If a scan has to give up, so has the single attempt at one of its positions, and none before
that finds an end. -/
theorem exists_stopped_of_scan (hp : m.program.Closed) (hs : m.subject.Of text)
    {v : Visited (m.bounds first)} {start count : Nat} (hfirst : first ≤ start)
    (hcount : start + count ≤ m.subject.size + 1) (hv : Explored m v [])
    (hroom : ∀ t, m.firstEnd (room v) t = m.firstEnd (allRoom (m.bounds first)) t)
    {error : SearchError} (h : m.scan v start count = .error error) :
    ∃ k, start ≤ k ∧ k ≤ m.subject.size ∧
      m.matchEnd k = .error (.threadLimitExceeded m.threadLimit) ∧
      ∀ j, start ≤ j → j < k → ∀ e, m.matchEnd j ≠ .ok (some e) := by
  induction count generalizing v start with
  | zero => cases h
  | succ count ih =>
    have hle : start ≤ m.subject.size := by omega
    have hm := staysIn_bounds hp (Nat.le_trans hfirst hle)
    have hstart : ∀ t ∈ [(⟨Program.start, start⟩ : Thread)], (m.bounds first).contains t = true :=
      List.forall_mem_singleton.2
        (contains_start hp hfirst (Nat.le_trans hle (Nat.le_max_right _ _)))
    rw [scan] at h
    cases hattempt : m.attempt v start with
    | accepted e =>
      rw [hattempt] at h
      cases h
    | stopped error' =>
      refine ⟨start, Nat.le_refl _, hle, matchEnd_stopped hp hv hfirst hle hattempt, ?_⟩
      intro j hj hlt
      omega
    | failed v' =>
      rw [hattempt] at h
      rw [attempt_eq_drain] at hattempt
      have hspec := drain_spec hm v [⟨Program.start, start⟩] hstart
      rw [hattempt] at hspec
      obtain ⟨hnone, hsame⟩ := hspec
      rw [List.findSome?_singleton, hroom] at hnone
      obtain ⟨k, hk, hkle, hstop, hbefore⟩ := ih (Nat.le_succ_of_le hfirst) (by omega)
        (hv.wait.of_failed hm hstart hattempt) (fun t => (hsame t).trans (hroom t)) h
      refine ⟨k, Nat.le_of_succ_le hk, hkle, hstop, ?_⟩
      intro j hj hlt e hfound
      rcases Nat.eq_or_lt_of_le hj with rfl | hj
      · have hreports := reports_firstEnd hp hs hfirst hle
        rw [hnone, Reports, hfound] at hreports
        simp at hreports
      · exact hbefore j hj hlt e hfound

/-- If a search has to give up, so has the single attempt at one of its positions, and none before
that finds an end. -/
theorem exists_stopped_of_find (hp : m.program.Closed) (hs : m.subject.Of text)
    {error : SearchError} (h : m.find first = .error error) :
    ∃ k, first ≤ k ∧ k ≤ m.subject.size ∧
      m.matchEnd k = .error (.threadLimitExceeded m.threadLimit) ∧
      ∀ j, first ≤ j → j < k → ∀ e, m.matchEnd j ≠ .ok (some e) := by
  rcases Nat.lt_or_ge m.subject.size first with hlt | hge
  · rw [find, Nat.sub_eq_zero_of_le hlt] at h
    cases h
  · exact exists_stopped_of_scan hp hs (Nat.le_refl first) (by omega) .empty (fun _ => rfl) h

end

/-- A search and the single attempts at its positions, each of which starts afresh. Where the search
finds a match, the single attempts before it find nothing and the one at its start finds its end;
where it finds none, neither do they; but some of them may have to give up. If the search has to
give up, so has one of them, and none before that finds anything. So if none of them has to give up,
the search finds what the first successful one finds. -/
theorem find_eq_first_attempt {d : Draft} {text : String} (hd : d.finish = .ok m.program)
    (hs : Subject.ofString text = .ok m.subject) (first : Nat) :
    (∀ i e, m.find first = .ok (some (i, e)) → first ≤ i ∧ i ≤ m.subject.size ∧
      (∀ k, first ≤ k → k < i → m.Reports k none) ∧ m.Reports i (some e)) ∧
    (m.find first = .ok none → ∀ k, first ≤ k → k ≤ m.subject.size → m.Reports k none) ∧
    (∀ error, m.find first = .error error → error = .threadLimitExceeded m.threadLimit ∧
      ∃ k, first ≤ k ∧ k ≤ m.subject.size ∧
        m.matchEnd k = .error (.threadLimitExceeded m.threadLimit) ∧
        ∀ j, first ≤ j → j < k → ∀ e, m.matchEnd j ≠ .ok (some e)) ∧
    ((∀ k, first ≤ k → k ≤ m.subject.size →
        m.matchEnd k ≠ .error (.threadLimitExceeded m.threadLimit)) →
      (m.find first = .ok none ∧
        ∀ k, first ≤ k → k ≤ m.subject.size → m.matchEnd k = .ok none) ∨
      ∃ i e, m.find first = .ok (some (i, e)) ∧ first ≤ i ∧ i ≤ m.subject.size ∧
        m.matchEnd i = .ok (some e) ∧ ∀ k, first ≤ k → k < i → m.matchEnd k = .ok none) := by
  have hp := Draft.closed_of_finish hd
  have hs := Subject.of_ofString hs
  refine ⟨fun i e => reports_of_find_some hp hs, fun h k => reports_of_find_none hp hs h,
    fun error h => ⟨eq_of_find_eq_error hp h, exists_stopped_of_find hp hs h⟩, ?_⟩
  intro hfits
  match h : m.find first with
  | .ok none =>
    exact .inl ⟨rfl, fun k hk hle =>
      (reports_of_find_none hp hs h hk hle).resolve_right (hfits k hk hle)⟩
  | .ok (some (i, e)) =>
    obtain ⟨hfirst, hi, hbefore, hend⟩ := reports_of_find_some hp hs h
    exact .inr ⟨i, e, rfl, hfirst, hi, hend.resolve_right (hfits i hfirst hi), fun k hk hlt =>
      (hbefore k hk hlt).resolve_right (hfits k hk (Nat.le_trans (Nat.le_of_lt hlt) hi))⟩
  | .error error =>
    obtain ⟨k, hk, hle, hstop, -⟩ := exists_stopped_of_find hp hs h
    exact absurd hstop (hfits k hk hle)

/-- The program reads any number of `a` and then a `b`, here in `caba`. -/
def anyAThenB (limit : Nat) : Machine :=
  ⟨⟨#[.split 1 3, .literal 'a', .jump 0, .literal 'b', .accept]⟩,
    ⟨#['c', 'a', 'b', 'a'], #[0, 1, 2, 3, 4]⟩, limit⟩

/-- If enough threads may wait, the search finds `ab` behind the attempt at `c` that fails, and from
the last `a` on neither it nor any attempt finds anything. If none may wait, the search gives up as
the attempt at `c` does. -/
theorem find_eq_first_attempt_repetition :
    Draft.finish ⟨#[.split ⟨1⟩ ⟨3⟩, .literal 'a', .jump ⟨0⟩, .literal 'b', .accept],
        #[⟨0⟩, ⟨1⟩, ⟨2⟩, ⟨3⟩, ⟨4⟩]⟩ = .ok (anyAThenB 5).program ∧
      Subject.ofString "caba" = .ok (anyAThenB 5).subject ∧
      (anyAThenB 5).find 0 = .ok (some (1, 3)) ∧ (anyAThenB 5).matchEnd 0 = .ok none ∧
      (anyAThenB 5).matchEnd 1 = .ok (some 3) ∧
      (anyAThenB 5).find 3 = .ok none ∧ (anyAThenB 5).matchEnd 4 = .ok none ∧
      (anyAThenB 0).find 0 = .error (.threadLimitExceeded 0) ∧
      ∃ k ≤ 4, (anyAThenB 0).matchEnd k = .error (.threadLimitExceeded 0) := by
  have hd : Draft.finish ⟨#[.split ⟨1⟩ ⟨3⟩, .literal 'a', .jump ⟨0⟩, .literal 'b', .accept],
      #[⟨0⟩, ⟨1⟩, ⟨2⟩, ⟨3⟩, ⟨4⟩]⟩ = .ok (anyAThenB 5).program := by
    refine Draft.finish_of_nodup (by decide) ?_ rfl rfl
    exact .cons ⟨_, rfl, .split rfl rfl⟩ (.cons ⟨_, rfl, .literal _⟩ (.cons ⟨_, rfl, .jump rfl⟩
      (.cons ⟨_, rfl, .literal _⟩ (.cons ⟨_, rfl, .accept⟩ .nil))))
  have hs : Subject.ofString "caba" = .ok (anyAThenB 5).subject := rfl
  have hclosed : (anyAThenB 5).program.Closed := Draft.closed_of_finish hd
  have hfound : (anyAThenB 5).find 0 = .ok (some (1, 3)) :=
    find_eq_of_stageAfter hclosed 12 rfl
  have hnone : (anyAThenB 5).find 3 = .ok none := find_eq_of_stageAfter hclosed 12 rfl
  have hstop : (anyAThenB 0).find 0 = .error (.threadLimitExceeded 0) :=
    find_eq_of_stageAfter (m := anyAThenB 0) hclosed 12 rfl
  have hfits : ∀ k ≤ 4, (anyAThenB 5).matchEnd k ≠ .error (.threadLimitExceeded 5) := by
    intro k hk
    refine matchEnd_ne_threadLimitExceeded hclosed hk ?_
    show 1 * (4 + 1 - k) ≤ 5
    omega
  obtain ⟨hsome, -⟩ := find_eq_first_attempt (m := anyAThenB 5) hd hs 0
  obtain ⟨-, hempty, -⟩ := find_eq_first_attempt (m := anyAThenB 5) hd hs 3
  obtain ⟨-, -, herror, -⟩ := find_eq_first_attempt (m := anyAThenB 0) hd hs 0
  obtain ⟨-, -, hbefore, hend⟩ := hsome 1 3 hfound
  obtain ⟨-, k, -, hk, hgives, -⟩ := herror _ hstop
  exact ⟨hd, hs, hfound, (hbefore 0 (by decide) (by decide)).resolve_right (hfits 0 (by decide)),
    hend.resolve_right (hfits 1 (by decide)), hnone,
    (hempty hnone 4 (by decide) (by decide)).resolve_right (hfits 4 (by decide)), hstop, k, hk,
    hgives⟩

end PatternMachine.Machine
