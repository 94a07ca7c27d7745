import PatternMachine.Proofs.Draft.Finish
import PatternMachine.Proofs.Machine.Execution
import PatternMachine.Proofs.Subject

/-!
# Searches stay in range and repeat nothing

Two invariants of the stages of a search in a closed program. The threads of an attempt stay in the
program and between the start of the attempt and the end of the text (`Machine.Fits`), so that the
instruction and the character of every thread exist; and no state is executed twice, not even by
two attempts (`Machine.Once`). Each is proved of one step (`Fits.advance`, `Once.advance`) and so of
all stages that a search comes to. `search_stays_in_range` and `search_executes_each_state_once` say
what this means for the searches of the machine.
-/

namespace PatternMachine

/-- There are as many states within the bounds as instructions for every position. -/
theorem Bounds.length_states (b : Bounds) :
    b.states.length = b.width * (b.last + 1 - b.first) := by
  simp [states]

/-- The positions `i` and `e` bound characters of the text: both have a byte offset, and none of
the characters between them is the sentinel. -/
structure Subject.Encloses (s : Subject) (i e : Nat) : Prop where
  le : i ≤ e
  le_size : e ≤ s.size
  offset_left : ∃ offset, s.offset i = .ok offset
  offset_right : ∃ offset, s.offset e = .ok offset
  at?_ne : ∀ k, i ≤ k → k < e → s.at? k ≠ some Text.sentinel

/-- Positions up to the end of a text bound characters of it. -/
theorem Subject.Of.encloses {s : Subject} {text : String} (h : s.Of text) {i e : Nat} (hi : i ≤ e)
    (he : e ≤ s.size) : s.Encloses i e where
  le := hi
  le_size := he
  offset_left := ⟨_, h.offset_eq (Nat.le_trans hi he)⟩
  offset_right := ⟨_, h.offset_eq he⟩
  at?_ne k _ hk := by
    have hlt : k < text.toList.length := h.size_eq ▸ Nat.lt_of_lt_of_le hk he
    rw [h.at?_eq (Nat.le_of_lt hlt), List.getElem?_eq_getElem hlt, Option.getD_some]
    intro heq
    exact h.sentinel_notMem (Option.some.inj heq ▸ List.getElem_mem hlt)

namespace Stage

/-- The threads of the running attempt. -/
def threads : Stage → List Thread
  | working _ threads _ => threads
  | ended _ _ => []

end Stage

namespace Machine

variable {m : Machine} {first last : Nat} {s s' : Stage}

/-! ## Staying in range -/

/-- `t` is at an instruction of the program and at a position from `start` up to the end of the
text. -/
structure Stands (m : Machine) (start : Nat) (t : Thread) : Prop where
  pc_lt : t.pc < m.program.size
  start_le : start ≤ t.pos
  pos_le : t.pos ≤ m.subject.size

/-- The states within the bounds of a search are those in which its threads may stand. -/
theorem contains_iff_stands {start : Nat} (hstart : start ≤ m.subject.size) {t : Thread} :
    (m.bounds start).contains t = true ↔ m.Stands start t := by
  rw [contains_bounds, Nat.max_eq_right hstart]
  exact ⟨fun ⟨hpc, hge, hle⟩ => ⟨hpc, hge, hle⟩, fun h => ⟨h.pc_lt, h.start_le, h.pos_le⟩⟩

/-- The thread with which an attempt starts. -/
theorem stands_start (hp : m.program.Closed) {start : Nat} (hstart : start ≤ m.subject.size) :
    m.Stands start ⟨Program.start, start⟩ :=
  ⟨hp.size_pos, Nat.le_refl start, hstart⟩

/-- The instruction and the character of a thread exist, and so do those of the threads that it
turns into. -/
theorem Stands.move (hp : m.program.Closed) {start : Nat} {t : Thread} (h : m.Stands start t) :
    m.move t ≠ .outside ∧ ∀ u ∈ (m.move t).threads, m.Stands start u := by
  have hstart := Nat.le_trans h.start_le h.pos_le
  obtain ⟨ho, hnext⟩ := staysIn_bounds hp hstart t ((contains_iff_stands hstart).2 h)
  exact ⟨ho, fun u hu => (contains_iff_stands hstart).1 (hnext u hu)⟩

/-- What a search from position `first` on may report. -/
def Reported (m : Machine) (first : Nat) :
    (result : Except SearchError (Option (Nat × Nat))) → Prop
  | .ok none => True
  | .ok (some (i, e)) => first ≤ i ∧ i ≤ e ∧ e ≤ m.subject.size
  | .error error => error = .threadLimitExceeded m.threadLimit

/-- The threads of the running attempt stand at its start or behind it, and the result is one that
may be reported. -/
def Fits (m : Machine) (first last : Nat) : Stage → Prop
  | .working start threads _ => first ≤ start ∧ start ≤ last ∧ ∀ t ∈ threads, m.Stands start t
  | .ended result _ => m.Reported first result

/-- A search fits at its start. -/
theorem fits_opening (hp : m.program.Closed) (hlast : last ≤ m.subject.size) :
    m.Fits first last (.opening first last) := by
  unfold Stage.opening
  split
  · rename_i hle
    exact ⟨Nat.le_refl first, hle,
      List.forall_mem_singleton.2 (stands_start hp (Nat.le_trans hle hlast))⟩
  · trivial

/-- One step keeps a search in range. -/
theorem Fits.advance (hp : m.program.Closed) (hlast : last ≤ m.subject.size)
    (h : m.Fits first last s) (hs : m.Advances last s s') : m.Fits first last s' := by
  cases hs with
  | skip =>
    obtain ⟨hfirst, hle, hts⟩ := h
    exact ⟨hfirst, hle, fun u hu => hts u (List.mem_cons_of_mem _ hu)⟩
  | turn =>
    obtain ⟨hfirst, hle, hts⟩ := h
    refine ⟨hfirst, hle, fun u hu => ?_⟩
    rcases List.mem_append.1 hu with hu | hu
    · exact ((hts _ List.mem_cons_self).move hp).2 u hu
    · exact hts u (List.mem_cons_of_mem _ hu)
  | accept =>
    obtain ⟨hfirst, -, hts⟩ := h
    have ht := hts _ List.mem_cons_self
    exact ⟨hfirst, ht.start_le, ht.pos_le⟩
  | full => rfl
  | outside _ ho =>
    obtain ⟨-, -, hts⟩ := h
    exact absurd ho ((hts _ List.mem_cons_self).move hp).1
  | restart hlt =>
    obtain ⟨hfirst, -, -⟩ := h
    exact ⟨Nat.le_succ_of_le hfirst, hlt,
      List.forall_mem_singleton.2 (stands_start hp (Nat.le_trans hlt hlast))⟩
  | exhausted => trivial

/-- A search stays in range. -/
theorem Fits.comes (hp : m.program.Closed) (hlast : last ≤ m.subject.size)
    (h : m.Comes last (.opening first last) s) : m.Fits first last s := by
  induction h with
  | refl => exact fits_opening hp hlast
  | tail _ hs ih => exact ih.advance hp hlast hs

/-- A search reports a match that lies in the text from `first` on, or none. -/
theorem reported_find (hp : m.program.Closed) (first : Nat) :
    m.Reported first (m.find first) := by
  obtain ⟨executed, hcomes⟩ := comes_find hp first
  exact Fits.comes hp (Nat.le_refl _) hcomes

/-- An attempt reports an end in the text that is not before its start, or none. -/
theorem reported_matchEnd (hp : m.program.Closed) {start : Nat} (hstart : start ≤ m.subject.size) :
    m.Reported start ((m.matchEnd start).map (Option.map (start, ·))) := by
  obtain ⟨executed, hcomes⟩ := comes_matchEnd hp hstart
  exact Fits.comes hp hstart hcomes

/-! ## Executing no state twice -/

/-- A step executes at most one state, that of a thread of the running attempt, and one that was
not executed before. -/
theorem Advances.executed (hs : m.Advances last s s') : s'.executed = s.executed ∨
    ∃ t ∈ s.threads, t ∉ s.executed ∧ s'.executed = t :: s.executed := by
  cases hs with
  | skip | restart | exhausted => exact .inl rfl
  | turn ht | accept ht | full ht | outside ht => exact .inr ⟨_, List.mem_cons_self, ht, rfl⟩

/-- The threads of the running attempt stand at the start of the search or behind it. -/
theorem Fits.stands (h : m.Fits first last s) {t : Thread} (ht : t ∈ s.threads) :
    m.Stands first t := by
  cases s with
  | ended => cases ht
  | working start threads executed =>
    obtain ⟨hfirst, -, hts⟩ := h
    have h := hts t ht
    exact ⟨h.pc_lt, Nat.le_trans hfirst h.start_le, h.pos_le⟩

/-- No state was executed twice, and only states in which a thread of the search may stand. -/
structure Once (m : Machine) (first : Nat) (s : Stage) : Prop where
  nodup : s.executed.Nodup
  stands : ∀ t ∈ s.executed, m.Stands first t

/-- One step executes no state that was executed before. -/
theorem Once.advance (hfits : m.Fits first last s) (h : m.Once first s)
    (hs : m.Advances last s s') : m.Once first s' := by
  rcases hs.executed with heq | ⟨t, ht, hnew, heq⟩
  · exact ⟨heq ▸ h.nodup, heq ▸ h.stands⟩
  · refine ⟨heq ▸ List.nodup_cons.2 ⟨hnew, h.nodup⟩, ?_⟩
    rw [heq]
    exact List.forall_mem_cons.2 ⟨hfits.stands ht, h.stands⟩

/-- A search executes no state twice. -/
theorem Once.comes (hp : m.program.Closed) (hlast : last ≤ m.subject.size)
    (h : m.Comes last (.opening first last) s) : m.Once first s := by
  induction h with
  | refl =>
    have hnone : (Stage.opening first last).executed = [] := by
      unfold Stage.opening
      split <;> rfl
    exact ⟨by simp [hnone], by simp [hnone]⟩
  | tail hcomes hs ih => exact ih.advance (Fits.comes hp hlast hcomes) hs

/-- So it executes at most as many states as there are. -/
theorem Once.length_le (h : m.Once first s) :
    s.executed.length ≤ m.program.size * (m.subject.size + 1) := by
  have hsub : ∀ t ∈ s.executed, t ∈ (m.bounds 0).states := fun t ht =>
    Bounds.mem_states.2 (contains_bounds.2 ⟨(h.stands t ht).pc_lt, Nat.zero_le _,
      Nat.le_trans (h.stands t ht).pos_le (Nat.le_max_right _ _)⟩)
  calc s.executed.length
    _ ≤ (m.bounds 0).states.length := h.nodup.length_le_of_subset hsub
    _ = m.program.size * (m.subject.size + 1) := by
      rw [Bounds.length_states, bounds, Nat.zero_max, Nat.sub_zero]

/-! ## What this means for a search -/

/-- Whatever the program: in every search of a text that begins no attempt behind its end, the
threads that run or wait have an instruction and a character, which is one of the text from the
start of the attempt on or the sentinel at its end. So no search looks for what does not exist, and
the positions that it reports bound characters of the text. -/
theorem search_stays_in_range {d : Draft} {text : String} (hd : d.finish = .ok m.program)
    (hs : Subject.ofString text = .ok m.subject) :
    (∀ (first last start : Nat) (threads executed : List Thread), last ≤ m.subject.size →
      m.Comes last (.opening first last) (.working start threads executed) →
      first ≤ start ∧ ∀ t ∈ threads, t.pc < m.program.size ∧ start ≤ t.pos ∧
        t.pos ≤ m.subject.size ∧ m.move t ≠ .outside) ∧
    (∀ first, (∃ executed, m.Comes m.subject.size (.opening first m.subject.size)
        (.ended (m.find first) executed)) ∧
      m.find first ≠ .error .outOfRange ∧
      ∀ i e, m.find first = .ok (some (i, e)) → first ≤ i ∧ m.subject.Encloses i e) ∧
    ∀ start ≤ m.subject.size, (∃ executed, m.Comes start (.opening start start)
        (.ended ((m.matchEnd start).map (Option.map (start, ·))) executed)) ∧
      m.matchEnd start ≠ .error .outOfRange ∧ m.matchesAt start ≠ .error .outOfRange ∧
      ∀ e, m.matchEnd start = .ok (some e) → m.subject.Encloses start e := by
  have hp := Draft.closed_of_finish hd
  have hs := Subject.of_ofString hs
  refine ⟨fun first last start threads executed hlast hcomes => ?_, fun first => ?_,
    fun start hstart => ?_⟩
  · obtain ⟨hfirst, -, hts⟩ := Fits.comes hp hlast hcomes
    refine ⟨hfirst, fun t ht => ?_⟩
    have h := hts t ht
    exact ⟨h.pc_lt, h.start_le, h.pos_le, (h.move hp).1⟩
  · obtain ⟨executed, hcomes⟩ := comes_find hp first
    have hfits : m.Reported first (m.find first) := Fits.comes hp (Nat.le_refl _) hcomes
    refine ⟨⟨executed, hcomes⟩, fun herror => ?_, fun i e hfound => ?_⟩
    · rw [herror] at hfits
      cases hfits
    · rw [hfound] at hfits
      obtain ⟨hfirst, hi, he⟩ := hfits
      exact ⟨hfirst, hs.encloses hi he⟩
  · obtain ⟨executed, hcomes⟩ := comes_matchEnd hp hstart
    have hfits : m.Reported start ((m.matchEnd start).map (Option.map (start, ·))) :=
      Fits.comes hp hstart hcomes
    have hrange : m.matchEnd start ≠ .error .outOfRange := fun herror => by
      rw [herror] at hfits
      cases hfits
    refine ⟨⟨executed, hcomes⟩, hrange, fun herror => ?_, fun e hfound => ?_⟩
    · rw [matchesAt] at herror
      cases hend : m.matchEnd start with
      | ok found => rw [hend] at herror; cases herror
      | error error => rw [hend] at herror hrange; cases herror; exact hrange rfl
    · rw [hfound] at hfits
      obtain ⟨-, hi, he⟩ := hfits
      exact hs.encloses hi he

/-- A program that reads one character or none. The instruction that reads it is placed twice, and
the edge to it leads to its second place. -/
def atMostOne : Program :=
  ⟨#[.split 3 4, .any, .jump 0, .any, .accept]⟩

/-- The second thread waits at the last instruction while the first one accepts. -/
theorem search_stays_in_range_waiting :
    Draft.finish ⟨#[.split ⟨1⟩ ⟨2⟩, .any, .accept, .jump ⟨0⟩], #[⟨0⟩, ⟨1⟩, ⟨3⟩, ⟨1⟩, ⟨2⟩]⟩ =
        .ok atMostOne ∧
      Subject.ofString "ab" = .ok ⟨#['a', 'b'], #[0, 1, 2]⟩ ∧
      Comes ⟨atMostOne, ⟨#['a', 'b'], #[0, 1, 2]⟩, 1⟩ 2 (.opening 0 2)
        (.working 0 [⟨4, 1⟩, ⟨4, 0⟩] [⟨3, 0⟩, ⟨0, 0⟩]) ∧
      (∀ t ∈ [(⟨4, 1⟩ : Thread), ⟨4, 0⟩], t.pc < 5 ∧ 0 ≤ t.pos ∧ t.pos ≤ 2 ∧
        move ⟨atMostOne, ⟨#['a', 'b'], #[0, 1, 2]⟩, 1⟩ t ≠ .outside) ∧
      find ⟨atMostOne, ⟨#['a', 'b'], #[0, 1, 2]⟩, 1⟩ 0 = .ok (some (0, 1)) ∧
      Subject.Encloses ⟨#['a', 'b'], #[0, 1, 2]⟩ 0 1 := by
  have hd : Draft.finish
      ⟨#[.split ⟨1⟩ ⟨2⟩, .any, .accept, .jump ⟨0⟩], #[⟨0⟩, ⟨1⟩, ⟨3⟩, ⟨1⟩, ⟨2⟩]⟩ =
        .ok atMostOne := by
    refine Draft.finish_eq_ok_iff.2 ⟨?_, .accept, rfl, rfl⟩
    simp only [Draft.resolved_eq_ok_iff, Draft.positions, getElem?_foldl_insert]
    exact .cons ⟨_, rfl, .split rfl rfl⟩ (.cons ⟨_, rfl, .any⟩ (.cons ⟨_, rfl, .jump rfl⟩
      (.cons ⟨_, rfl, .any⟩ (.cons ⟨_, rfl, .accept⟩ .nil))))
  have hs : Subject.ofString "ab" = .ok ⟨#['a', 'b'], #[0, 1, 2]⟩ := rfl
  have hcomes : Comes ⟨atMostOne, ⟨#['a', 'b'], #[0, 1, 2]⟩, 1⟩ 2 (.opening 0 2)
      (.working 0 [⟨4, 1⟩, ⟨4, 0⟩] [⟨3, 0⟩, ⟨0, 0⟩]) :=
    .head (.turn (by decide) (by decide) (by decide) (by decide)) <|
      .single (.turn (by decide) (by decide) (by decide) (by decide))
  have hfind : find ⟨atMostOne, ⟨#['a', 'b'], #[0, 1, 2]⟩, 1⟩ 0 = .ok (some (0, 1)) :=
    find_eq_of_stageAfter (Draft.closed_of_finish hd) 3 rfl
  obtain ⟨hstages, hfound, -⟩ := search_stays_in_range
    (m := ⟨atMostOne, ⟨#['a', 'b'], #[0, 1, 2]⟩, 1⟩) hd hs
  exact ⟨hd, hs, hcomes, (hstages 0 2 0 _ _ (by decide) hcomes).2, hfind,
    ((hfound 0).2.2 0 1 hfind).2⟩

/-- Whatever the program and the text, every search comes to an end, whatever way it takes. The
states that it executes in all its attempts together are different ones; each of them is an
instruction of the program at a position from the start of the search up to the end of the text,
so that there are no more of them than instructions times positions. -/
theorem search_executes_each_state_once {d : Draft} (hd : d.finish = .ok m.program) :
    (∀ first last, last ≤ m.subject.size →
      Acc (fun s' s => m.Advances last s s') (.opening first last) ∧
      ∀ s, m.Comes last (.opening first last) s → s.executed.Nodup ∧
        (∀ t ∈ s.executed, t.pc < m.program.size ∧ first ≤ t.pos ∧ t.pos ≤ m.subject.size) ∧
        s.executed.length ≤ m.program.size * (m.subject.size + 1)) ∧
    (∀ first result, (∃ executed, m.Comes m.subject.size (.opening first m.subject.size)
      (.ended result executed)) ↔ result = m.find first) ∧
    ∀ start ≤ m.subject.size, ∀ result, (∃ executed, m.Comes start (.opening start start)
      (.ended result executed)) ↔ result = (m.matchEnd start).map (Option.map (start, ·)) := by
  have hp := Draft.closed_of_finish hd
  refine ⟨fun first last hlast => ⟨?_, fun s hcomes => ?_⟩,
    fun first _ => comes_ended_iff (comes_find hp first),
    fun start hstart _ => comes_ended_iff (comes_matchEnd hp hstart)⟩
  · obtain ⟨executed, hcomes⟩ := comes_search hp first hlast
    exact acc_of_comes hcomes
  · have honce := Once.comes hp hlast hcomes
    refine ⟨honce.nodup, fun t ht => ?_, honce.length_le⟩
    have h := honce.stands t ht
    exact ⟨h.pc_lt, h.start_le, h.pos_le⟩

/-- A program whose ways all lead in circles. -/
def circles : Program :=
  ⟨#[.split 0 1, .nop, .jump 1]⟩

/-- The `split` leads back to itself, and the jump behind it back to the `nop`. The two attempts in
a text of one character execute all six states there are. -/
theorem search_executes_each_state_once_circles :
    Draft.finish ⟨#[.split ⟨0⟩ ⟨1⟩, .nop, .jump ⟨1⟩], #[⟨0⟩, ⟨1⟩, ⟨2⟩]⟩ = .ok circles ∧
      find ⟨circles, ⟨#['a'], #[0, 1]⟩, 1⟩ 0 = .ok none ∧
      ∃ executed, Comes ⟨circles, ⟨#['a'], #[0, 1]⟩, 1⟩ 1 (.opening 0 1)
          (.ended (.ok none) executed) ∧
        executed.length = 6 ∧ executed.Nodup ∧ executed.length ≤ 3 * 2 := by
  have hd : Draft.finish ⟨#[.split ⟨0⟩ ⟨1⟩, .nop, .jump ⟨1⟩], #[⟨0⟩, ⟨1⟩, ⟨2⟩]⟩ = .ok circles := by
    refine Draft.finish_of_nodup (by decide) ?_ rfl rfl
    exact .cons ⟨_, rfl, .split rfl rfl⟩ (.cons ⟨_, rfl, .nop⟩ (.cons ⟨_, rfl, .jump rfl⟩ .nil))
  have hattempt : ∀ start executed, (∀ pc, ⟨pc, start⟩ ∉ executed) →
      Comes ⟨circles, ⟨#['a'], #[0, 1]⟩, 1⟩ 1 (.working start [⟨Program.start, start⟩] executed)
        (.working start [] (⟨2, start⟩ :: ⟨1, start⟩ :: ⟨0, start⟩ :: executed)) := by
    intro start executed hnew
    refine .head (.turn (hnew 0) nofun nofun fun _ => Nat.one_pos) ?_
    refine .head (.skip (by simp [Program.start])) ?_
    refine .head (.turn (by simp [Program.start, hnew]) nofun nofun nofun) ?_
    refine .head (.turn (by simp [Program.start, hnew]) nofun nofun nofun) ?_
    exact .single (.skip (by simp))
  have hcomes := ((hattempt 0 [] (by simp)).tail (.restart Nat.one_pos)).trans
    ((hattempt 1 _ (by simp)).tail (.exhausted (Nat.le_refl 1)))
  obtain ⟨hstages, hends, -⟩ := search_executes_each_state_once
    (m := ⟨circles, ⟨#['a'], #[0, 1]⟩, 1⟩) hd
  obtain ⟨hnodup, -, hle⟩ := (hstages 0 1 (Nat.le_refl 1)).2 _ hcomes
  exact ⟨hd, ((hends 0 _).1 ⟨_, hcomes⟩).symm, _, hcomes, rfl, hnodup, hle⟩

end Machine

end PatternMachine
