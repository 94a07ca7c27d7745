import PatternMachine.Proofs.Draft.Finish
import PatternMachine.Proofs.Machine.FirstEnd
import PatternMachine.Proofs.Machine.Limit
import PatternMachine.Proofs.Machine.Moves

/-!
# Remembering states does not change what is found

`Program.Backtracks` is backtracking as one would write it down for a program and the characters of
a text: at a `split` the first way is explored completely before the second one, and a state is
refused only if it occurs on the way that has led to it. Nothing is remembered of ways that have
failed, and nothing bounds the states. The machine remembers every state it has entered. That both
find the same end in every program is `Machine.matchEnd_eq_backtracking`; it rests on
`Machine.backtracks_iff`, by which `Machine.firstEnd` computes what backtracking finds.
-/

namespace PatternMachine

/-- Backtracking in `p` over the characters `cs`, from `t` on a way through the states `path`, ends
and has found `found`: the end of the first way to `accept`, or nothing. -/
inductive Program.Backtracks (p : Program) (cs : List Char) :
    (path : List Thread) → (t : Thread) → (found : Option Nat) → Prop
  /-- A state that is on the way already is refused. -/
  | refused {path : List Thread} {t : Thread} : t ∈ path → Backtracks p cs path t none
  | accept {path : List Thread} {t : Thread} : t ∉ path → p.code[t.pc]? = some .accept →
      Backtracks p cs path t (some t.pos)
  | literal {path : List Thread} {t : Thread} {c : Char} {found : Option Nat} : t ∉ path →
      p.code[t.pc]? = some (.literal c) → cs[t.pos]? = some c →
      Backtracks p cs (t :: path) ⟨t.pc + 1, t.pos + 1⟩ found → Backtracks p cs path t found
  | mismatch {path : List Thread} {t : Thread} {c : Char} : t ∉ path →
      p.code[t.pc]? = some (.literal c) → cs[t.pos]? ≠ some c → Backtracks p cs path t none
  | any {path : List Thread} {t : Thread} {found : Option Nat} : t ∉ path →
      p.code[t.pc]? = some .any → t.pos < cs.length →
      Backtracks p cs (t :: path) ⟨t.pc + 1, t.pos + 1⟩ found → Backtracks p cs path t found
  | exhausted {path : List Thread} {t : Thread} : t ∉ path → p.code[t.pc]? = some .any →
      ¬ t.pos < cs.length → Backtracks p cs path t none
  | jump {path : List Thread} {t : Thread} {target : Nat} {found : Option Nat} : t ∉ path →
      p.code[t.pc]? = some (.jump target) →
      Backtracks p cs (t :: path) ⟨target, t.pos⟩ found → Backtracks p cs path t found
  /-- If the first way of a `split` finds an end, the second one is not tried. -/
  | splitFirst {path : List Thread} {t : Thread} {first second e : Nat} : t ∉ path →
      p.code[t.pc]? = some (.split first second) →
      Backtracks p cs (t :: path) ⟨first, t.pos⟩ (some e) → Backtracks p cs path t (some e)
  | splitSecond {path : List Thread} {t : Thread} {first second : Nat} {found : Option Nat} :
      t ∉ path → p.code[t.pc]? = some (.split first second) →
      Backtracks p cs (t :: path) ⟨first, t.pos⟩ none →
      Backtracks p cs (t :: path) ⟨second, t.pos⟩ found → Backtracks p cs path t found
  | nop {path : List Thread} {t : Thread} {found : Option Nat} : t ∉ path →
      p.code[t.pc]? = some .nop →
      Backtracks p cs (t :: path) ⟨t.pc + 1, t.pos⟩ found → Backtracks p cs path t found

namespace Machine

variable {b : Bounds} {m : Machine}

/-! ## Room as the states that are not on the way -/

/-- `room` holds the states within the bounds that are not on the way `path`. -/
def IsRoom (b : Bounds) (path : List Thread) (room : Finset Thread) : Prop :=
  ∀ u, u ∈ room ↔ b.contains u = true ∧ u ∉ path

/-- At the start of a way there is room for every state. -/
theorem isRoom_allRoom : IsRoom b [] (allRoom b) := fun u => by simp

/-- A state that joins the way takes its room. -/
theorem IsRoom.erase {path : List Thread} {room : Finset Thread} (h : IsRoom b path room)
    (t : Thread) : IsRoom b (t :: path) (room.erase t) := by
  intro u
  rw [Finset.mem_erase, h u, List.mem_cons, not_or]
  exact and_left_comm

/-! ## Backtracking with room and along a path -/

section

variable {text : String} {first : Nat} {path : List Thread} {room : Finset Thread} {t : Thread}

/-- What backtracking finds along a path is what is found with room for the states that are not on
the path. -/
theorem firstEnd_eq_of_backtracks (hp : m.program.Closed) (hs : m.subject.Of text)
    (hfirst : first ≤ m.subject.size) {found : Option Nat}
    (h : m.program.Backtracks text.toList path t found)
    (hroom : IsRoom (m.bounds first) path room) (ht : (m.bounds first).contains t = true) :
    m.firstEnd room t = found := by
  have hm := staysIn_bounds hp hfirst
  have hpos : ∀ {u : Thread}, (m.bounds first).contains u = true → u.pos ≤ text.toList.length := by
    intro u hu
    obtain ⟨-, -, hle⟩ := contains_bounds.1 hu
    rwa [Nat.max_eq_right hfirst, hs.size_eq] at hle
  have hnext : ∀ {u v : Thread}, (m.bounds first).contains u = true → m.move u = .goto v →
      (m.bounds first).contains v = true :=
    fun hu huv => (hm _ hu).2 _ (by simp [huv, Move.threads])
  induction h generalizing room with
  | refused hmem => exact firstEnd_of_notMem fun h => ((hroom _).1 h).2 hmem
  | accept hmem hi => exact firstEnd_of_accept ((hroom _).2 ⟨ht, hmem⟩) (move_accept hi)
  | literal hmem hi hc _ ih =>
    have hmove := move_literal hs (hpos ht) hi
    rw [if_pos hc] at hmove
    rw [firstEnd_of_goto ((hroom _).2 ⟨ht, hmem⟩) hmove]
    exact ih (hroom.erase _) (hnext ht hmove)
  | mismatch hmem hi hc =>
    have hmove := move_literal hs (hpos ht) hi
    rw [if_neg hc] at hmove
    exact firstEnd_of_die ((hroom _).2 ⟨ht, hmem⟩) hmove
  | any hmem hi hlt _ ih =>
    have hmove := move_any hs (hpos ht) hi
    rw [if_pos hlt] at hmove
    rw [firstEnd_of_goto ((hroom _).2 ⟨ht, hmem⟩) hmove]
    exact ih (hroom.erase _) (hnext ht hmove)
  | exhausted hmem hi hlt =>
    have hmove := move_any hs (hpos ht) hi
    rw [if_neg hlt] at hmove
    exact firstEnd_of_die ((hroom _).2 ⟨ht, hmem⟩) hmove
  | @jump path t target found hmem hi _ ih =>
    have hmove : m.move t = .goto ⟨target, t.pos⟩ := move_jump hi
    rw [firstEnd_of_goto ((hroom _).2 ⟨ht, hmem⟩) hmove]
    exact ih (hroom.erase _) (hnext ht hmove)
  | @splitFirst path t u v e hmem hi _ ih =>
    have hmove : m.move t = .fork ⟨u, t.pos⟩ ⟨v, t.pos⟩ := move_split hi
    rw [firstEnd_of_fork ((hroom _).2 ⟨ht, hmem⟩) hmove,
      ih (hroom.erase _) ((hm _ ht).2 _ (by simp [hmove, Move.threads]))]
    rfl
  | @splitSecond path t u v found hmem hi _ _ ih₁ ih₂ =>
    have hmove : m.move t = .fork ⟨u, t.pos⟩ ⟨v, t.pos⟩ := move_split hi
    rw [firstEnd_of_fork ((hroom _).2 ⟨ht, hmem⟩) hmove,
      ih₁ (hroom.erase _) ((hm _ ht).2 _ (by simp [hmove, Move.threads])),
      ih₂ (hroom.erase _) ((hm _ ht).2 _ (by simp [hmove, Move.threads]))]
    rfl
  | @nop path t found hmem hi _ ih =>
    have hmove : m.move t = .goto ⟨t.pc + 1, t.pos⟩ := move_nop hi
    rw [firstEnd_of_goto ((hroom _).2 ⟨ht, hmem⟩) hmove]
    exact ih (hroom.erase _) (hnext ht hmove)

/-- Backtracking along a path comes to an end: what is found with room for the states that are not
on the path is found along it. -/
theorem backtracks_firstEnd (hp : m.program.Closed) (hs : m.subject.Of text)
    (hfirst : first ≤ m.subject.size) (hroom : IsRoom (m.bounds first) path room)
    (ht : (m.bounds first).contains t = true) :
    m.program.Backtracks text.toList path t (m.firstEnd room t) := by
  induction hn : room.card using Nat.strongRecOn generalizing path room t with
  | _ n ih =>
    subst hn
    by_cases hmem : t ∈ path
    · rw [firstEnd_of_notMem fun h => ((hroom t).1 h).2 hmem]
      exact .refused hmem
    have hin : t ∈ room := (hroom t).2 ⟨ht, hmem⟩
    -- whatever `t` turns into is backtracked from with less room
    have hrest : ∀ u ∈ (m.move t).threads,
        m.program.Backtracks text.toList (t :: path) u (m.firstEnd (room.erase t) u) :=
      fun u hu => ih _ (Finset.card_erase_lt_of_mem hin) (hroom.erase t)
        ((staysIn_bounds hp hfirst t ht).2 u hu) rfl
    obtain ⟨hpc, -, hle⟩ := contains_bounds.1 ht
    rw [Nat.max_eq_right hfirst, hs.size_eq] at hle
    have hcode : m.program.code[t.pc]? = some m.program.code[t.pc] := Array.getElem?_eq_getElem hpc
    cases hi : m.program.code[t.pc] with
    | literal c =>
      rw [hi] at hcode
      have hmove := move_literal hs hle hcode
      by_cases hc : text.toList[t.pos]? = some c
      · rw [if_pos hc] at hmove
        rw [firstEnd_of_goto hin hmove]
        exact .literal hmem hcode hc (hrest _ (by simp [hmove, Move.threads]))
      · rw [if_neg hc] at hmove
        rw [firstEnd_of_die hin hmove]
        exact .mismatch hmem hcode hc
    | any =>
      rw [hi] at hcode
      have hmove := move_any hs hle hcode
      by_cases hlt : t.pos < text.toList.length
      · rw [if_pos hlt] at hmove
        rw [firstEnd_of_goto hin hmove]
        exact .any hmem hcode hlt (hrest _ (by simp [hmove, Move.threads]))
      · rw [if_neg hlt] at hmove
        rw [firstEnd_of_die hin hmove]
        exact .exhausted hmem hcode hlt
    | accept =>
      rw [hi] at hcode
      rw [firstEnd_of_accept hin (move_accept hcode)]
      exact .accept hmem hcode
    | jump target =>
      rw [hi] at hcode
      have hmove : m.move t = .goto ⟨target, t.pos⟩ := move_jump hcode
      rw [firstEnd_of_goto hin hmove]
      exact .jump hmem hcode (hrest _ (by simp [hmove, Move.threads]))
    | split u v =>
      rw [hi] at hcode
      have hmove : m.move t = .fork ⟨u, t.pos⟩ ⟨v, t.pos⟩ := move_split hcode
      rw [firstEnd_of_fork hin hmove]
      have hu := hrest ⟨u, t.pos⟩ (by simp [hmove, Move.threads])
      have hv := hrest ⟨v, t.pos⟩ (by simp [hmove, Move.threads])
      cases hfirst : m.firstEnd (room.erase t) ⟨u, t.pos⟩ with
      | some e =>
        rw [hfirst] at hu
        exact .splitFirst hmem hcode hu
      | none =>
        rw [hfirst] at hu
        exact .splitSecond hmem hcode hu hv
    | nop =>
      rw [hi] at hcode
      have hmove : m.move t = .goto ⟨t.pc + 1, t.pos⟩ := move_nop hcode
      rw [firstEnd_of_goto hin hmove]
      exact .nop hmem hcode (hrest _ (by simp [hmove, Move.threads]))

/-- Along the empty path all states within the bounds may be entered. -/
theorem backtracks_iff (hp : m.program.Closed) (hs : m.subject.Of text)
    (hfirst : first ≤ m.subject.size) (ht : (m.bounds first).contains t = true)
    {found : Option Nat} : m.program.Backtracks text.toList [] t found ↔
      found = m.firstEnd (allRoom (m.bounds first)) t := by
  refine ⟨?_, ?_⟩
  · intro h
    exact (firstEnd_eq_of_backtracks hp hs hfirst h isRoom_allRoom ht).symm
  · rintro rfl
    exact backtracks_firstEnd hp hs hfirst isRoom_allRoom ht

end

/-- In every finished program and from every position of a text, backtracking that refuses only the
states on its own way comes to an end, and an attempt of the machine reports exactly what it has
found, unless too many threads have to wait. With as many as there are `split` instructions times
positions it is always reported. -/
theorem matchEnd_eq_backtracking {d : Draft} {text : String} (hp : d.finish = .ok m.program)
    (hs : Subject.ofString text = .ok m.subject) {start : Nat} (hstart : start ≤ m.subject.size) :
    ∃ found,
      (∀ found', m.program.Backtracks text.toList [] ⟨Program.start, start⟩ found' ↔
        found' = found) ∧
      (m.matchEnd start = .ok found ∨
        m.matchEnd start = .error (.threadLimitExceeded m.threadLimit)) ∧
      (m.program.splits * (m.subject.size + 1 - start) ≤ m.threadLimit →
        m.matchEnd start = .ok found) := by
  have hclosed := Draft.closed_of_finish hp
  have hspec := matchEnd_spec hclosed hstart
  refine ⟨m.firstEnd (allRoom (m.bounds start)) ⟨Program.start, start⟩, ?_, hspec,
    fun hlimit => hspec.resolve_right (matchEnd_ne_threadLimitExceeded hclosed hstart hlimit)⟩
  intro found'
  exact backtracks_iff hclosed (Subject.of_ofString hs) hstart
    (contains_start hclosed (Nat.le_refl _) (Nat.le_max_left _ _))

/-- In this program the first way of the `split` leads back to it and is refused there, so that the
second way is the one that is found. Two threads may wait, for one `split` and two positions. -/
theorem matchEnd_eq_backtracking_cycle :
    Draft.finish ⟨#[.split ⟨1⟩ ⟨2⟩, .jump ⟨0⟩, .literal 'a', .accept], #[⟨0⟩, ⟨1⟩, ⟨2⟩, ⟨3⟩]⟩ =
        .ok ⟨#[.split 1 2, .jump 0, .literal 'a', .accept]⟩ ∧
      Subject.ofString "a" = .ok ⟨#['a'], #[0, 1]⟩ ∧
      Program.Backtracks ⟨#[.split 1 2, .jump 0, .literal 'a', .accept]⟩ "a".toList []
        ⟨Program.start, 0⟩ (some 1) ∧
      matchEnd ⟨⟨#[.split 1 2, .jump 0, .literal 'a', .accept]⟩, ⟨#['a'], #[0, 1]⟩, 2⟩ 0 =
        .ok (some 1) := by
  have hd : Draft.finish
      ⟨#[.split ⟨1⟩ ⟨2⟩, .jump ⟨0⟩, .literal 'a', .accept], #[⟨0⟩, ⟨1⟩, ⟨2⟩, ⟨3⟩]⟩ =
        .ok ⟨#[.split 1 2, .jump 0, .literal 'a', .accept]⟩ := by
    refine Draft.finish_of_nodup (by decide) ?_ rfl rfl
    exact .cons ⟨_, rfl, .split rfl rfl⟩ (.cons ⟨_, rfl, .jump rfl⟩
      (.cons ⟨_, rfl, .literal _⟩ (.cons ⟨_, rfl, .accept⟩ .nil)))
  have hs : Subject.ofString "a" = .ok ⟨#['a'], #[0, 1]⟩ := rfl
  have hway : Program.Backtracks ⟨#[.split 1 2, .jump 0, .literal 'a', .accept]⟩ "a".toList []
      ⟨Program.start, 0⟩ (some 1) :=
    .splitSecond (by decide) rfl
      (.jump (by decide) rfl (.refused (by decide)))
      (.literal (by decide) rfl (by decide) (.accept (by decide) rfl))
  obtain ⟨found, hfound, -, hend⟩ := matchEnd_eq_backtracking
    (m := ⟨⟨#[.split 1 2, .jump 0, .literal 'a', .accept]⟩, ⟨#['a'], #[0, 1]⟩, 2⟩) hd hs
    (Nat.zero_le _)
  obtain rfl := (hfound _).1 hway
  exact ⟨hd, hs, hway, hend (by decide)⟩

end Machine

end PatternMachine
