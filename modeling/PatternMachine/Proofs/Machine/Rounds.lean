import PatternMachine.Proofs.Machine.Embedded

/-!
# Loops that go on in rounds

A loop runs an embedded machine from a test on and comes back to the test where the embedded machine
accepts, or it leaves. Backtracking refuses the states that are in use, and so a round may find less
than the embedded machine finds alone: those states lack that led to where the round starts.
`Machine.Rounds` says that this makes no difference: round for round the embedded machine finds an
end further on, whatever of those states lack, until it accepts nowhere but where it starts. Then
the loop finds the end of the last round, wherever the test stands (`Machine.Loop.firstEnd_eq`).
-/

namespace PatternMachine.Machine

variable {b : Bounds} {m n : Machine}

/-! ## Between two rounds -/

/-- Backtracking finds the end `e` from `t` even if no state from `e` on but those that lead to `t`
lack. -/
def Returned (n : Machine) (b : Bounds) (e : Nat) (t : Thread) : Prop :=
  ∃ within, n.firstEnd within t = some e ∧
    ∀ z, b.contains z = true → e ≤ z.pos → z ∉ within → n.Reaches z t

/-- Of the states from `e` on the room lacks only some at `e` that have led there. -/
structure Rested (n : Machine) (b : Bounds) (e : Nat) (room : Finset Thread) : Prop where
  later : ∀ t, b.contains t = true → e < t.pos → t ∈ room
  returned : ∀ t, b.contains t = true → t.pos = e → t ∉ room → n.Returned b e t

namespace Rested

/-- What is left of a room from `e` on after a way to the end `e`. -/
theorem of_onWay (room : Finset Thread) (t : Thread) {less : Finset Thread} {e : Nat}
    (hroom : ∀ u, b.contains u = true → e ≤ u.pos → u ∈ room)
    (hused : ∀ u, b.contains u = true → e ≤ u.pos → u ∉ less → n.OnWay room t e u) :
    n.Rested b e less where
  later u hu hlt := by
    by_contra hnot
    obtain ⟨-, within, hfound, -⟩ := hused u hu (Nat.le_of_lt hlt) hnot
    exact absurd (canAccept_of_firstEnd hfound).pos_le (Nat.not_le.2 hlt)
  returned u hu hpos hnot := by
    obtain ⟨-, within, hfound, hmissing⟩ := hused u hu (Nat.le_of_eq hpos.symm) hnot
    exact ⟨within, hfound, fun z hz hle => hmissing z (hroom z hz hle)⟩

variable {room : Finset Thread} {t : Thread} {e : Nat}

/-- The states that lack are at `e` and have led there. -/
theorem returned_of_notMem (h : n.Rested b e room) (ht : b.contains t = true) (hle : e ≤ t.pos)
    (hnot : t ∉ room) : n.Returned b e t := by
  rcases Nat.eq_or_lt_of_le hle with heq | hlt
  · exact h.returned t ht heq.symm hnot
  · exact absurd (h.later t ht hlt) hnot

/-- If no way from the thread leads to `e`, it finds what it finds if nothing lacks. -/
theorem firstEnd_eq (h : n.Rested b e room) (hn : n.StaysIn b) (ht : b.contains t = true)
    (hle : e ≤ t.pos) (hnot : ¬ n.CanAccept t e) :
    n.firstEnd room t = n.firstEnd (allRoom b) t := by
  refine firstEnd_congr fun u hu => ?_
  have hb := hn.reaches hu ht
  refine ⟨fun _ => mem_allRoom.2 hb, fun _ => Classical.by_contradiction fun hlacks => ?_⟩
  obtain ⟨within, hfound, -⟩ := h.returned_of_notMem hb (hle.trans hu.pos_le) hlacks
  exact hnot (.of_reaches hu (canAccept_of_firstEnd hfound))

/-- If all ways from the thread end and another end than `e` comes of it, it finds this end. -/
theorem firstEnd_eq_of_resolves (h : n.Rested b e room) (hn : n.StaysIn b)
    (ht : b.contains t = true) (hle : e ≤ t.pos) {found : Option Nat} (hres : n.Resolves t found)
    (hne : found ≠ some e) : n.firstEnd room t = found := by
  refine hres.firstEnd_eq_of_lacking hne fun u hu hlacks other hother => ?_
  have hb := hn.reaches hu ht
  obtain ⟨within, hfound, hwithin⟩ :=
    h.returned_of_notMem hb (hle.trans hu.pos_le) hlacks
  rw [← hfound]
  refine (hother.firstEnd_eq_of_room fun z hz => Classical.by_contradiction fun hnot => ?_).symm
  -- A state that lacks on the ways from `u` leads to `u`, but no way comes back to `u`.
  have hback := hwithin z (hn.reaches hz hb) ((hle.trans hu.pos_le).trans hz.pos_le) hnot
  rcases Relation.ReflTransGen.cases_head hz with rfl | ⟨w, hw, hwz⟩
  · exact hnot (mem_of_firstEnd hfound)
  · exact hother.not_reflTransGen hw (hwz.trans hback)

end Rested

/-- From `e` on, `n` finds the ends of one round after the other, the last one at `last`. -/
inductive Rounds (n : Machine) (b : Bounds) : (e last : Nat) → Prop
  | stop {e : Nat} : (∀ j, n.CanAccept ⟨Program.start, e⟩ j → j = e) → Rounds n b e e
  | again {e e' last : Nat} : e < e' → e' ≤ b.last →
      (∀ room, n.Rested b e room → n.firstEnd room ⟨Program.start, e⟩ = some e') →
      Rounds n b e' last → Rounds n b e last

/-- There is a last round if at every position there is a next round or no more than an empty
one. -/
theorem exists_rounds (h : ∀ e, b.first ≤ e → e ≤ b.last →
      (∀ j, n.CanAccept ⟨Program.start, e⟩ j → j = e) ∨
        ∃ e', e < e' ∧ e' ≤ b.last ∧
          ∀ room, n.Rested b e room → n.firstEnd room ⟨Program.start, e⟩ = some e')
    {e : Nat} (hfirst : b.first ≤ e) (hlast : e ≤ b.last) : ∃ last, n.Rounds b e last := by
  induction hleft : b.last - e using Nat.strongRecOn generalizing e with
  | _ _ ih =>
    rcases h e hfirst hlast with hstop | ⟨e', hlt, he', hround⟩
    · exact ⟨e, .stop hstop⟩
    · obtain ⟨last, hlast⟩ := ih (b.last - e') (by omega) (by omega) he' rfl
      exact ⟨last, .again hlt he' hround hlast⟩

/-! ## Loops -/

/-- At `test`, `m` starts a round of `n`, whose instructions it has at `base`, or leaves and
accepts. Behind the instructions of `n` is the test again, or the way back to it. -/
structure Loop (n m : Machine) (base size test leave : Nat) : Prop where
  embeds : n.Embeds m base size
  forks : ∀ pos, m.move ⟨test, pos⟩ = .fork ⟨base, pos⟩ ⟨leave, pos⟩
  leaves : ∀ pos, m.move ⟨leave, pos⟩ = .goto ⟨leave + 1, pos⟩
  accepts : ∀ pos, m.move ⟨leave + 1, pos⟩ = .accept
  back : base + size = test ∨ ∀ pos, m.move ⟨base + size, pos⟩ = .goto ⟨test, pos⟩
  test_outside : test < base ∨ base + size ≤ test
  leave_outside : base + size ≤ leave
  test_lt : test < leave

/-- The room is open for a loop from `e` on: no state of the loop itself lacks, and of those of its
rounds only some that have led to `e`. -/
structure Open (n : Machine) (b : Bounds) (base size test leave e : Nat) (room : Finset Thread) :
    Prop where
  own : ∀ pc ∈ [test, base + size, leave, leave + 1], ∀ pos, e ≤ pos → pos ≤ b.last →
    (⟨pc, pos⟩ : Thread) ∈ room
  rested : n.Rested b e (inside b base size room)

namespace Loop

variable {base size test leave : Nat} {room : Finset Thread} {e last : Nat}

/-- What is found behind a round is found at the test. -/
theorem firstEnd_back (h : Loop n m base size test leave)
    (hroom : (⟨base + size, e⟩ : Thread) ∈ room) :
    m.firstEnd room ⟨base + size, e⟩ = m.firstEnd room ⟨test, e⟩ := by
  rcases h.back with heq | hgoto
  · rw [heq]
  · exact firstEnd_eq_of_goto hroom (hgoto e)

/-- Who leaves has found the position. -/
theorem firstEnd_leave (h : Loop n m base size test leave)
    (hleave : (⟨leave, e⟩ : Thread) ∈ room) (haccept : (⟨leave + 1, e⟩ : Thread) ∈ room) :
    m.firstEnd room ⟨leave, e⟩ = some e := by
  rw [firstEnd_eq_of_goto hleave (h.leaves e), firstEnd_of_accept haccept (h.accepts e)]

/-- A round that can only come back to where it started finds nothing, as the test is in use. -/
theorem firstEnd_round_eq_none (h : Loop n m base size test leave) (hn : n.StaysIn b)
    (he : b.contains ⟨Program.start, e⟩ = true)
    (hstop : ∀ j, n.CanAccept ⟨Program.start, e⟩ j → j = e) :
    m.firstEnd (room.erase ⟨test, e⟩) ⟨base, e⟩ = none := by
  rw [Option.eq_none_iff_forall_ne_some]
  intro found hfound
  obtain ⟨-, j, hj, less, hless, hend⟩ :=
    h.embeds.exists_exit (t := ⟨Program.start, e⟩) hn he (Nat.zero_le size) hfound
  obtain rfl := hstop j hj
  rw [h.firstEnd_back (mem_of_firstEnd hend)] at hend
  exact Finset.notMem_erase _ _ (hless (mem_of_firstEnd hend))

/-- A way to `e` through instructions of `n`, those of the round or others before them, leaves the
loop open from `e` on. -/
theorem open_of_used (h : Loop n m base size test leave) {place : Nat} {t : Thread}
    {less : Finset Thread} (hplace : place = base ∨ place + size ≤ base)
    (htest : test < place ∨ place + size ≤ test)
    (hown : ∀ pc ∈ [test, base + size, leave, leave + 1], ∀ pos, e ≤ pos → pos ≤ b.last →
      (⟨pc, pos⟩ : Thread) ∈ room)
    (hroom : ∀ k ∈ [place, base], ∀ u, b.contains u = true → e ≤ u.pos → u.pc < size →
      u.moved k ∈ room)
    (hused : ∀ x ∈ room, x ∉ less → ∃ u, x = u.moved place ∧ u.pc < size ∧
      n.OnWay (inside b place size room) t e u) : Open n b base size test leave e less := by
  refine ⟨fun pc hpc pos hpos hlast => ?_, .of_onWay (inside b place size room) t
    (fun u hu hle => mem_inside.2 ⟨hu, hroom place (by simp) u hu hle⟩) fun u hu hle hnot => ?_⟩
  · -- The states of the loop itself are not among the instructions of `n`.
    by_contra hnot
    obtain ⟨u, hu, hlt, -⟩ := hused _ (hown pc hpc pos hpos hlast) hnot
    have hpc' : pc = place + u.pc := congrArg Thread.pc hu
    have := h.leave_outside
    simp only [List.mem_cons, List.not_mem_nil, or_false] at hpc
    omega
  · obtain ⟨hsize, hmoved⟩ := moved_notMem_of_inside hu hnot
    obtain ⟨v, hv, hlt, hway⟩ := hused _ (hroom base (by simp) u hu hle hsize) hmoved
    rcases hplace with rfl | hbefore
    · exact Thread.moved_inj.1 hv ▸ hway
    · have hpc : base + u.pc = place + v.pc := congrArg Thread.pc hv
      omega

/-- A round that finds an end further on leaves the loop open from there on, and what is then found
behind it is what is found. -/
theorem exists_open (h : Loop n m base size test leave) (hn : n.StaysIn b)
    (he : b.contains ⟨Program.start, e⟩ = true) (hopen : Open n b base size test leave e room)
    {e' : Nat} (hlt : e < e') (hround : ∀ room, n.Rested b e room →
      n.firstEnd room ⟨Program.start, e⟩ = some e') :
    ∃ less, Open n b base size test leave e' less ∧
      ∀ found, m.firstEnd less ⟨base + size, e'⟩ = some found →
        m.firstEnd (room.erase ⟨test, e⟩) ⟨base, e⟩ = some found := by
  have hinside : inside b base size (room.erase ⟨test, e⟩) = inside b base size room :=
    inside_erase_of_outside h.test_outside
  have hother : ∀ x ∈ room, e < x.pos → x ∈ room.erase ⟨test, e⟩ := by
    intro x hx hpos
    refine Finset.mem_erase.2 ⟨?_, hx⟩
    rintro rfl
    exact Nat.lt_irrefl e hpos
  obtain ⟨less, -, hbehind, hused⟩ := h.embeds.enters (t := ⟨Program.start, e⟩) hn he
    (Nat.zero_le size) (hround _ (hinside.symm ▸ hopen.rested))
  refine ⟨less, h.open_of_used (.inl rfl) h.test_outside (fun pc hpc pos hpos hlast => ?_)
    (fun k hk u hu hle hsize => ?_) hused, hbehind⟩
  · exact hother _ (hopen.own pc hpc pos (by omega) hlast) (Nat.lt_of_lt_of_le hlt hpos)
  · obtain rfl : k = base := by simpa using hk
    have hu' := mem_inside.1 (hopen.rested.later u hu (Nat.lt_of_lt_of_le hlt hle))
    exact hother _ (hu'.2 hsize) (Nat.lt_of_lt_of_le hlt hle)

/-- At the test the end of the last round is found. -/
theorem firstEnd_eq (h : Loop n m base size test leave) (hn : n.StaysIn b) (hwidth : 0 < b.width)
    (hfirst : b.first ≤ e) (hle : e ≤ b.last) (hopen : Open n b base size test leave e room)
    (hrounds : n.Rounds b e last) : m.firstEnd room ⟨test, e⟩ = some last := by
  induction hrounds generalizing room with
  | @stop e hstop =>
    have hown : ∀ pc ∈ [leave, leave + 1], (⟨pc, e⟩ : Thread) ∈ room.erase ⟨test, e⟩ := by
      intro pc hpc
      refine Finset.mem_erase.2 ⟨fun heq => ?_,
        hopen.own pc (List.mem_cons_of_mem _ (List.mem_cons_of_mem _ hpc)) e (Nat.le_refl e) hle⟩
      have heq : pc = test := congrArg Thread.pc heq
      have := h.test_lt
      simp only [List.mem_cons, List.not_mem_nil, or_false] at hpc
      omega
    have hround : m.firstEnd (room.erase ⟨test, e⟩) ⟨base, e⟩ = none :=
      h.firstEnd_round_eq_none hn (Bounds.contains_iff.2 ⟨hwidth, hfirst, hle⟩) hstop
    rw [firstEnd_of_fork (hopen.own test (by simp) e (Nat.le_refl e) hle) (h.forks e), hround,
      Option.none_or, h.firstEnd_leave (hown _ (by simp)) (hown _ (by simp))]
  | @again e e' last hlt hle' hround _ ih =>
    obtain ⟨less, hopen', hbehind⟩ := h.exists_open hn
      (Bounds.contains_iff.2 ⟨hwidth, hfirst, hle⟩) hopen hlt hround
    have hback := h.firstEnd_back (hopen'.own (base + size) (by simp) e' (Nat.le_refl e') hle')
    rw [firstEnd_of_fork (hopen.own test (by simp) e (Nat.le_refl e) hle) (h.forks e),
      hbehind last (hback.trans (ih (by omega) hle' hopen')), Option.some_or]

/-- A machine that begins with the instructions of `n` and has the test behind them finds the end of
the last round, whether the loop comes back to these instructions or to others. -/
theorem firstEnd_start (h : Loop n m base size size leave) (hbegin : n.Embeds m 0 size)
    (hbase : base = 0 ∨ size ≤ base) (hn : n.StaysIn b) {c : Bounds} (hcfirst : c.first = b.first)
    (hclast : c.last = b.last) (hcwidth : leave + 1 < c.width) {i : Nat}
    (hi : b.contains ⟨Program.start, i⟩ = true) (hle : e ≤ b.last)
    (hfound : n.firstEnd (allRoom b) ⟨Program.start, i⟩ = some e) (hrounds : n.Rounds b e last) :
    m.firstEnd (allRoom c) ⟨Program.start, i⟩ = some last := by
  obtain ⟨hwidth, (hfirst : b.first ≤ i), -⟩ := Bounds.contains_iff.1 hi
  have hie : i ≤ e := (canAccept_of_firstEnd hfound).pos_le
  have hroom : ∀ {pc pos : Nat}, pc ≤ leave + 1 → b.first ≤ pos → pos ≤ b.last →
      (⟨pc, pos⟩ : Thread) ∈ allRoom c := fun hpc hpos hpos' => by
    rw [mem_allRoom, Bounds.contains_iff, hcfirst, hclast]
    exact ⟨Nat.lt_of_le_of_lt hpc hcwidth, hpos, hpos'⟩
  have hlt := h.test_lt
  have hleave := h.leave_outside
  have hinside : inside b 0 size (allRoom c) = allRoom b := by
    ext u
    rw [mem_inside, mem_allRoom, mem_allRoom, and_iff_left_iff_imp]
    intro hu hpc
    obtain ⟨-, hpos, hpos'⟩ := Bounds.contains_iff.1 hu
    exact mem_allRoom.1 (hroom (by omega) hpos hpos')
  obtain ⟨less, -, hbehind, hused⟩ := hbegin.enters (t := ⟨Program.start, i⟩) hn hi
    (Nat.zero_le size) (hinside.symm ▸ hfound)
  rw [Nat.zero_add] at hbehind
  have hmoved : (⟨Program.start, i⟩ : Thread).moved 0 = ⟨Program.start, i⟩ := rfl
  rw [← hmoved]
  refine hbehind last (h.firstEnd_eq hn hwidth (hfirst.trans hie) hle
    (h.open_of_used ?_ ?_ ?_ ?_ hused) hrounds)
  · omega
  · omega
  · intro pc hpc pos hpos hlast
    refine hroom ?_ (by omega) hlast
    simp only [List.mem_cons, List.not_mem_nil, or_false] at hpc
    omega
  · intro k hk u hu _ hsize
    obtain ⟨-, hpos, hpos'⟩ := Bounds.contains_iff.1 hu
    refine hroom ?_ hpos hpos'
    simp only [List.mem_cons, List.not_mem_nil, or_false] at hk
    omega

end Loop

end PatternMachine.Machine
